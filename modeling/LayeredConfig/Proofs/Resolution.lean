import LayeredConfig.Proofs.Directives
import LayeredConfig.Proofs.Footprint
import Mathlib.Data.List.Forall2

/-!
# Contracts of the steps of a resolution

What each step of a resolution does with a property of trees, whatever the property is: finding
files, merging what was included, merging sections, carrying out the directives of a mapping, and
the recursion over a tree. A development about resolutions names what may be pulled in (`G`) and
what holds of a mapping while its directives are carried out (`I`), and gets the rest from here.
-/

namespace LayeredConfig

/-- A member of the second of two lists that are related one by one. -/
theorem exists_of_mem_forall₂ {α β : Type} {R : α → β → Prop} {as : List α} {bs : List β}
    (h : List.Forall₂ R as bs) {b : β} (hb : b ∈ bs) : ∃ a ∈ as, R a b := by
  induction h with
  | nil => cases hb
  | cons hab _ ih =>
    rcases List.mem_cons.1 hb with rfl | hb
    · exact ⟨_, List.mem_cons_self, hab⟩
    · obtain ⟨a, ha, hab⟩ := ih hb
      exact ⟨a, List.mem_cons_of_mem _ ha, hab⟩

namespace Scope

variable {S : FilePath → Prop} {K : World → Prop} {J : Option (List Tree) → Prop} {P : Prop}
  {s : Scope InWorld}

/-! ## Finding files -/

section Finding

variable (hK : Unnoted K)
include hK

theorem steps_firstDirectory (dirs : List FilePath) :
    Steps S K J P (Packages.firstDirectory dirs) fun _ => True := by
  induction dirs with
  | nil => exact Steps.pure fun _ => trivial
  | cons dir rest ih =>
    refine Steps.bind (Steps.load (Fulfils.of_noting hK (leaves_isDirectory · dir))) fun there => ?_
    split
    · exact Steps.pure fun _ => trivial
    · exact ih.mono (fun h => h.1) fun _ h => h

theorem steps_candidates (entry : IncludeEntry) :
    Steps S K J P (s.candidates entry) fun _ => True := by
  unfold candidates
  dsimp only
  split
  next package _ =>
    refine Steps.bind (Q := fun _ => True) (Steps.bind (Q := fun _ => True) ?_ fun _ =>
      Steps.pure fun _ => trivial) fun _ => Steps.pure fun _ => trivial
    unfold Packages.locate
    split <;> exact steps_firstDirectory hK _
  · split
    · exact Steps.pure fun _ => trivial
    · exact Steps.bind (Steps.load (Fulfils.of_noting hK leaves_directory)) fun _ =>
        Steps.pure fun _ => trivial

theorem steps_firstFile (paths : List FilePath) :
    Steps S K J P (firstFile paths) fun _ => True := by
  induction paths with
  | nil => exact Steps.pure fun _ => trivial
  | cons p rest ih =>
    refine Steps.bind (Q := fun _ => True) (Steps.bind (Steps.load
      (Fulfils.of_noting hK (leaves_status · p))) fun _ => Steps.pure fun _ => trivial)
      fun there => ?_
    split
    · exact Steps.pure fun _ => trivial
    · exact ih.mono (fun h => h.1) fun _ h => h

theorem steps_normalize (path : FilePath) :
    Steps S K J P (Host.normalize path) fun _ => True :=
  Steps.bind (Steps.load (Fulfils.of_noting hK leaves_directory)) fun _ =>
    Steps.pure fun _ => trivial

theorem steps_miss (l : Ledger) (path origin : FilePath) (package : Option String)
    (file : Option FilePath) : Steps S K J P (l.miss path origin package file) fun _ => True := by
  unfold Ledger.miss
  extract_lets rest
  have hrest : ∀ path P, Steps S K J P (rest path) fun _ => True := fun path P =>
    (steps_normalize hK origin).bind fun _ => Steps.pure fun _ => trivial
  split
  · exact Steps.bind (Q := fun _ => True) (Steps.pure fun _ => trivial) fun _ => hrest _ _
  · exact (steps_normalize hK path).bind fun _ => hrest _ _

omit hK in
theorem steps_get : Steps S K J P get fun p : Progress => J p.sources :=
  Steps.progress (fun _ _ => rfl) fun _ _ hJ => ⟨hJ, hJ⟩

omit hK in
/-- Only the ledger is changed. -/
theorem steps_modify_ledger (f : Progress → Ledger) :
    Steps S K J P (modify fun p : Progress => { p with ledger := f p }) fun _ => True :=
  Steps.progress (fun _ _ => rfl) fun _ _ hJ => ⟨trivial, hJ⟩

theorem steps_noteMissed (raw : String) (entry : IncludeEntry) (searched : List FilePath) :
    Steps S K J P (s.noteMissed raw entry searched) fun _ => True := by
  unfold noteMissed
  refine steps_get.bind fun progress => ?_
  extract_lets ledger rest
  have hrest : ∀ ledger P, Steps S K J P (rest ledger) fun _ => True := fun ledger P =>
    steps_modify_ledger _
  split
  · exact (steps_miss hK _ _ _ _ _).bind fun _ => hrest _ _
  · refine Steps.bind (Q := fun _ => True) ?_ fun _ => hrest _ _
    generalize ledger = l
    induction searched generalizing l with
    | nil => exact Steps.pure fun _ => trivial
    | cons p others ih =>
      rw [List.foldlM_cons]
      exact (steps_miss hK _ _ _ _ _).bind fun l => (ih l).mono (fun h => h.1) fun _ h => h

/-- Finding the file of an entry touches no source. -/
theorem steps_find (raw : String) (entry : IncludeEntry) (location : String) :
    Steps S K J P (s.find raw entry location) fun _ => True := by
  unfold find
  refine (steps_candidates hK entry).bind fun searched => ?_
  refine (steps_firstFile hK searched).bind fun first => ?_
  split
  · exact (steps_normalize hK _).bind fun _ => Steps.pure fun _ => trivial
  · split
    · extract_lets rest
      have hrest : ∀ u P, Steps S K J P (rest u) fun _ => True := fun u P =>
        (steps_noteMissed hK raw entry searched).bind fun _ => Steps.pure fun _ => trivial
      split
      · exact Steps.bind (Steps.load (Fulfils.of_noting hK (leaves_warn · _))) fun u => hrest u _
      · exact hrest () _
    · split
      · exact Steps.fail
      · exact Steps.fail

end Finding

/-! ## What is pulled in -/

section Included

variable {G : Tree → Prop} {flattening : Flattening} {location : String}

/-- What an `_include` pulls in has every property of the flattened files that merging keeps. -/
theorem steps_included (hK : Unnoted K) (hempty : G .empty)
    (hmerge : ∀ {base overlay : Tree}, G base → G overlay → G (base.merge overlay))
    (hload : ∀ file chain location, Fulfils S K P (s.load file chain location) fun r =>
      G (r.1.flatten flattening.separator flattening.depth)) (value : Tree) :
    Steps S K J P (s.included value location flattening) G := by
  suffices hall : ∀ raws merged P', (P' → P ∧ G merged) →
      Steps S K J P' (s.includeAll flattening location merged raws) G from
    Steps.orFail.bind fun raws => hall raws .empty _ fun h => ⟨h.1, hempty⟩
  intro raws
  induction raws with
  | nil => exact fun merged P' hP' => Steps.pure fun h => (hP' h).2
  | cons raw rest ih =>
    intro merged P' hP'
    unfold includeAll
    refine Steps.orFail.bind fun entry => (steps_find hK _ _ _).bind fun found => ?_
    cases found with
    | none => exact ih merged _ fun h => hP' h.1.1
    | some file =>
      refine Steps.bind (Q := G) ?_ fun merged => ih merged _ fun h => ⟨(hP' h.1.1.1).1, h.2⟩
      unfold includeFile
      split
      · exact Steps.fail_bind
      · refine (Steps.load ((hload _ _ _).mono (fun h => (hP' h.1.1).1) fun _ h => h)).bind
          fun (tree, ledger) => (steps_modify_ledger _).bind fun _ => ?_
        split
        · exact Steps.fail_bind
        · exact Steps.pure fun h => hmerge (hP' h.1.1.1.1).2 h.1.2

end Included

section Reused

variable {H G : Tree → Prop} {resolve : Tree → String → Resolving InWorld Tree}
  {flattening : Flattening} {location : String}

/-- What a `_use` pulls in has the property that resolving and flattening gives to all merged
sections. -/
theorem steps_reused {sources : List Tree} (hempty : H .empty)
    (hmerge : ∀ {base overlay : Tree}, H base → H overlay → H (base.merge overlay))
    (hfound : P → ∀ name found, sectionNamed? sources name = some found → H found)
    (hresolve : ∀ base, Steps S K J (P ∧ H base) (resolve base location) fun t =>
      G (t.flatten flattening.separator flattening.depth)) (value : Tree) :
    Steps S K J P (s.reused resolve sources value location flattening) G := by
  suffices hall : ∀ names merged P', (P' → P ∧ H merged) →
      Steps S K J P' (s.mergeSections sources location merged names) H from
    Steps.orFail.bind fun names => (hall names .empty _ fun h => ⟨h.1, hempty⟩).bind fun base =>
      ((hresolve base).mono (fun h => ⟨h.1.1, h.2⟩) fun _ h => h).bind fun t =>
        Steps.pure fun h => h.2
  intro names
  induction names with
  | nil => exact fun merged P' hP' => Steps.pure fun h => (hP' h).2
  | cons name rest ih =>
    intro merged P' hP'
    unfold mergeSections
    split
    · exact Steps.fail
    next found hsection =>
      split
      · exact ih _ P' fun h => ⟨(hP' h).1, hmerge (hP' h).2 (hfound (hP' h).1 name found hsection)⟩
      · exact Steps.fail

end Reused

/-! ## The directives of a mapping -/

/-- No directive of the mapping is left to be carried out. -/
def Settled (includes reuse : Bool) (es : Entries) : Prop :=
  (includes = true → Entries.has es (.str Directive.includeKey) = false) ∧
    (reuse = true → Entries.has es (.str Directive.useKey) = false)

/-- The sources may see a mapping that satisfies `I` in the place of an earlier form of it. -/
def Rebindable (J : Option (List Tree) → Prop) (I : Entries → Prop) : Prop :=
  ∀ {es own others path new}, I es → J (some (own :: others)) →
    Tree.replace? (.map es) path own = some new → J (some (new :: others))

section Substituting

variable {I : Entries → Prop} {G : Tree → Prop} {flattening : Flattening} {location : String}
  {position : Position} {resolve : Tree → String → Resolving InWorld Tree}

theorem steps_rebind (hJ : Rebindable J I) (es : Entries) :
    Steps S K J (P ∧ I es) (rebind position es) fun _ => True := by
  unfold rebind
  split
  · exact Steps.pure fun _ => trivial
  next path =>
    refine Steps.progress (fun _ _ => rfl) fun ⟨_, hI⟩ p hp => ⟨trivial, ?_⟩
    dsimp only
    generalize p.sources = sources at hp
    rcases sources with _ | _ | ⟨own, others⟩
    · exact hp
    · exact hp
    · dsimp only [Option.map_some]
      cases hnew : Tree.replace? (.map es) path own with
      | none => exact hp
      | some new => exact hJ hI hp hnew

/-- Carrying out an `_include` keeps what placing an included tree beneath a mapping keeps. -/
theorem steps_includeStep (hJ : Rebindable J I)
    (hunder : ∀ {base es}, s.includes = true → P → I es → G base →
      I (Tree.underlay base (Entries.erase es (.str Directive.includeKey))))
    (hbase : ∀ value, Steps S K J P (s.included value location flattening) G) (es : Entries) :
    Steps S K J (P ∧ I es) (s.includeStep flattening location position es) I := by
  unfold includeStep
  dsimp only
  split
  · exact Steps.pure fun h => h.2
  next value hvalue =>
    have hincludes : s.includes = true := by
      by_contra hincludes
      simp [hincludes] at hvalue
    refine ((hbase value).mono (fun h => h.1) fun _ h => h).bind fun base => ?_
    refine Steps.bind ((steps_rebind (P := P) hJ _).mono ?_ fun _ h => h) fun _ => Steps.pure ?_
    · exact fun h => ⟨h.1.1, hunder hincludes h.1.1 h.1.2 h.2⟩
    · exact fun h => hunder hincludes h.1.1.1 h.1.1.2 h.1.2

/-- Carrying out a `_use` keeps what placing reused sections beneath a mapping keeps. -/
theorem steps_useStep {reuse : Bool} (hreuse : ∀ {sources}, J sources → sources.isSome = reuse)
    (hJ : Rebindable J I)
    (hunder : ∀ {base es}, reuse = true → P → I es → G base →
      I (Tree.underlay base (Entries.erase es (.str Directive.useKey))))
    (hbase : ∀ sources value, Steps S K J (P ∧ J (some sources))
      (s.reused resolve sources value location flattening) G) (es : Entries) :
    Steps S K J (P ∧ I es) (s.useStep resolve flattening location position es) I := by
  unfold useStep
  dsimp only
  refine steps_get.bind fun progress => ?_
  split
  next sources value hsources _ =>
    have hsome : J progress.sources → reuse = true := fun h => by
      rw [← hreuse h, hsources, Option.isSome_some]
    refine Steps.bind ((hbase sources value).mono ?_ fun _ h => h) fun base => ?_
    · exact fun h => ⟨h.1.1, hsources ▸ h.2⟩
    refine Steps.bind ((steps_rebind (P := P) hJ _).mono ?_ fun _ h => h) fun _ => Steps.pure ?_
    · exact fun h => ⟨h.1.1.1, hunder (hsome h.1.2) h.1.1.1 h.1.1.2 h.2⟩
    · exact fun h => hunder (hsome h.1.1.2) h.1.1.1.1 h.1.1.1.2 h.1.2
  · exact Steps.pure fun h => h.1.2

theorem steps_isPending {reuse : Bool} (hreuse : ∀ {sources}, J sources → sources.isSome = reuse)
    (es : Entries) :
    Steps S K J P (s.isPending es) fun b => b = false → Settled s.includes reuse es := by
  unfold isPending
  refine steps_get.bind fun progress => Steps.pure fun ⟨_, hJ⟩ hb => ?_
  rw [hreuse hJ, Bool.or_eq_false_iff, Bool.and_eq_false_imp, Bool.and_eq_false_imp] at hb
  exact hb

/-- Carrying out all directives of a mapping keeps what each step keeps, and none is left. -/
theorem steps_substitute {G' : Tree → Prop} {reuse : Bool}
    (hreuse : ∀ {sources}, J sources → sources.isSome = reuse) (hJ : Rebindable J I)
    (hunder : ∀ {base es}, s.includes = true → P → I es → G base →
      I (Tree.underlay base (Entries.erase es (.str Directive.includeKey))))
    (hincluded : ∀ value, Steps S K J P (s.included value location flattening) G)
    (hunder' : ∀ {base es}, reuse = true → P → I es → G' base →
      I (Tree.underlay base (Entries.erase es (.str Directive.useKey))))
    (hreused : ∀ sources value, Steps S K J (P ∧ J (some sources))
      (s.reused resolve sources value location flattening) G') (passes : Nat) (es : Entries) :
    Steps S K J (P ∧ I es) (s.substitute resolve flattening location position passes es) fun es =>
      I es ∧ Settled s.includes reuse es := by
  induction passes generalizing es with
  | zero =>
    unfold substitute
    refine (steps_isPending hreuse es).bind fun pending => ?_
    cases pending with
    | false => exact Steps.pure fun h => ⟨h.1.2, h.2 rfl⟩
    | true => exact Steps.fail
  | succ passes ih =>
    unfold substitute
    refine (steps_isPending hreuse es).bind fun pending => ?_
    cases pending with
    | false => exact Steps.pure fun h => ⟨h.1.2, h.2 rfl⟩
    | true =>
      refine Steps.bind ((steps_includeStep hJ hunder hincluded es).mono (fun h => h.1)
        fun _ h => h) fun es => ?_
      refine Steps.bind ((steps_useStep hreuse hJ hunder' hreused es).mono (fun h => ⟨h.1.1.1, h.2⟩)
        fun _ h => h) fun es => ?_
      exact (ih es).mono (fun h => ⟨h.1.1.1.1, h.2⟩) fun _ h => h

end Substituting

/-! ## Runs of the steps -/

/-- There is something left if there is an `_include` and files are included, or a `_use` and there
are sources. -/
theorem isPending_run (es : Entries) (p : Progress) (w : World) :
    outcome ((s.isPending es).run p) w =
      (.ok (s.includes && Entries.has es (.str Directive.includeKey) ||
        p.sources.isSome && Entries.has es (.str Directive.useKey), p), w) := rfl

theorem orFail_ok {α : Type} {location : String} {x : Except Directive.Fault α} {a : α}
    {p p' : Progress} {w w' : World}
    (h : outcome ((s.orFail location x).run p) w = (.ok (a, p'), w')) :
    x = .ok a ∧ p' = p ∧ w' = w := by
  cases x with
  | error fault => cases h
  | ok b =>
    cases h
    exact ⟨rfl, rfl, rfl⟩

theorem mergeSections_ok {sources : List Tree} {location : String} {merged t : Tree}
    {names : List String} {p p' : Progress} {w w' : World}
    (h : outcome ((s.mergeSections sources location merged names).run p) w = (.ok (t, p'), w')) :
    p' = p ∧ w' = w ∧ ∃ sections,
      List.Forall₂ (fun name t => sectionNamed? sources name = some t) names sections ∧
      t = sections.foldl Tree.merge merged := by
  induction names generalizing merged with
  | nil =>
    cases h
    exact ⟨rfl, rfl, [], .nil, rfl⟩
  | cons name rest ih =>
    unfold mergeSections at h
    split at h
    · cases h
    next found hfound =>
      split at h
      · obtain ⟨hp, hw, sections, hsections, ht⟩ := ih h
        exact ⟨hp, hw, found :: sections, .cons hfound hsections, ht⟩
      · cases h

/-- Without an `_include` that is carried out the mapping is left alone. -/
theorem includeStep_run {f : Flattening} {location : String} {position : Position} {es : Entries}
    (h : (s.includes && Entries.has es (.str Directive.includeKey)) = false) (p : Progress)
    (w : World) : outcome ((s.includeStep f location position es).run p) w = (.ok (es, p), w) := by
  have hnone : (if s.includes then Entries.get? es (.str Directive.includeKey) else none) =
      none := by
    rw [Entries.has_eq_isSome] at h
    cases hincludes : s.includes with
    | false => rfl
    | true => simpa [hincludes] using h
  unfold includeStep
  dsimp only
  rw [hnone]
  rfl

section Using

variable {resolve : Tree → String → Resolving InWorld Tree} {f : Flattening} {location : String}
  {position : Position} {es : Entries}

/-- What carrying out a `_use` does depends on the sources that have been reached. -/
theorem useStep_run_eq (p : Progress) (w : World) :
    outcome ((s.useStep resolve f location position es).run p) w =
      outcome ((match p.sources, Entries.get? es (.str Directive.useKey) with
        | some sources, some value => do
          let base ← s.reused resolve sources value location f
          let es := Tree.underlay base (Entries.erase es (.str Directive.useKey))
          rebind position es
          return es
        | _, _ => return es : Resolving InWorld Entries).run p) w := rfl

/-- Without a `_use` that is carried out the mapping is left alone. -/
theorem useStep_run {p : Progress}
    (h : (p.sources.isSome && Entries.has es (.str Directive.useKey)) = false) (w : World) :
    outcome ((s.useStep resolve f location position es).run p) w = (.ok (es, p), w) := by
  rw [useStep_run_eq]
  rw [Entries.has_eq_isSome] at h
  split
  next sources value hsources hvalue =>
    rw [hsources, hvalue] at h
    cases h
  · rfl

/-- When an `_include` has been carried out, or there was none, the mapping that has come of it goes
through the rest of the pass. -/
theorem substitute_run_of_includeStep {es₁ : Entries} {p p₁ : Progress} {w w₁ : World}
    (hpending : (s.includes && Entries.has es (.str Directive.includeKey) ||
      p.sources.isSome && Entries.has es (.str Directive.useKey)) = true)
    (h : outcome ((s.includeStep f location position es).run p) w = (.ok (es₁, p₁), w₁))
    (passes : Nat) :
    outcome ((s.substitute resolve f location position (passes + 1) es).run p) w =
      outcome ((do
        let es ← s.useStep resolve f location position es₁
        s.substitute resolve f location position passes es).run p₁) w₁ := by
  rw [substitute, StateT.run_bind, outcome_bind, isPending_run, hpending]
  change outcome ((do
    let es ← s.includeStep f location position es
    let es ← s.useStep resolve f location position es
    s.substitute resolve f location position passes es).run p) w = _
  rw [StateT.run_bind, outcome_bind, h]

end Using

/-! ## Trees -/

theorem isDirected_eq_false {es : Entries} :
    isDirected es = false ↔ Entries.Without Directive.all es := by
  rw [Entries.without_iff_has, isDirected, List.any_eq_false]
  simp only [Directive.all, Bool.not_eq_true]
  grind

/-! ## Trees without directives -/

section Lacking

variable {onward : MappingResolver InWorld}

theorem resolveEntries_of_forall {es : Entries}
    (h : ∀ e ∈ es, ∀ location position, resolveTree onward location position e.2 = pure e.2)
    (location : String) (position : Position) :
    resolveEntries onward location position es = pure es := by
  induction es with
  | nil => rw [resolveEntries]
  | cons e rest ih =>
    obtain ⟨key, value⟩ := e
    rw [resolveEntries, h _ List.mem_cons_self, pure_bind,
      ih fun e he => h e (List.mem_cons_of_mem _ he), pure_bind]

theorem resolveItems_of_forall {items : List Tree}
    (h : ∀ t ∈ items, ∀ location position, resolveTree onward location position t = pure t)
    (location : String) (position : Position) (i : Nat) :
    resolveItems onward location position i items = pure items := by
  induction items generalizing i with
  | nil => rw [resolveItems]
  | cons t rest ih =>
    rw [resolveItems, h _ List.mem_cons_self, pure_bind,
      ih fun t ht => h t (List.mem_cons_of_mem _ ht), pure_bind]

/-- A tree without directives is resolved to itself. -/
theorem resolveTree_of_lacks {t : Tree} (ht : t.Lacks Directive.all) (location : String)
    (position : Position) : resolveTree onward location position t = pure t := by
  induction t using Tree.induction generalizing location position with
  | map es ih =>
    obtain ⟨hwithout, hvalues⟩ := Entries.lacks_map.1 ht
    rw [resolveTree, if_neg (by simp [isDirected_eq_false.2 hwithout]),
      resolveEntries_of_forall fun e he => (ih e he).2 (hvalues e he), pure_bind]
  | seq items ih =>
    have hitems := Tree.everywhere_seq.1 ht
    rw [resolveTree, resolveItems_of_forall fun t ht => ih t ht (hitems t ht), pure_bind]
  | _ => simp [resolveTree]

theorem resolveItems_of_lacks {items : List Tree} (h : (Tree.seq items).Lacks Directive.all)
    (location : String) (position : Position) (i : Nat) :
    resolveItems onward location position i items = pure items :=
  resolveItems_of_forall (fun t ht => resolveTree_of_lacks (Tree.everywhere_seq.1 h t ht)) location
    position i

end Lacking

/-! ## Any tree -/

section Trees

variable {onward : MappingResolver InWorld} {D : Tree → Prop} {R : Tree → Tree → Prop}

/-- Resolving entries keeps their keys, and relates their values as resolving trees does. -/
theorem steps_resolveEntries {es : Entries}
    (h : ∀ e ∈ es, ∀ location position, Steps S K J (D e.2)
      (resolveTree onward location position e.2) (R e.2))
    (location : String) (position : Position) :
    Steps S K J (∀ e ∈ es, D e.2) (resolveEntries onward location position es)
      (List.Forall₂ (fun e e' => e'.1 = e.1 ∧ R e.2 e'.2) es) := by
  induction es with
  | nil => exact Steps.pure fun _ => .nil
  | cons e rest ih =>
    obtain ⟨key, value⟩ := e
    unfold resolveEntries
    refine Steps.bind ((h _ List.mem_cons_self _ _).mono (fun h => h _ List.mem_cons_self)
      fun _ h => h) fun value' => ?_
    refine Steps.bind ((ih fun e he => h e (List.mem_cons_of_mem _ he)).mono
      (fun h e he => h.1 e (List.mem_cons_of_mem _ he)) fun _ h => h) fun rest' => ?_
    exact Steps.pure fun h => .cons ⟨rfl, h.1.2⟩ h.2

theorem steps_resolveItems {items : List Tree}
    (h : ∀ t ∈ items, ∀ location position, Steps S K J (D t)
      (resolveTree onward location position t) (R t))
    (location : String) (position : Position) (i : Nat) :
    Steps S K J (∀ t ∈ items, D t) (resolveItems onward location position i items)
      (List.Forall₂ R items) := by
  induction items generalizing i with
  | nil => exact Steps.pure fun _ => .nil
  | cons t rest ih =>
    unfold resolveItems
    refine Steps.bind ((h _ List.mem_cons_self _ _).mono (fun h => h _ List.mem_cons_self)
      fun _ h => h) fun t' => ?_
    refine Steps.bind ((ih (fun e he => h e (List.mem_cons_of_mem _ he)) (i + 1)).mono
      (fun h e he => h.1 e (List.mem_cons_of_mem _ he)) fun _ h => h) fun rest' => ?_
    exact Steps.pure fun h => .cons h.1.2 h.2

/-- A relation between trees and what they are resolved to in a run, built up along the tree, with
the trees it is about. -/
structure Follows (D : Tree → Prop) (Run R : Tree → Tree → Prop) : Prop where
  inItems : ∀ {items}, D (.seq items) → ∀ t ∈ items, D t
  inEntries : ∀ {es}, D (.map es) → ∀ e ∈ es, D e.2
  leaf : ∀ {t}, D t → (∀ items, t ≠ .seq items) → (∀ es, t ≠ .map es) → Run t t → R t t
  seq : ∀ {items items'}, D (.seq items) → Run (.seq items) (.seq items') →
    List.Forall₂ R items items' → R (.seq items) (.seq items')
  map : ∀ {es es'}, D (.map es) → isDirected es = false → Run (.map es) (.map es') →
    List.Forall₂ (fun e e' => e'.1 = e.1 ∧ R e.2 e'.2) es es' → R (.map es) (.map es')

/-- Resolving a tree follows the tree, if resolving its mappings with directives does. -/
theorem steps_resolveTree {Run : Tree → Tree → Prop} (hR : Follows D Run R)
    (hrun : ∀ {t location position t'}, Gives J (resolveTree onward location position t) t' →
      Run t t')
    (honward : ∀ es location position, isDirected es = true →
      Steps S K J (D (.map es)) (onward es location position) (R (.map es)))
    (t : Tree) (location : String) (position : Position) :
    Steps S K J (D t) (resolveTree onward location position t) (R t) := by
  induction t using Tree.induction generalizing location position with
  | map es ih =>
    refine Steps.of_gives (fun _ => hrun) ?_
    unfold resolveTree
    split
    next hdirected => exact (honward es location position hdirected).mono id fun _ h _ => h
    next hdirected =>
      refine Steps.bind ((steps_resolveEntries (fun e he => (ih e he).2) location position).mono
        hR.inEntries fun _ h => h) fun es' => ?_
      exact Steps.pure fun h hmap => hR.map h.1 (by simpa using hdirected) hmap h.2
  | seq items ih =>
    refine Steps.of_gives (fun _ => hrun) ?_
    unfold resolveTree
    refine Steps.bind ((steps_resolveItems ih location position 0).mono hR.inItems
      fun _ h => h) fun items' => ?_
    exact Steps.pure fun h hseq => hR.seq h.1 hseq h.2
  | _ =>
    refine Steps.of_gives (fun _ => hrun) ?_
    unfold resolveTree
    exact Steps.pure fun h hleaf => hR.leaf h (by simp) (by simp) hleaf

end Trees

/-- A request is fulfilled as its document is resolved. -/
theorem fulfils_resolveFor (hK : Unnoted K) {settings : Settings} {load : FilePath →
      List FilePath → String → ExceptT Error InWorld (Tree × Ledger)} {request : Request}
    {document : Tree} {Q : Tree → Prop}
    (hdocument : ∀ room, Steps S K J P ((settings.scope load request room).resolveDocument
      request.location request.position document) Q)
    (hsources : P → J (request.sourcesWith document)) :
    Fulfils S K P (settings.resolveFor load request document) fun r => Q r.1 := by
  unfold Settings.resolveFor
  refine (Fulfils.of_noting hK leaves_nestingRoom).bind fun room => ?_
  refine Fulfils.bind ((hdocument room ⟨_, Ledger.empty⟩).mono
    (fun h => ⟨h.1, hsources h.1⟩) fun _ h => h) fun r => Fulfils.pure fun h => h.2.1

end Scope

/-- What holds of the trees that are given to a load holds of those its request has. -/
theorem LoadOptions.forall_request_sources {o : LoadOptions} {Q : Tree → Prop}
    (h : ∀ list ∈ o.sources, ∀ t ∈ list, Q t) (path : FilePath) (keys : Option (List String)) :
    ∀ list ∈ (o.request path keys).sources, ∀ t ∈ list, Q t := by
  intro list hlist t ht
  cases hlist
  cases hopt : o.sources with
  | none => simp [hopt] at ht
  | some outside => exact h outside hopt t (by simpa [hopt] using ht)

end LayeredConfig
