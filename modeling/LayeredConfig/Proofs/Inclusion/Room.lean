import LayeredConfig.Proofs.Ending
import LayeredConfig.Proofs.Inclusion.Chains
import LayeredConfig.Proofs.DirectiveFree
import LayeredConfig.Proofs.Nesting
import LayeredConfig.Proofs.PathField.Loads

/-!
# Resolutions do not run out of room

A resolution that ends with an error may end so because the document is unbounded, that is because
directives are nested deeper than there is room for. If all separators are clear of the names of
directives it does not (`Settings.load_bounded`): no directive comes into being by flattening, so
directives are nested in each other only as deep as the documents are, in all files that include one
another.

What is carried through a resolution is how deep directives are in the tree at hand
(`Tree.Within`), and that its separators and those of the sources are clear.
-/

namespace LayeredConfig

open Directive Tree

/-- The error says that a document is unbounded. -/
def Error.IsUnbounded (e : Error) : Prop :=
  ∃ owner location, e = .unresolved owner location .unbounded

/-! ## Trees that are pulled in -/

namespace Tree

variable {pulled depth : Nat}

/-- Flattening with a clear separator makes no directive, and takes none further down. -/
theorem Within.flatten {sep : String} (hsep : IsClear sep) {t : Tree} (h : Within pulled depth t)
    (levels : Nat) : Within pulled depth (t.flatten sep levels) := by
  induction t using Tree.induction generalizing depth levels with
  | map es ih =>
    cases levels with
    | zero => rwa [flatten_zero]
    | succ levels =>
      cases depth with
      | zero => exact Lacks.flatten (fun _ hname => hname) h hsep _
      | succ depth =>
        rw [flatten_map_succ]
        let Fits (k v : Tree) : Prop :=
          (k = .str includeKey → pulled ≤ depth) ∧ Within pulled depth v
        have hput : ∀ {flat : Entries} {key value : Tree}, (∀ e ∈ flat, Fits e.1 e.2) →
            Fits key value → ∀ e ∈ Entries.put flat key value, Fits e.1 e.2 := by
          intro flat key value hflat hfits e he
          rcases Entries.mem_put he with hmem | ⟨hv, hk | ⟨hsame, old, hold⟩⟩
          · exact hflat e hmem
          · rw [hv, hk]
            exact hfits
          · rw [hv]
            exact ⟨(hflat (e.1, old) hold).1, hfits.2⟩
        -- A joined key is no directive, and its value comes from further down.
        have hjoin : ∀ (below : Entries) (lead : String) {flat : Entries},
            (∀ e ∈ flat, Fits e.1 e.2) → (∀ e ∈ below, Within pulled depth e.2) →
            ∀ e ∈ joinInto flat lead sep below, Fits e.1 e.2 := by
          intro below lead
          induction below with
          | nil => exact fun hflat _ => hflat
          | cons e rest ihRest =>
            intro flat hflat hbelow
            obtain ⟨hfirst, hrest⟩ := List.forall_mem_cons.1 hbelow
            refine ihRest (hput hflat ⟨fun hkey => ?_, hfirst⟩) hrest
            exact absurd (Tree.str.inj hkey) (hsep.joined_ne (by simp [all]) _ _)
        suffices hall : ∀ flat, (∀ e ∈ flat, Fits e.1 e.2) →
            ∀ e ∈ flattenInto sep levels flat es, Fits e.1 e.2 from hall [] (by simp)
        induction es with
        | nil => exact fun flat hflat => by rwa [flattenInto]
        | cons e rest ihRest =>
          intro flat hflat
          obtain ⟨key, value⟩ := e
          obtain ⟨hfirst, hrest⟩ := List.forall_mem_cons.1 h
          have hvalue := (ih _ List.mem_cons_self).2 hfirst.2 levels
          have hnext := ihRest (fun e he => ih e (List.mem_cons_of_mem _ he)) hrest
          rw [flattenInto]
          split
          next below hbelow =>
            rw [hbelow] at hvalue
            refine hnext _ (hjoin below _ hflat fun e he => ?_)
            exact (hvalue.value e he).mono (Nat.sub_le _ _)
          next => exact hnext _ (hput hflat ⟨hfirst.1, hvalue⟩)
  | _ => rwa [flatten_of_not_map (by simp)]

/-- What a tree is once its directives are carried out: if sections are not reused, a `_use` may be
left, at most `depth` levels down. -/
structure CarriedOut (reuse : Bool) (pulled depth : Nat) (t : Tree) : Prop where
  lacks : t.Lacks (carriedOut true reuse)
  within : t.Within pulled depth

namespace CarriedOut

variable {reuse : Bool} {t base : Tree}

theorem empty : CarriedOut reuse pulled depth .empty :=
  ⟨everywhere_empty, within_of_lacks everywhere_empty⟩

theorem merge (hbase : CarriedOut reuse pulled depth base) (h : CarriedOut reuse pulled depth t) :
    CarriedOut reuse pulled depth (base.merge t) :=
  ⟨hbase.lacks.merge h.lacks, hbase.within.merge h.within⟩

theorem flatten {sep : String} (hsep : IsClear sep) (h : CarriedOut reuse pulled depth t)
    (levels : Nat) : CarriedOut reuse pulled depth (t.flatten sep levels) :=
  ⟨h.lacks.flatten (fun _ => mem_all_of_carriedOut) hsep levels, h.within.flatten hsep levels⟩

/-- Entries of a mapping without directives, their values carried out. -/
theorem of_entries {es es' : Entries} (hwithout : Entries.Without (carriedOut true reuse) es)
    (hwithin : Within pulled depth (.map es)) (h : List.Forall₂ (fun e e' => e'.1 = e.1 ∧
      CarriedOut reuse pulled (depth - 1) e'.2) es es') :
    CarriedOut reuse pulled depth (.map es') where
  lacks := Scope.lacks_of_entries hwithout (h.imp fun _ _ he => ⟨he.1, he.2.lacks⟩)
  within := hwithin.of_values fun e' he' => by
    obtain ⟨e, he, hkey, hvalue⟩ := exists_of_mem_forall₂ h he'
    exact ⟨⟨e.2, hkey ▸ he⟩, hvalue.within⟩

end CarriedOut

end Tree

/-- A mapping in the course of a resolution, with `depth` levels below it. -/
structure Entries.Underway (pulled depth : Nat) (es : Entries) : Prop where
  clear : ClearEntries es
  within : Tree.Within pulled (depth + 1) (.map es)

namespace Entries.Underway

variable {pulled depth : Nat} {es : Entries} {base : Tree}

/-- What is placed beneath a mapping has no flattening, and its directives are not too deep. -/
theorem underlay {reuse : Bool} (h : es.Underway pulled depth)
    (hlacks : base.Lacks (carriedOut true reuse)) (hwithin : base.Within pulled (depth + 1))
    (key : Tree) : Underway pulled depth (Tree.underlay base (Entries.erase es key)) where
  clear := Scope.clearEntries_underlay h.clear hlacks key
  within := hwithin.underlay (h.within.erase key)

/-- Below a mapping with an `_include` there is room for what it pulls in. -/
theorem pulled_le (h : es.Underway pulled depth) {value : Tree}
    (hvalue : Entries.get? es (.str includeKey) = some value) : pulled ≤ depth := by
  obtain ⟨key, hmem, hsame⟩ := Entries.mem_of_get? hvalue
  exact (h.within _ hmem).1 (same_str.1 hsame)

end Entries.Underway

/-! ## Resolutions -/

/-- In worlds with the property the computation ends with a result in `Q`, in such a world, or with
an error, but not because a document is unbounded. -/
def EndsBounded {α : Type} (K : World → Prop) (x : ExceptT Error InWorld α) (Q : α → Prop) : Prop :=
  ∀ w, K w → (∀ a w', outcome x w = (.ok a, w') → Q a ∧ K w') ∧
    ∀ e w', outcome x w = (.error e, w') → ¬ e.IsUnbounded

theorem Error.not_isUnbounded {owner : FilePath} {location : String} {reason : Unresolved}
    (h : reason ≠ .unbounded) : ¬ (Error.unresolved owner location reason).IsUnbounded := by
  rintro ⟨owner', location', heq⟩
  cases heq
  exact h rfl

namespace EndsBounded

variable {α β : Type} {K : World → Prop} {Q Q' : α → Prop} {R : β → Prop}

theorem pure {a : α} (h : Q a) : EndsBounded K (pure a) Q := by
  refine fun w hw => ⟨fun a' w' hrun => ?_, fun _ _ heq => by cases heq⟩
  cases hrun
  exact ⟨h, hw⟩

theorem throw {e : Error} (h : ¬ e.IsUnbounded) : EndsBounded K (throw e) Q := by
  refine fun w _ => ⟨(fun _ _ heq => by cases heq), fun e' w' hrun => ?_⟩
  cases hrun
  exact h

theorem bind {x : ExceptT Error InWorld α} {g : α → ExceptT Error InWorld β}
    (hx : EndsBounded K x Q) (hg : ∀ a, Q a → EndsBounded K (g a) R) :
    EndsBounded K (x >>= g) R := by
  intro w hw
  obtain ⟨hok, herror⟩ := hx w hw
  rw [outcome_bind]
  rcases hrun : outcome x w with ⟨e | a, w₁⟩
  · refine ⟨(fun _ _ heq => by cases heq), fun e' w' heq => ?_⟩
    cases heq
    exact herror e w₁ hrun
  · obtain ⟨ha, hw₁⟩ := hok a w₁ hrun
    exact hg a ha w₁ hw₁

theorem mono {x : ExceptT Error InWorld α} (h : EndsBounded K x Q) (hQ : ∀ a, Q a → Q' a) :
    EndsBounded K x Q' := fun w hw =>
  ⟨fun a w' hrun => ⟨hQ a ((h w hw).1 a w' hrun).1, ((h w hw).1 a w' hrun).2⟩, (h w hw).2⟩

/-- A computation that only takes notes. -/
theorem note (hK : Unnoted K) {x : ExceptT Error InWorld α}
    (h : ∀ {R}, Noting R → Leaves R x) : EndsBounded K x fun _ => True := by
  intro w hw
  obtain ⟨a, w₁, hrun, -, hkept⟩ := h hK.noting w
  rw [hrun]
  refine ⟨fun a' w' heq => ?_, fun _ _ heq => by cases heq⟩
  cases heq
  exact ⟨trivial, hkept hw⟩

end EndsBounded

namespace Scope

variable {K : World → Prop} {reuse : Bool} {pulled depth room : Nat} {s : Scope InWorld}
  {f : Flattening} {location : String} {position : Position}

/-- The step, with sections looked up in trees whose separators are clear, ends with a result in `Q`
or with an error, but not because a document is unbounded. -/
abbrev Bounded {α : Type} (K : World → Prop) (reuse : Bool) (x : Resolving InWorld α)
    (Q : α → Prop) : Prop :=
  Ends K (ClearSources reuse) (fun e => ¬ e.IsUnbounded) x Q

theorem bounded_lift {α : Type} {x : ExceptT Error InWorld α} {Q : α → Prop}
    (h : EndsBounded K x Q) : Bounded K reuse (liftM x : Resolving InWorld α) Q := by
  intro p w hJ hK
  obtain ⟨hok, herror⟩ := h w hK
  have hlift : outcome ((liftM x : Resolving InWorld α).run p) w =
      outcome (x >>= fun a => pure (a, p)) w := rfl
  rw [hlift, outcome_bind]
  rcases hrun : outcome x w with ⟨e | a, w₁⟩
  · refine ⟨(fun _ _ _ heq => by cases heq), fun e' w' heq => ?_⟩
    cases heq
    exact herror e w₁ hrun
  · refine ⟨fun a' p' w' heq => ?_, fun _ _ heq => by cases heq⟩
    cases heq
    obtain ⟨hQ, hK'⟩ := hok a w₁ hrun
    exact ⟨hQ, hJ, hK'⟩

theorem bounded_orFail {α : Type} {x : Except Directive.Fault α} :
    Bounded K reuse (s.orFail location x) fun a => x = .ok a :=
  Ends.orFail fun _ _ => Error.not_isUnbounded (by simp)

theorem bounded_fail {α : Type} {reason : Unresolved} {Q : α → Prop} (h : reason ≠ .unbounded) :
    Bounded K reuse (s.fail location reason) Q :=
  Ends.fail (Error.not_isUnbounded h)

theorem bounded_find (hK : Unnoted K) (raw : String) (entry : IncludeEntry) :
    Bounded K reuse (s.find raw entry location) fun _ => True := by
  refine Ends.of_steps (P := True) (steps_find hK raw entry location) trivial
    fun p w e w' hrun => ?_
  obtain rfl | ⟨searched, rfl⟩ := find_error hrun
  · exact Error.not_isUnbounded (by simp)
  · exact Error.not_isUnbounded (by simp)

theorem bounded_rebind {es : Entries} (hes : ClearEntries es) :
    Bounded K reuse (rebind position es) fun _ => True := by
  refine Ends.of_steps (P := True ∧ ClearEntries es) (steps_rebind clearSources_rebindable es)
    ⟨trivial, hes⟩ fun p w e w' hrun => ?_
  cases position <;> cases hrun

section Including

variable (hK : Unnoted K) (hincludes : s.includes = true)
  (hload : ∀ file location, EndsBounded K (s.load file s.chain location)
    fun r => r.1.CarriedOut false pulled pulled)
include hK hload

theorem bounded_includeAll (hsep : IsClear f.separator) (raws : List String) {merged : Tree}
    (h : merged.CarriedOut false pulled pulled) :
    Bounded K reuse (s.includeAll f location merged raws)
      fun t => t.CarriedOut false pulled pulled := by
  induction raws generalizing merged with
  | nil => exact Ends.pure h
  | cons raw rest ih =>
    unfold includeAll
    refine bounded_orFail.bind fun entry _ => (bounded_find hK raw entry).bind fun found _ => ?_
    cases found with
    | none => exact ih h
    | some file =>
      refine Ends.bind (Q := fun t => t.CarriedOut false pulled pulled) ?_ fun merged hm => ih hm
      unfold includeFile
      split
      · exact (bounded_fail (Q := fun _ => False) (by simp)).bind fun _ hno => hno.elim
      · refine (bounded_lift (hload file location)).bind fun r hr => ?_
        refine (Ends.progress (Q := fun _ => True) (fun _ _ => rfl) fun _ hJ =>
          ⟨trivial, hJ⟩).bind fun _ _ => ?_
        split
        · exact (bounded_fail (Q := fun _ => False) (by simp)).bind fun _ hno => hno.elim
        · exact Ends.pure (h.merge (hr.flatten hsep f.depth))

include hincludes in
theorem bounded_includeStep (hsep : IsClear f.separator) {es : Entries}
    (h : es.Underway pulled depth) :
    Bounded K reuse (s.includeStep f location position es) (Entries.Underway pulled depth) := by
  unfold includeStep
  dsimp only
  rw [if_pos hincludes]
  cases hvalue : Entries.get? es (.str includeKey) with
  | none => exact Ends.pure h
  | some value =>
    have hincluded : Bounded K reuse (s.included value location f)
        fun t => t.CarriedOut false pulled pulled :=
      bounded_orFail.bind fun raws _ => bounded_includeAll hK hload hsep raws .empty
    refine hincluded.bind fun base hbase => ?_
    have hunder := h.underlay hbase.lacks
      (hbase.within.mono (Nat.le_succ_of_le (h.pulled_le hvalue))) (.str includeKey)
    exact (bounded_rebind hunder.clear).bind fun _ _ => Ends.pure hunder

end Including

section Reusing

variable {resolve : Tree → String → Resolving InWorld Tree}
  (hresolve : ∀ base location, base.SeparatorsClear →
    Bounded K reuse (resolve base location) fun t => t.Lacks (carriedOut true reuse))
include hresolve

theorem bounded_useStep (hsep : IsClear f.separator) {es : Entries} (h : es.Underway pulled depth) :
    Bounded K reuse (s.useStep resolve f location position es) (Entries.Underway pulled depth) := by
  refine ends_useStep (I := Entries.Underway pulled depth)
    (G := fun t => reuse = true ∧ t.Lacks (carriedOut true reuse))
    (fun {sources es value} hsources _ _ => ?_) (fun {base es} h _ hbase => ?_)
    (fun {es} h => bounded_rebind h.clear) h
  · unfold reused
    refine bounded_orFail.bind fun names _ => ?_
    refine (ends_mergeSections (H := SeparatorsClear) SeparatorsClear.merge
      (fun _ _ _ => Error.not_isUnbounded (by simp))
      (fun _ _ _ _ _ => Error.not_isUnbounded (by simp)) (fun name _ found hfound => ?_)
      everywhere_empty).bind fun base hbase => ?_
    · obtain ⟨t, ht, hlookup⟩ := List.exists_of_findSome?_eq_some hfound
      exact Everywhere.lookup (hsources.2 sources rfl t ht) hlookup
    · refine (hresolve base location hbase).bind fun t ht => Ends.pure ⟨hsources.1.symm, ?_⟩
      exact ht.flatten (fun _ => mem_all_of_carriedOut) hsep f.depth
  · obtain ⟨rfl, hlacks⟩ := hbase
    exact h.underlay hlacks (within_of_lacks hlacks) (.str useKey)

end Reusing

/-- A tree is resolved within bounds if its mappings with directives are. -/
theorem bounded_resolveTree {onward : MappingResolver InWorld}
    (honward : ∀ depth' ≤ depth, ∀ es location position, (Tree.map es).SeparatorsClear →
      Tree.Within pulled depth' (.map es) → isDirected es = true →
      Bounded K reuse (onward es location position) (CarriedOut reuse pulled depth'))
    (t : Tree) {depth' : Nat} (hle : depth' ≤ depth) (hclear : t.SeparatorsClear)
    (hwithin : t.Within pulled depth') (location : String) (position : Position) :
    Bounded K reuse (resolveTree onward location position t) (CarriedOut reuse pulled depth') := by
  have hle' : depth' - 1 ≤ depth := Nat.le_trans (Nat.sub_le _ _) hle
  induction t using Tree.induction generalizing depth' location position with
  | map es ih =>
    unfold resolveTree
    split
    next hdirected => exact honward depth' hle es location position hclear hwithin hdirected
    next hdirected =>
      rw [Bool.not_eq_true] at hdirected
      have hwithout : Entries.Without (carriedOut true reuse) es := fun e he name hname =>
        isDirected_eq_false.1 hdirected e he name (mem_all_of_carriedOut hname)
      have hvalues : ∀ e ∈ es, ∀ location position, True → Bounded K reuse
          (resolveTree onward location position e.2) (CarriedOut reuse pulled (depth' - 1)) :=
        fun e he location position _ => (ih e he).2 hle' (everywhere_map.1 hclear e he).2
          (hwithin.value e he) location position (by omega)
      refine (ends_resolveEntries_related (R := fun _ t => t.CarriedOut reuse pulled (depth' - 1))
        (fun _ _ h => h) hvalues location trivial).bind fun es' hes' => Ends.pure ?_
      exact CarriedOut.of_entries hwithout hwithin hes'
  | seq items ih =>
    unfold resolveTree
    have hitems : ∀ t ∈ items, ∀ location position, True → Bounded K reuse
        (resolveTree onward location position t) (CarriedOut reuse pulled (depth' - 1)) :=
      fun t ht location position _ => ih t ht hle' (everywhere_seq.1 hclear t ht)
        (hwithin.item t ht) location position (by omega)
    refine (ends_resolveItems_related (R := fun _ t => t.CarriedOut reuse pulled (depth' - 1))
      (fun _ _ h => h) hitems location trivial 0).bind fun items' h => Ends.pure ⟨?_, ?_⟩
    · refine everywhere_seq.2 fun t' ht' => ?_
      obtain ⟨t, -, ht⟩ := exists_of_mem_forall₂ h ht'
      exact ht.lacks
    · refine Within.of_items fun t' ht' => ?_
      obtain ⟨t, -, ht⟩ := exists_of_mem_forall₂ h ht'
      exact ht.within
  | _ =>
    unfold resolveTree
    exact Ends.pure ⟨trivial, hwithin⟩

section Documents

variable (hK : Unnoted K) (hincludes : s.includes = true)
  (hload : ∀ file location, EndsBounded K (s.load file s.chain location)
    fun r => r.1.CarriedOut false pulled pulled)
include hK hincludes hload

/-- A mapping with directives is resolved within bounds if there is room for all that are in it. -/
theorem bounded_resolveMapping {resolve : Tree → String → Resolving InWorld Tree}
    (hresolve : ∀ base location, base.SeparatorsClear →
      Bounded K reuse (resolve base location) fun t => t.Lacks (carriedOut true reuse))
    (hroom : depth ≤ room) {es : Entries} (hclear : (Tree.map es).SeparatorsClear)
    (hwithin : Tree.Within pulled depth (.map es)) (hdirected : isDirected es = true)
    (location : String) (position : Position) :
    Bounded K reuse (s.resolveMapping resolve room es location position)
      (CarriedOut reuse pulled depth) := by
  induction room generalizing depth es location position with
  | zero =>
    obtain ⟨depth, rfl⟩ := exists_succ_of_isDirected hwithin hdirected
    omega
  | succ room ih =>
    obtain ⟨depth, rfl⟩ := exists_succ_of_isDirected hwithin hdirected
    unfold resolveMapping
    dsimp only
    refine bounded_orFail.bind fun flattening hok => ?_
    have hsep : IsClear flattening.separator := Flattening.isClear hclear hok
    have hstart : Entries.Underway pulled depth (Flattening.take es).1 := by
      refine ⟨⟨Flattening.take_separatorsClear hclear hok, Flattening.take_without hok⟩, ?_⟩
      rw [Flattening.take_fst hok]
      exact (hwithin.erase _).erase _
    refine (ends_substitute_settled (I := Entries.Underway pulled depth)
      (Error.not_isUnbounded (by simp)) (fun h => bounded_includeStep hK hincludes hload hsep h)
      (fun h => bounded_useStep hresolve hsep h) substitutionLimit hstart).bind fun es' hdone => ?_
    obtain ⟨hes', sources, hsources, hsettled⟩ := hdone
    rw [hincludes, hsources.1] at hsettled
    have hvalues : ∀ e ∈ es', ∀ location position, True → Bounded K reuse
        (resolveTree (s.resolveMapping resolve room) location position e.2)
        (CarriedOut reuse pulled depth) := by
      intro e he location position _
      refine bounded_resolveTree (fun depth' hle es location position hclear hwithin hdirected =>
        ?_) e.2 (Nat.le_refl depth) (everywhere_map.1 hes'.clear.1 e he).2 (hes'.within.value e he)
        location position
      exact ih (by omega) hclear hwithin hdirected location position
    refine (ends_resolveEntries_related (R := fun _ t => t.CarriedOut reuse pulled depth)
      (fun _ _ h => h) hvalues location trivial).bind fun es'' h => Ends.pure ?_
    exact CarriedOut.of_entries (without_of_settled hes'.clear.2 hsettled) hes'.within h

/-- Reused sections have room for their own nodes, and for the files they include. -/
theorem bounded_resolveReused (hpulled : pulled ≤ s.room) (levels : Nat) {base : Tree}
    (hclear : base.SeparatorsClear) (location : String) :
    Bounded K reuse (s.resolveReused levels base location)
      fun t => t.Lacks (carriedOut true reuse) := by
  induction levels generalizing base location with
  | zero => exact bounded_fail (by simp)
  | succ levels ih =>
    have hwithin : base.Within pulled (pulled + base.nodeCount) := within_nodeCount base
    refine (bounded_resolveTree (fun depth' hle es location position hclear hwithin hdirected => ?_)
      base (Nat.le_refl _) hclear hwithin location none).mono fun t ht => ht.lacks
    exact bounded_resolveMapping hK hincludes hload (fun base location hbase => ih hbase location)
      (by omega) hclear hwithin hdirected location position

/-- A document is resolved within bounds if there is room for the directives in it. -/
theorem bounded_resolveDocument (hpulled : pulled ≤ s.room) (hroom : depth ≤ s.room)
    {document : Tree} (hclear : document.SeparatorsClear) (hwithin : document.Within pulled depth)
    (location : String) (position : Position) :
    Bounded K reuse (s.resolveDocument location position document)
      (CarriedOut reuse pulled depth) := by
  refine bounded_resolveTree (fun depth' hle es location position hclear hwithin hdirected => ?_)
    document (Nat.le_refl _) hclear hwithin location position
  exact bounded_resolveMapping hK hincludes hload (fun base location hbase =>
    bounded_resolveReused hK hincludes hload hpulled substitutionLimit hbase location) (by omega)
    hclear hwithin hdirected location position

end Documents

end Scope

/-! ## Loads -/

/-- All separators that documents ask for are clear. -/
def World.SeparatorsClear (w : World) : Prop :=
  ∀ e ∈ w.nodes, ∀ t ∈ e.2.document, t.SeparatorsClear

instance (w : World) : Decidable w.SeparatorsClear :=
  inferInstanceAs (Decidable (∀ e ∈ w.nodes, ∀ t ∈ e.2.document, t.SeparatorsClear))

namespace Settings

variable {s : Settings} {w₀ : World} {pulled depth : Nat}

theorem bounded_document (hclear : w₀.SeparatorsClear) (path : FilePath) :
    EndsBounded (SameFiles w₀) (Host.document path) fun document => ∀ t ∈ document,
      t.SeparatorsClear ∧ ∀ pulled, t.Within pulled (pulled + Yaml.depthLimit) := by
  refine fun w hw => ⟨fun document w' hrun => ?_, fun _ _ heq => by cases heq⟩
  cases hrun
  refine ⟨fun t ht => ?_, (SameFiles.unnoted w₀).parsed hw _⟩
  have hsame : (w.document path).1 = (w₀.document path).1 := hw.document_eq path
  replace ht : t ∈ (w₀.document path).1 := hsame ▸ ht
  obtain ⟨text, hread⟩ := read_of_document (Option.mem_def.1 ht)
  obtain ⟨e, he, hdocument⟩ := World.mem_nodes_of_document (Option.mem_def.1 ht)
  exact ⟨hclear e he t hdocument, fun pulled => Document.read_within hread⟩

theorem within_withPath {field : Option String} (hfield : ∀ f ∈ field, f ∉ all) {path : FilePath}
    {t : Tree} (h : t.Within pulled depth) : (withPath field path t).Within pulled depth := by
  cases depth with
  | zero => exact lacks_withPath hfield h
  | succ depth =>
    unfold withPath
    split
    next es =>
      split
      next f =>
        intro e he
        rcases Entries.mem_put he with hmem | ⟨hv, hk | ⟨hsame, old, hold⟩⟩
        · exact h e hmem
        · refine ⟨fun hkey => ?_, hv ▸ within_of_lacks trivial⟩
          rw [hk] at hkey
          exact absurd (by simp [Tree.str.inj hkey, all]) (hfield f rfl)
        · exact ⟨(h (e.1, old) hold).1, hv ▸ within_of_lacks trivial⟩
      · exact h
    · exact h

/-- A document is resolved within bounds for a request, if all it includes is. -/
theorem bounded_resolveFor {load : FilePath → List FilePath → String →
      ExceptT Error InWorld (Tree × Ledger)} {request : Request}
    (hincludes : request.includes = true)
    (hload : ∀ file location, EndsBounded (SameFiles w₀) (load file request.chain location)
      fun r => r.1.CarriedOut false pulled pulled)
    (hpulled : pulled ≤ Yaml.depthLimit * (w₀.nodes.length + 1))
    (hdepth : depth ≤ Yaml.depthLimit * (w₀.nodes.length + 1))
    (hsources : ∀ list ∈ request.sources, ∀ t ∈ list, t.SeparatorsClear) {document : Tree}
    (hclear : document.SeparatorsClear) (hwithin : document.Within pulled depth) :
    EndsBounded (SameFiles w₀) (s.resolveFor load request document)
      fun r => r.1.CarriedOut request.sources.isSome pulled depth := by
  have hstart : ClearSources request.sources.isSome (request.sourcesWith document) := by
    refine ⟨by simp [Request.sourcesWith], fun list hlist t ht => ?_⟩
    obtain ⟨outside, houtside, rfl⟩ := Option.map_eq_some_iff.1 hlist
    split at ht
    · rcases List.mem_cons.1 ht with rfl | ht
      · exact hclear
      · exact hsources outside houtside t ht
    · exact hsources outside houtside t ht
  have hroom : EndsBounded (SameFiles w₀) (nestingRoom : ExceptT Error InWorld Nat)
      (· = Yaml.depthLimit * (w₀.nodes.length + 1)) := by
    refine fun w hw => ⟨fun room w' hrun => ?_, fun _ _ heq => by cases heq⟩
    cases hrun
    exact ⟨by rw [hw.nodes], hw⟩
  unfold resolveFor
  refine hroom.bind fun room heq => ?_
  subst heq
  refine EndsBounded.bind (Q := fun r => r.1.CarriedOut request.sources.isSome pulled depth)
    (fun w hw => ?_) fun r hr => .pure hr
  obtain ⟨hok, herror⟩ := Scope.bounded_resolveDocument
    (s := s.scope load request (Yaml.depthLimit * (w₀.nodes.length + 1))) (SameFiles.unnoted w₀)
    hincludes hload hpulled hdepth hclear hwithin request.location request.position
    ⟨request.sourcesWith document, Ledger.empty⟩ w hstart hw
  exact ⟨fun r w' hrun => ⟨(hok r.1 r.2 w' hrun).1, (hok r.1 r.2 w' hrun).2.2⟩, herror⟩

/-- A loader that refuses requests with longer chains than there can be loads within bounds. -/
theorem bounded_loadFileIf (hs : s.cache = none) (hw₀ : w₀.SeparatorsClear)
    {test : Request → Prop} [DecidablePred test]
    (htest : ∀ request, test request → request.chain.length ≤ w₀.fileCount + 1) {refusal : Error}
    (hrefusal : ¬ refusal.IsUnbounded) (budget : Nat) (hbudget : budget ≤ w₀.nodes.length + 1)
    {request : Request} (hincludes : request.includes = true)
    (hfield : ∀ f ∈ request.pathField, f ∉ all)
    (hsources : ∀ list ∈ request.sources, ∀ t ∈ list, t.SeparatorsClear)
    (hchain : w₀.fileCount + 2 ≤ budget + request.chain.length) :
    EndsBounded (SameFiles w₀) (s.loadFileIf test refusal budget request) fun r =>
      r.1.CarriedOut request.sources.isSome (Yaml.depthLimit * budget)
        (Yaml.depthLimit * budget) := by
  induction budget generalizing request with
  | zero =>
    unfold loadFileIf
    split
    next hpassed =>
      have := htest request hpassed
      omega
    next => exact .throw hrefusal
  | succ budget ih =>
    unfold loadFileIf
    split
    next hpassed =>
      unfold loadFileBy
      rw [storeFor?_eq_none (.inl hs)]
      refine EndsBounded.bind (Q := (· = none)) (.pure rfl) fun hit hnone => ?_
      subst hnone
      refine (bounded_document hw₀ request.path).bind fun document hdocument => ?_
      cases document with
      | none => exact .throw (by rintro ⟨_, _, ⟨⟩⟩)
      | some document =>
        obtain ⟨hclear, hwithin⟩ := hdocument document rfl
        refine (EndsBounded.note (SameFiles.unnoted w₀) (leaves_add · _ _)).bind fun ledger _ => ?_
        have hload : ∀ file location, EndsBounded (SameFiles w₀)
            (s.loadFileIf test refusal budget
              (s.includedRequest request.pathField file request.chain location))
            fun r => r.1.CarriedOut false (Yaml.depthLimit * budget)
              (Yaml.depthLimit * budget) := by
          refine fun file location => ih (by omega) rfl hfield (by simp [includedRequest]) ?_
          rw [includedRequest, List.length_append, List.length_singleton]
          omega
        have hpulled : Yaml.depthLimit * budget ≤ Yaml.depthLimit * (w₀.nodes.length + 1) :=
          Nat.mul_le_mul_left _ (by omega)
        have hdepth : Yaml.depthLimit * (budget + 1) ≤ Yaml.depthLimit * (w₀.nodes.length + 1) :=
          Nat.mul_le_mul_left _ (by omega)
        refine (bounded_resolveFor hincludes hload hpulled hdepth hsources hclear
          (hwithin _)).bind fun r hr => .pure ?_
        -- Nothing is left to be pulled in, so the bound may be that of the next file.
        have hlacks : r.1.Lacks [includeKey] := hr.lacks.mono (by simp [carriedOut])
        have hnames : ∀ f ∈ request.pathField, f ∉ carriedOut true request.sources.isSome :=
          fun f hf hname => hfield f hf (mem_all_of_carriedOut hname)
        exact ⟨lacks_withPath hnames hr.lacks,
          within_withPath hfield (hr.within.of_lacks_include hlacks _)⟩
    next => exact .throw hrefusal

/-- If separators are clear, no load ends because a document is unbounded. -/
theorem load_bounded (hs : s.cache = none) {o : LoadOptions} (hincludes : o.includes = true)
    (hfield : ∀ f ∈ o.pathField, f ∉ all)
    (hsources : ∀ list ∈ o.sources, ∀ t ∈ list, t.SeparatorsClear) {w w' : World}
    (hw : w.SeparatorsClear) {path : FilePath} {e : Error}
    (hrun : outcome (s.load path o) w = (.error e, w')) : ¬ e.IsUnbounded := by
  have hrefusal : ¬ (Error.unreadable path).IsUnbounded := by rintro ⟨_, _, ⟨⟩⟩
  let request := o.request (FilePath.normalize w.directory path) (s.loadKeys? o)
  have hgiven : ∀ list ∈ request.sources, ∀ t ∈ list, t.SeparatorsClear :=
    LoadOptions.forall_request_sources hsources _ _
  have hchain : w.fileCount + 2 ≤ w.nodes.length + 1 + request.chain.length := by
    have := w.fileCount_le
    simp only [request, LoadOptions.request, List.length_singleton]
    omega
  have hbounded : EndsBounded (SameFiles w)
      (s.loadFileIf (fun request => request.chain.length ≤ w.fileCount + 1) (.unreadable path)
        (w.nodes.length + 1) request) _ :=
    bounded_loadFileIf hs hw (fun _ h => h) hrefusal _ (Nat.le_refl _) hincludes hfield hgiven
      hchain
  rw [← loadIf_eq hs (fun request h => h.length_le) (.unreadable path), loadIf_run] at hrun
  exact (hbounded w (.refl w)).2 e w' hrun

end Settings

end LayeredConfig
