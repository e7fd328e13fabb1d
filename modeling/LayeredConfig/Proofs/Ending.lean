import LayeredConfig.Proofs.Resolution

/-!
# How steps of a resolution end

`Ends K J E x Q` is a contract that speaks of failures too: the step `x` ends with a result in `Q`,
or with an error in `E`. As in other contracts, `K` is a property of worlds and `J` one of the
sources, and both are kept if there is a result.
-/

namespace LayeredConfig

variable {α β : Type}

/-- The step ends with a result in `Q`, the sources still in `J` and `K` still holding, or with an
error in `E`. -/
def Ends (K : World → Prop) (J : Option (List Tree) → Prop) (E : Error → Prop)
    (x : Resolving InWorld α) (Q : α → Prop) : Prop :=
  ∀ p w, J p.sources → K w →
    (∀ a p' w', outcome (x.run p) w = (.ok (a, p'), w') → Q a ∧ J p'.sources ∧ K w') ∧
    ∀ e w', outcome (x.run p) w = (.error e, w') → E e

namespace Ends

variable {K : World → Prop} {J : Option (List Tree) → Prop} {E : Error → Prop} {Q Q' : α → Prop}

theorem pure {a : α} (h : Q a) : Ends K J E (pure a) Q := by
  intro p w hJ hK
  refine ⟨fun b p' w' hrun => ?_, fun e w' hrun => ?_⟩
  · cases hrun
    exact ⟨h, hJ, hK⟩
  · cases hrun

theorem bind {R : β → Prop} {x : Resolving InWorld α} {f : α → Resolving InWorld β}
    (hx : Ends K J E x Q) (hf : ∀ a, Q a → Ends K J E (f a) R) : Ends K J E (x >>= f) R := by
  intro p w hJ hK
  obtain ⟨hok, herror⟩ := hx p w hJ hK
  rw [StateT.run_bind, outcome_bind]
  rcases hrun : outcome (x.run p) w with ⟨e | ⟨a, p'⟩, w'⟩
  · refine ⟨nofun, fun e' w₁ heq => ?_⟩
    cases heq
    exact herror e w' hrun
  · obtain ⟨ha, hJ', hK'⟩ := hok a p' w' hrun
    exact hf a ha p' w' hJ' hK'

theorem mono {x : Resolving InWorld α} (h : Ends K J E x Q) (hQ : ∀ a, Q a → Q' a) :
    Ends K J E x Q' := fun p w hJ hK =>
  let ⟨hok, herror⟩ := h p w hJ hK
  ⟨fun a p' w' hrun => let ⟨ha, hrest⟩ := hok a p' w' hrun; ⟨hQ a ha, hrest⟩, herror⟩

theorem fail {s : Scope InWorld} {location : String} {reason : Unresolved}
    (h : E (.unresolved s.owner location reason)) :
    Ends K J E (s.fail location reason : Resolving InWorld α) Q := by
  intro p w _ _
  refine ⟨fun a p' w' hrun => ?_, fun e w' hrun => ?_⟩
  · cases hrun
  · cases hrun
    exact h

theorem orFail {s : Scope InWorld} {location : String} {x : Except Directive.Fault α}
    (h : ∀ fault, x = .error fault → E (.unresolved s.owner location (.directive fault))) :
    Ends K J E (s.orFail location x) fun a => x = .ok a := by
  cases x with
  | ok a => exact pure rfl
  | error fault => exact fail (h fault rfl)

/-- A step that changes nothing but the progress. -/
theorem progress {x : Resolving InWorld α} {f : Progress → α × Progress}
    (h : ∀ p w, outcome (x.run p) w = (.ok (f p), w))
    (hQ : ∀ p : Progress, J p.sources → Q (f p).1 ∧ J (f p).2.sources) : Ends K J E x Q := by
  intro p w hJ hK
  rw [h]
  obtain ⟨ha, hJ'⟩ := hQ p hJ
  refine ⟨fun a p' w' hrun => ?_, fun e w' hrun => ?_⟩
  · obtain ⟨hok, rfl⟩ := Prod.mk.inj hrun
    obtain ⟨rfl, rfl⟩ := Prod.mk.inj (Except.ok.inj hok)
    exact ⟨ha, hJ', hK⟩
  · cases (Prod.mk.inj hrun).1

/-- A contract that speaks of results, with the errors there are. -/
theorem of_steps {P : Prop} {x : Resolving InWorld α} (h : Steps (fun _ => True) K J P x Q) (hP : P)
    (herror : ∀ p w e w', outcome (x.run p) w = (.error e, w') → E e) : Ends K J E x Q := by
  intro p w hJ hK
  refine ⟨fun a p' w' hrun => ?_, fun e w' hrun => herror p w e w' hrun⟩
  obtain ⟨read, -, hpost⟩ := h p hrun
  obtain ⟨⟨hQ, hJ'⟩, hK'⟩ := hpost ⟨hP, hJ⟩ (fun _ _ => trivial) hK
  exact ⟨hQ, hJ', hK'⟩

end Ends

namespace Scope

variable {K : World → Prop} {J : Option (List Tree) → Prop} {E : Error → Prop}
  {s : Scope InWorld} {location : String} {position : Position}

theorem ends_get : Ends K J E get fun p : Progress => J p.sources :=
  Ends.progress (fun _ _ => rfl) fun _ hJ => ⟨hJ, hJ⟩

/-! ## Reusing sections -/

theorem ends_mergeSections {H : Tree → Prop} {sources : List Tree} {names : List String}
    (hmerge : ∀ {base overlay : Tree}, H base → H overlay → H (base.merge overlay))
    (hmissing : ∀ name ∈ names, sectionNamed? sources name = none →
      E (.unresolved s.owner location (.unknownSection name)))
    (hother : ∀ name ∈ names, ∀ found, sectionNamed? sources name = some found →
      found.isMapping = false → E (.unresolved s.owner location (.sectionNotMapping name)))
    (hfound : ∀ name ∈ names, ∀ found, sectionNamed? sources name = some found → H found)
    {merged : Tree} (hmerged : H merged) :
    Ends K J E (s.mergeSections sources location merged names) H := by
  induction names generalizing merged with
  | nil => exact Ends.pure hmerged
  | cons name rest ih =>
    have hrest : ∀ {P : String → Prop}, (∀ n ∈ name :: rest, P n) → ∀ n ∈ rest, P n :=
      fun h n hn => h n (List.mem_cons_of_mem _ hn)
    unfold mergeSections
    split
    next hnone => exact Ends.fail (hmissing name List.mem_cons_self hnone)
    next found hsome =>
      split
      · exact ih (hrest hmissing) (hrest hother) (hrest hfound)
          (hmerge hmerged (hfound name List.mem_cons_self found hsome))
      next hnot =>
        exact Ends.fail (hother name List.mem_cons_self found hsome (by simpa using hnot))

/-! ## The directives of a mapping -/

section Substituting

variable {I : Entries → Prop} {f : Flattening}
  {resolve : Tree → String → Resolving InWorld Tree}

theorem ends_isPending (es : Entries) :
    Ends K J E (s.isPending es) fun b => ∃ sources, J sources ∧
      b = ((s.includes && Entries.has es (.str Directive.includeKey)) ||
        (sources.isSome && Entries.has es (.str Directive.useKey))) := by
  unfold isPending
  exact ends_get.bind fun progress hprogress => Ends.pure ⟨progress.sources, hprogress, rfl⟩

/-- Carrying out a `_use` keeps what placing its base beneath the mapping keeps. -/
theorem ends_useStep {G : Tree → Prop}
    (hreused : ∀ {sources es value}, J (some sources) → I es →
      Entries.get? es (.str Directive.useKey) = some value →
      Ends K J E (s.reused resolve sources value location f) G)
    (hunder : ∀ {base es}, I es → Entries.has es (.str Directive.useKey) = true → G base →
      I (Tree.underlay base (Entries.erase es (.str Directive.useKey))))
    (hrebind : ∀ {es}, I es → Ends K J E (rebind position es) fun _ => True) {es : Entries}
    (hes : I es) : Ends K J E (s.useStep resolve f location position es) I := by
  unfold useStep
  dsimp only
  refine ends_get.bind fun progress hprogress => ?_
  split
  next sources value hsources hvalue =>
    have huse : Entries.has es (.str Directive.useKey) = true := by
      rw [Entries.has_eq_isSome, hvalue, Option.isSome_some]
    refine (hreused (hsources ▸ hprogress) hes hvalue).bind fun base hbase => ?_
    have hnext := hunder hes huse hbase
    exact (hrebind hnext).bind fun _ _ => Ends.pure hnext
  · exact Ends.pure hes

/-- Carrying out all directives of a mapping keeps what each step keeps, if it is not given up, and
none is left in the end. -/
theorem ends_substitute_settled (hlimit : E (.unresolved s.owner location .tooManySubstitutions))
    (hinclude : ∀ {es}, I es → Ends K J E (s.includeStep f location position es) I)
    (huse : ∀ {es}, I es → Ends K J E (s.useStep resolve f location position es) I)
    (passes : Nat) {es : Entries} (hes : I es) :
    Ends K J E (s.substitute resolve f location position passes es) fun es =>
      I es ∧ ∃ sources, J sources ∧ Settled s.includes sources.isSome es := by
  have hdone : ∀ {es}, I es → (∃ sources, J sources ∧
      false = ((s.includes && Entries.has es (.str Directive.includeKey)) ||
        (sources.isSome && Entries.has es (.str Directive.useKey)))) →
      I es ∧ ∃ sources, J sources ∧ Settled s.includes sources.isSome es := by
    rintro es hes ⟨sources, hsources, hpending⟩
    obtain ⟨hno, hno'⟩ := Bool.or_eq_false_iff.1 hpending.symm
    exact ⟨hes, sources, hsources, fun h => by simpa [h] using hno,
      fun h => by simpa [h] using hno'⟩
  induction passes generalizing es with
  | zero =>
    unfold substitute
    refine (ends_isPending es).bind fun pending hpending => ?_
    cases pending with
    | false => exact Ends.pure (hdone hes hpending)
    | true => exact Ends.fail hlimit
  | succ passes ih =>
    unfold substitute
    refine (ends_isPending es).bind fun pending hpending => ?_
    cases pending with
    | false => exact Ends.pure (hdone hes hpending)
    | true => exact (hinclude hes).bind fun es hes => (huse hes).bind fun es hes => ih hes

theorem ends_substitute (hlimit : E (.unresolved s.owner location .tooManySubstitutions))
    (hinclude : ∀ {es}, I es → Ends K J E (s.includeStep f location position es) I)
    (huse : ∀ {es}, I es → Ends K J E (s.useStep resolve f location position es) I)
    (passes : Nat) {es : Entries} (hes : I es) :
    Ends K J E (s.substitute resolve f location position passes es) I :=
  (ends_substitute_settled hlimit hinclude huse passes hes).mono fun _ h => h.1

end Substituting

/-! ## Trees -/

section Trees

variable {onward : MappingResolver InWorld}

/-- Entries keep their keys, and their values are related to what these are resolved to. -/
theorem ends_resolveEntries_related {H : Position → Prop} {R : Tree → Tree → Prop}
    (hkey : ∀ p key, H p → H (p.entry key)) {es : Entries}
    (h : ∀ e ∈ es, ∀ location position, H position → Ends K J E
      (resolveTree onward location position e.2) (R e.2)) (location : String)
    (hposition : H position) :
    Ends K J E (resolveEntries onward location position es)
      (List.Forall₂ (fun e e' => e'.1 = e.1 ∧ R e.2 e'.2) es) := by
  induction es generalizing location with
  | nil =>
    unfold resolveEntries
    exact Ends.pure .nil
  | cons e rest ih =>
    obtain ⟨hfirst, hrest⟩ := List.forall_mem_cons.1 h
    unfold resolveEntries
    exact (hfirst _ _ (hkey _ _ hposition)).bind fun _ hvalue =>
      (ih hrest _).bind fun _ hvalues => Ends.pure (.cons ⟨rfl, hvalue⟩ hvalues)

theorem ends_resolveEntries {H : Position → Prop} (hkey : ∀ p key, H p → H (p.entry key))
    {es : Entries} (h : ∀ e ∈ es, ∀ location position, H position → Ends K J E
      (resolveTree onward location position e.2) fun _ => True) (location : String)
    (hposition : H position) :
    Ends K J E (resolveEntries onward location position es) fun _ => True :=
  (ends_resolveEntries_related (R := fun _ _ => True) hkey h location hposition).mono
    fun _ _ => trivial

/-- Items are related to what they are resolved to. -/
theorem ends_resolveItems_related {H : Position → Prop} {R : Tree → Tree → Prop}
    (hindex : ∀ p i, H p → H (p.item i)) {ts : List Tree}
    (h : ∀ t ∈ ts, ∀ location position, H position → Ends K J E
      (resolveTree onward location position t) (R t)) (location : String)
    (hposition : H position) (i : Nat) :
    Ends K J E (resolveItems onward location position i ts) (List.Forall₂ R ts) := by
  induction ts generalizing i with
  | nil =>
    unfold resolveItems
    exact Ends.pure .nil
  | cons t rest ih =>
    obtain ⟨hfirst, hrest⟩ := List.forall_mem_cons.1 h
    unfold resolveItems
    exact (hfirst _ _ (hindex _ _ hposition)).bind fun _ hitem =>
      (ih hrest _).bind fun _ hitems => Ends.pure (.cons hitem hitems)

theorem ends_resolveItems {H : Position → Prop} (hindex : ∀ p i, H p → H (p.item i))
    {ts : List Tree} (h : ∀ t ∈ ts, ∀ location position, H position → Ends K J E
      (resolveTree onward location position t) fun _ => True) (location : String)
    (hposition : H position) (i : Nat) :
    Ends K J E (resolveItems onward location position i ts) fun _ => True :=
  (ends_resolveItems_related (R := fun _ _ => True) hindex h location hposition i).mono
    fun _ _ => trivial

/-- The resolution of a tree ends as those of its mappings with directives do. -/
theorem ends_resolveTree {P : Tree → Prop} {H : Position → Prop}
    (hkey : ∀ p key, H p → H (p.entry key)) (hindex : ∀ p i, H p → H (p.item i))
    (hmap : ∀ es, isDirected es = false → P (.map es) → ∀ e ∈ es, P e.2)
    (hseq : ∀ ts, P (.seq ts) → ∀ t ∈ ts, P t)
    (honward : ∀ es location position, isDirected es = true → P (.map es) → H position →
      Ends K J E (onward es location position) fun _ => True) {t : Tree} (ht : P t)
    (location : String) (hposition : H position) :
    Ends K J E (resolveTree onward location position t) fun _ => True := by
  induction t using Tree.induction generalizing location position with
  | map es ih =>
    unfold resolveTree
    split
    next hdirected => exact honward es location position hdirected ht hposition
    next hdirected =>
      rw [Bool.not_eq_true] at hdirected
      have hvalues := hmap es hdirected ht
      exact (ends_resolveEntries hkey (fun e he location _ => (ih e he).2 (hvalues e he) location)
        location hposition).bind fun _ _ => Ends.pure trivial
  | seq ts ih =>
    unfold resolveTree
    exact (ends_resolveItems hindex
      (fun t hmem location _ => ih t hmem (hseq ts ht t hmem) location) location hposition 0).bind
      fun _ _ => Ends.pure trivial
  | _ =>
    unfold resolveTree
    exact Ends.pure trivial

/-- The resolution of a tree follows the tree, if those of its mappings with directives do. -/
theorem ends_resolveTree_related {D : Tree → Prop} {R : Tree → Tree → Prop}
    (hR : Follows D (fun _ _ => True) R)
    (honward : ∀ es location position, isDirected es = true → D (.map es) →
      Ends K J E (onward es location position) (R (.map es))) {t : Tree} (ht : D t)
    (location : String) (position : Position) :
    Ends K J E (resolveTree onward location position t) (R t) := by
  induction t using Tree.induction generalizing location position with
  | map es ih =>
    unfold resolveTree
    split
    next hdirected => exact honward es location position hdirected ht
    next hdirected =>
      refine (ends_resolveEntries_related (H := fun _ => True) (fun _ _ h => h)
        (fun e he location position _ => (ih e he).2 (hR.inEntries ht e he) location position)
        location trivial).bind fun es' h => Ends.pure ?_
      exact hR.map ht (by simpa using hdirected) trivial h
  | seq ts ih =>
    unfold resolveTree
    refine (ends_resolveItems_related (H := fun _ => True) (fun _ _ h => h)
      (fun t hmem location position _ => ih t hmem (hR.inItems ht t hmem) location position)
      location trivial 0).bind fun ts' h => Ends.pure ?_
    exact hR.seq ht trivial h
  | _ =>
    unfold resolveTree
    exact Ends.pure (hR.leaf ht (by simp) (by simp) trivial)

end Trees

end Scope

end LayeredConfig
