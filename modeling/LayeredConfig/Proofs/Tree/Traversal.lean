import LayeredConfig.Proofs.Resolution
import LayeredConfig.Proofs.Tree.Algebra

/-!
# Traversals of trees

`Tree.traverse stops onward` goes through a tree value by value, except at the mappings at which it
`stops`: what is to come of these is left to `onward`. A traversal keeps the keys of the mappings it
goes through, and goes along with merging wherever `onward` does.
-/

namespace LayeredConfig

open Tree

/-- Relating the members of a list one by one by what holds of each of them. -/
theorem forall₂_of_mem {α β : Type} {R S : α → β → Prop} {as : List α} {bs : List β}
    (h : List.Forall₂ R as bs) (himp : ∀ a ∈ as, ∀ b, R a b → S a b) : List.Forall₂ S as bs := by
  induction h with
  | nil => exact .nil
  | cons hab _ ih =>
    exact .cons (himp _ List.mem_cons_self _ hab)
      (ih fun a ha => himp a (List.mem_cons_of_mem _ ha))

namespace Tree

variable (stops : Entries → Bool) (onward : Entries → Option Tree)

mutual

/-- Go through a tree, leaving the mappings at which to stop to `onward`. -/
def traverse : Tree → Option Tree
  | .map es => if stops es then onward es else (traverseEntries es).map Tree.map
  | .seq ts => (traverseItems ts).map Tree.seq
  | t => some t

/-- Go through the values of entries. -/
def traverseEntries : List (Tree × Tree) → Option (List (Tree × Tree))
  | [] => some []
  | (key, value) :: rest => (traverse value).bind fun value =>
    (traverseEntries rest).map fun rest => (key, value) :: rest

/-- Go through items. -/
def traverseItems : List Tree → Option (List Tree)
  | [] => some []
  | t :: rest => (traverse t).bind fun t => (traverseItems rest).map fun rest => t :: rest

end

/-! ## One by one -/

variable {stops : Entries → Bool} {onward : Entries → Option Tree}

theorem traverseEntries_eq_some {es es' : Entries} :
    traverseEntries stops onward es = some es' ↔
      List.Forall₂ (fun e e' => e'.1 = e.1 ∧ traverse stops onward e.2 = some e'.2) es es' := by
  induction es generalizing es' with
  | nil =>
    rw [traverseEntries, List.forall₂_nil_left_iff, Option.some_inj]
    exact eq_comm
  | cons e rest ih =>
    obtain ⟨key, value⟩ := e
    rw [traverseEntries, List.forall₂_cons_left_iff, Option.bind_eq_some_iff]
    constructor
    · rintro ⟨v, hv, hrest⟩
      obtain ⟨rest', hrest', rfl⟩ := Option.map_eq_some_iff.1 hrest
      exact ⟨(key, v), rest', ⟨rfl, hv⟩, ih.1 hrest', rfl⟩
    · rintro ⟨⟨k, v⟩, rest', ⟨rfl, hv⟩, hrest, rfl⟩
      exact ⟨v, hv, by rw [ih.2 hrest, Option.map_some]⟩

theorem traverseItems_eq_some {ts ts' : List Tree} :
    traverseItems stops onward ts = some ts' ↔
      List.Forall₂ (fun t t' => traverse stops onward t = some t') ts ts' := by
  induction ts generalizing ts' with
  | nil =>
    rw [traverseItems, List.forall₂_nil_left_iff, Option.some_inj]
    exact eq_comm
  | cons t rest ih =>
    rw [traverseItems, List.forall₂_cons_left_iff, Option.bind_eq_some_iff]
    constructor
    · rintro ⟨t', ht, hrest⟩
      obtain ⟨rest', hrest', rfl⟩ := Option.map_eq_some_iff.1 hrest
      exact ⟨_, _, ht, ih.1 hrest', rfl⟩
    · rintro ⟨t', rest', ht, hrest, rfl⟩
      exact ⟨t', ht, by rw [ih.2 hrest, Option.map_some]⟩

theorem traverse_passes {es : Entries} (h : stops es = false) :
    traverse stops onward (.map es) = (traverseEntries stops onward es).map Tree.map := by
  rw [traverse, h, if_neg (by simp)]

theorem traverse_map {es : Entries} (h : stops es = false) {t : Tree} :
    traverse stops onward (.map es) = some t ↔
      ∃ es', traverseEntries stops onward es = some es' ∧ t = .map es' := by
  rw [traverse_passes h, Option.map_eq_some_iff]
  simp only [eq_comm]

theorem traverse_stops {es : Entries} (h : stops es = true) :
    traverse stops onward (.map es) = onward es := by
  rw [traverse, if_pos h]

/-- Only mappings are left to `onward`, so nothing else becomes a mapping. -/
theorem map_of_traverse {t : Tree} {es' : Entries}
    (h : traverse stops onward t = some (.map es')) : ∃ es, t = .map es := by
  cases t with
  | map es => exact ⟨es, rfl⟩
  | seq ts =>
    rw [traverse] at h
    obtain ⟨ts', -, hseq⟩ := Option.map_eq_some_iff.1 h
    cases hseq
  | _ => simp [traverse] at h

theorem traverseEntries_eq_none {es : Entries} {e : Tree × Tree} (he : e ∈ es)
    (h : traverse stops onward e.2 = none) : traverseEntries stops onward es = none := by
  cases hresult : traverseEntries stops onward es with
  | none => rfl
  | some es' =>
    obtain ⟨e', -, -, hvalue⟩ := exists_of_mem_forall₂ (traverseEntries_eq_some.1 hresult).flip he
    rw [h] at hvalue
    cases hvalue

theorem traverseItems_eq_none {ts : List Tree} {t : Tree} (ht : t ∈ ts)
    (h : traverse stops onward t = none) : traverseItems stops onward ts = none := by
  cases hresult : traverseItems stops onward ts with
  | none => rfl
  | some ts' =>
    obtain ⟨t', -, hitem⟩ := exists_of_mem_forall₂ (traverseItems_eq_some.1 hresult).flip ht
    rw [h] at hitem
    cases hitem

theorem exists_traverseEntries {es : Entries}
    (h : ∀ e ∈ es, ∃ t, traverse stops onward e.2 = some t) :
    ∃ es', traverseEntries stops onward es = some es' := by
  induction es with
  | nil => exact ⟨[], rfl⟩
  | cons e rest ih =>
    obtain ⟨⟨v, hv⟩, hrest⟩ := List.forall_mem_cons.1 h
    obtain ⟨rest', hrest'⟩ := ih hrest
    exact ⟨_, by rw [traverseEntries, hv, Option.bind_some, hrest', Option.map_some]⟩

theorem exists_traverseItems {ts : List Tree}
    (h : ∀ t ∈ ts, ∃ t', traverse stops onward t = some t') :
    ∃ ts', traverseItems stops onward ts = some ts' := by
  induction ts with
  | nil => exact ⟨[], rfl⟩
  | cons t rest ih =>
    obtain ⟨⟨v, hv⟩, hrest⟩ := List.forall_mem_cons.1 h
    obtain ⟨rest', hrest'⟩ := ih hrest
    exact ⟨_, by rw [traverseItems, hv, Option.bind_some, hrest', Option.map_some]⟩

/-! ## Other mappings -/

theorem traverseEntries_congr {onward' : Entries → Option Tree} {es : Entries}
    (h : ∀ e ∈ es, traverse stops onward e.2 = traverse stops onward' e.2) :
    traverseEntries stops onward es = traverseEntries stops onward' es := by
  induction es with
  | nil => rfl
  | cons e rest ih =>
    obtain ⟨hfirst, hrest⟩ := List.forall_mem_cons.1 h
    rw [traverseEntries, traverseEntries, hfirst, ih hrest]

theorem traverseItems_congr {onward' : Entries → Option Tree} {ts : List Tree}
    (h : ∀ t ∈ ts, traverse stops onward t = traverse stops onward' t) :
    traverseItems stops onward ts = traverseItems stops onward' ts := by
  induction ts with
  | nil => rfl
  | cons t rest ih =>
    obtain ⟨hfirst, hrest⟩ := List.forall_mem_cons.1 h
    rw [traverseItems, traverseItems, hfirst, ih hrest]

theorem traverse_mono {onward' : Entries → Option Tree}
    (h : ∀ es t, onward es = some t → onward' es = some t) {t t' : Tree}
    (ht : traverse stops onward t = some t') : traverse stops onward' t = some t' := by
  induction t using Tree.induction generalizing t' with
  | map es ih =>
    rw [traverse] at ht ⊢
    split
    next hstops =>
      rw [if_pos hstops] at ht
      exact h es t' ht
    next hstops =>
      rw [if_neg hstops] at ht
      obtain ⟨es', hes', rfl⟩ := Option.map_eq_some_iff.1 ht
      rw [traverseEntries_eq_some.2 (forall₂_of_mem (traverseEntries_eq_some.1 hes')
        fun e he e' h => ⟨h.1, (ih e he).2 h.2⟩), Option.map_some]
  | seq ts ih =>
    rw [traverse] at ht ⊢
    obtain ⟨ts', hts', rfl⟩ := Option.map_eq_some_iff.1 ht
    rw [traverseItems_eq_some.2 (forall₂_of_mem (traverseItems_eq_some.1 hts')
      fun t ht t' h => ih t ht h), Option.map_some]
  | _ => simpa [traverse] using ht

theorem traverseEntries_mono {onward' : Entries → Option Tree}
    (h : ∀ es t, onward es = some t → onward' es = some t) {es es' : Entries}
    (hes : traverseEntries stops onward es = some es') :
    traverseEntries stops onward' es = some es' :=
  traverseEntries_eq_some.2 ((traverseEntries_eq_some.1 hes).imp fun _ _ he =>
    ⟨he.1, traverse_mono h he.2⟩)

/-! ## Lookups -/

/-- A traversal keeps the keys. -/
theorem keys_traverseEntries {es es' : Entries}
    (h : traverseEntries stops onward es = some es') : Entries.keys es' = Entries.keys es := by
  rw [traverseEntries_eq_some] at h
  induction h with
  | nil => rfl
  | cons hfirst _ ih => exact List.cons_eq_cons.2 ⟨hfirst.1, ih⟩

/-- Under each key is what comes of the value there. -/
theorem get?_traverseEntries {es es' : Entries} (h : traverseEntries stops onward es = some es')
    (key : Tree) :
    Entries.get? es' key = (Entries.get? es key).bind (traverse stops onward) := by
  rw [traverseEntries_eq_some] at h
  induction h with
  | nil => rfl
  | @cons e e' _ _ hfirst _ ih =>
    obtain ⟨k, v⟩ := e
    obtain ⟨k', v'⟩ := e'
    obtain ⟨rfl, hvalue⟩ := hfirst
    rw [Entries.get?_cons, Entries.get?_cons]
    split
    · exact hvalue.symm
    · exact ih

/-- What is found under a key is traversed with the others. -/
theorem traverse_of_get? {es es' : Entries} (h : traverseEntries stops onward es = some es')
    {key v : Tree} (hv : Entries.get? es key = some v) :
    ∃ v', Entries.get? es' key = some v' ∧ traverse stops onward v = some v' := by
  obtain ⟨k, hmem, -⟩ := Entries.mem_of_get? hv
  obtain ⟨e', -, -, hvalue⟩ := exists_of_mem_forall₂ (traverseEntries_eq_some.1 h).flip hmem
  exact ⟨e'.2, by rw [get?_traverseEntries h, hv, Option.bind_some, hvalue], hvalue⟩

/-- Entries with distinct keys are traversed if the value under each key is. -/
theorem traverseEntries_of_get? {es es' : Entries} (hes : Entries.Distinct es)
    (hkeys : Entries.keys es' = Entries.keys es)
    (h : ∀ e ∈ es, ∃ v, traverse stops onward e.2 = some v ∧ Entries.get? es' e.1 = some v) :
    traverseEntries stops onward es = some es' := by
  induction es generalizing es' with
  | nil =>
    rw [List.map_eq_nil_iff.1 hkeys]
    rfl
  | cons e rest ih =>
    obtain ⟨k, v⟩ := e
    cases es' with
    | nil => cases hkeys
    | cons e' rest' =>
      obtain ⟨k', v'⟩ := e'
      obtain ⟨hk, hrest⟩ := List.cons_eq_cons.1 hkeys
      dsimp only at hk
      subst hk
      obtain ⟨hfirst, hdistinct⟩ := List.pairwise_cons.1 hes
      obtain ⟨⟨w, hw, hget⟩, hothers⟩ := List.forall_mem_cons.1 h
      rw [Entries.get?_cons, if_pos (same_refl k'), Option.some_inj] at hget
      subst hget
      rw [traverseEntries, hw, Option.bind_some, ih hdistinct hrest fun e he => ?_,
        Option.map_some]
      obtain ⟨u, hu, hget⟩ := hothers e he
      have hne : k'.same e.1 = false := hfirst e he
      rw [Entries.get?_cons, hne, if_neg (by simp)] at hget
      exact ⟨u, hu, hget⟩

/-! ## Well-formedness -/

theorem traverseEntries_wellFormed {es es' : Entries} (hes : WellFormed (.map es))
    (hvalues : ∀ e ∈ es, ∀ v, e.2.WellFormed → traverse stops onward e.2 = some v → v.WellFormed)
    (h : traverseEntries stops onward es = some es') : WellFormed (.map es') := by
  refine hes.of_keys (keys_traverseEntries h) fun e' he' => ?_
  have hrelated := forall₂_of_mem (traverseEntries_eq_some.1 h) fun e he e' h =>
    hvalues e he e'.2 ((wellFormed_map.1 hes).2 e he).2 h.2
  obtain ⟨e, -, hwf⟩ := exists_of_mem_forall₂ hrelated he'
  exact hwf

theorem traverse_wellFormed
    (honward : ∀ es t, WellFormed (.map es) → onward es = some t → t.WellFormed) {t t' : Tree}
    (ht : t.WellFormed) (h : traverse stops onward t = some t') : t'.WellFormed := by
  induction t using Tree.induction generalizing t' with
  | map es ih =>
    by_cases hstops : stops es = true
    · rw [traverse_stops hstops] at h
      exact honward es t' ht h
    · obtain ⟨es', hes', rfl⟩ := (traverse_map (by simpa using hstops)).1 h
      exact traverseEntries_wellFormed ht (fun e he _ hwf h => (ih e he).2 hwf h) hes'
  | seq ts ih =>
    rw [traverse] at h
    obtain ⟨ts', hts', rfl⟩ := Option.map_eq_some_iff.1 h
    refine wellFormed_seq.2 fun t' ht' => ?_
    have hrelated := forall₂_of_mem (traverseItems_eq_some.1 hts') fun t hmem t' h =>
      ih t hmem (wellFormed_seq.1 ht t hmem) h
    obtain ⟨t, -, hwf⟩ := exists_of_mem_forall₂ hrelated ht'
    exact hwf
  | _ =>
    obtain rfl : _ = t' := by simpa [traverse] using h
    exact ht

/-! ## Merging -/

/-- Merged entries are traversed to merged results, if the values that both have are. -/
theorem traverseEntries_mergeEntries {own own' above above' : Entries}
    (hown : WellFormed (.map own)) (hown' : WellFormed (.map own'))
    (habove : WellFormed (.map above)) (habove' : WellFormed (.map above'))
    (h : traverseEntries stops onward own = some own')
    (h' : traverseEntries stops onward above = some above')
    (hboth : ∀ k u v u' v', Entries.get? own k = some u → Entries.get? above k = some v →
      Entries.get? own' k = some u' → Entries.get? above' k = some v' →
      traverse stops onward (u.merge v) = some (u'.merge v')) :
    traverseEntries stops onward (mergeEntries own above) = some (mergeEntries own' above') := by
  have hmerged : WellFormed (.map (mergeEntries own above)) := by simpa using hown.merge habove
  refine traverseEntries_of_get? (wellFormed_map.1 hmerged).1 ?_ fun e he => ?_
  · have hhas : ∀ k, Entries.has own' k = Entries.has own k := fun k => by
      rw [Entries.has_eq_any, Entries.has_eq_any, keys_traverseEntries h]
    rw [Entries.keys_mergeEntries _ (wellFormed_map.1 habove).1,
      Entries.keys_mergeEntries _ (wellFormed_map.1 habove').1, keys_traverseEntries h,
      keys_traverseEntries h']
    simp only [hhas]
  · have hget := get?_mergeEntries_eq hown habove e.1
    rw [Entries.get?_of_mem hmerged he] at hget
    rw [get?_mergeEntries_eq hown' habove']
    cases hu : Entries.get? own e.1 with
    | none =>
      cases hv : Entries.get? above e.1 with
      | none =>
        rw [hu, hv] at hget
        cases hget
      | some v =>
        obtain ⟨v', hv', hresolved⟩ := traverse_of_get? h' hv
        rw [hu, hv] at hget
        have heq : e.2 = v := Option.some_inj.1 hget
        have hnone : Entries.get? own' e.1 = none := by
          rw [get?_traverseEntries h, hu, Option.bind_none]
        exact ⟨v', heq ▸ hresolved, by rw [hnone, hv']; rfl⟩
    | some u =>
      obtain ⟨u', hu', hresolved⟩ := traverse_of_get? h hu
      cases hv : Entries.get? above e.1 with
      | none =>
        rw [hu, hv] at hget
        have heq : e.2 = u := Option.some_inj.1 hget
        have hnone : Entries.get? above' e.1 = none := by
          rw [get?_traverseEntries h', hv, Option.bind_none]
        exact ⟨u', heq ▸ hresolved, by rw [hnone, hu']; rfl⟩
      | some v =>
        obtain ⟨v', hv', -⟩ := traverse_of_get? h' hv
        rw [hu, hv] at hget
        have heq : e.2 = u.merge v := Option.some_inj.1 hget
        exact ⟨u'.merge v', heq ▸ hboth e.1 u v u' v' hu hv hu' hv', by rw [hu', hv']; rfl⟩

end Tree

end LayeredConfig
