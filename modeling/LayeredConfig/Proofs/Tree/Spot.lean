import LayeredConfig.Proofs.Tree.Everywhere
import LayeredConfig.Proofs.Tree.Lookup

/-!
# The spot where a value is replaced

`spot?` finds the value that `replace?` would replace. With it, replacing obeys the laws of a lens:
what was put is found, putting back what was found changes nothing, a second value covers the
first, and replacing within a value is replacing the value.
-/

namespace LayeredConfig

namespace Entries

theorem get?_append {as bs : Entries} {key : Tree} :
    get? (as ++ bs) key = (get? as key).or (get? bs key) := by
  induction as with
  | nil => rfl
  | cons e rest ih =>
    rw [List.cons_append, get?_cons, get?_cons, ih]
    split
    · rfl
    · rfl

/-- Changing a value behind entries with other keys. -/
theorem modify_append {f : Tree → Tree} {lead rest : Entries} {name : String} {v : Tree}
    (h : has lead (.str name) = false) :
    modify f (lead ++ (.str name, v) :: rest) (.str name) = lead ++ (.str name, f v) :: rest := by
  induction lead with
  | nil => simp [modify, Tree.same_refl]
  | cons e others ih =>
    rw [has, List.any_cons, Bool.or_eq_false_iff] at h
    rw [List.cons_append, modify, h.1, if_neg (by simp), ih h.2, List.cons_append]

/-- A value behind entries with other keys is found. -/
theorem get?_append_cons {lead rest : Entries} {name : String} {v : Tree}
    (h : has lead (.str name) = false) :
    get? (lead ++ (.str name, v) :: rest) (.str name) = some v := by
  rw [has_eq_isSome, Option.isSome_eq_false_iff, Option.isNone_iff_eq_none] at h
  rw [get?_append, h, Option.none_or, get?_cons, if_pos (Tree.same_refl _)]

theorem get?_modify_str {f : Tree → Tree} {es : Entries} {name : String} :
    get? (modify f es (.str name)) (.str name) = (get? es (.str name)).map f := by
  cases h : get? es (.str name) with
  | none =>
    have hnone : ∀ e ∈ es, e.1.same (.str name) = false := get?_eq_none.1 h
    suffices hsame : modify f es (.str name) = es by rw [hsame, h, Option.map_none]
    clear h
    induction es with
    | nil => rfl
    | cons e rest ih =>
      obtain ⟨hfirst, hrest⟩ := List.forall_mem_cons.1 hnone
      rw [modify, hfirst, if_neg (by simp), ih hrest]
  | some v => exact get?_modify_self h

theorem modify_modify {f g : Tree → Tree} {es : Entries} {key : Tree} :
    modify f (modify g es key) key = modify (f ∘ g) es key := by
  induction es with
  | nil => rfl
  | cons e rest ih =>
    rw [modify, modify]
    split
    next hsame => rw [modify, if_pos hsame, Function.comp_apply]
    next hnot => rw [modify, if_neg hnot, ih]

/-- Putting back the value that is there changes nothing. -/
theorem modify_get? {es : Entries} {key v : Tree} (h : get? es key = some v) :
    modify (fun _ => v) es key = es := by
  induction es with
  | nil => rfl
  | cons e rest ih =>
    rw [get?_cons] at h
    rw [modify]
    split
    next hsame =>
      rw [if_pos hsame, Option.some_inj] at h
      subst h
      rfl
    next hnot =>
      rw [if_neg hnot] at h
      rw [ih h]

end Entries

namespace Tree

/-- The value that `replace?` replaces. -/
def spot? : List Segment → Tree → Option Tree
  | [], t => some t
  | .key name :: rest, .map es => (Entries.get? es (.str name)).bind (spot? rest)
  | .index i :: rest, .seq items => items[i]?.bind (spot? rest)
  | _, _ => none

theorem spot?_append (p q : List Segment) (t : Tree) :
    spot? (p ++ q) t = (spot? p t).bind (spot? q) := by
  induction p generalizing t with
  | nil => rfl
  | cons s rest ih =>
    have hrest : spot? (rest ++ q) = fun t => (spot? rest t).bind (spot? q) := funext ih
    rw [List.cons_append]
    cases s with
    | key name =>
      cases t with
      | map es => rw [spot?, spot?, hrest, Option.bind_assoc]
      | _ => rfl
    | index i =>
      cases t with
      | seq items => rw [spot?, spot?, hrest, Option.bind_assoc]
      | _ => rfl

/-- A lookup leads to the spot. -/
theorem follow?_of_spot? {p : List Segment} {t v : Tree} (h : spot? p t = some v) :
    t.follow? p = some v := by
  induction p generalizing t with
  | nil => exact h
  | cons s rest ih =>
    cases s with
    | key name =>
      cases t with
      | map es =>
        obtain ⟨slot, hslot, h⟩ := Option.bind_eq_some_iff.1 h
        rw [follow?, step?, hslot, Option.bind_some, ih h]
      | _ => cases h
    | index i =>
      cases t with
      | seq items =>
        obtain ⟨slot, hslot, h⟩ := Option.bind_eq_some_iff.1 h
        rw [follow?, step?, hslot, Option.bind_some, ih h]
      | _ => cases h

/-- What has been put at the spot is found there. -/
theorem spot?_replace? {value t new : Tree} {p : List Segment}
    (h : replace? value p t = some new) : spot? p new = some value := by
  induction p generalizing t new with
  | nil => exact (Option.some_inj.1 h) ▸ rfl
  | cons s rest ih =>
    cases s with
    | key name =>
      cases t with
      | map es =>
        obtain ⟨slot, hslot, h⟩ := Option.bind_eq_some_iff.1 h
        obtain ⟨inner, hinner, rfl⟩ := Option.map_eq_some_iff.1 h
        rw [spot?, Entries.get?_modify_self hslot, Option.bind_some, ih hinner]
      | _ => cases h
    | index i =>
      cases t with
      | seq items =>
        obtain ⟨slot, hslot, h⟩ := Option.bind_eq_some_iff.1 h
        obtain ⟨inner, hinner, rfl⟩ := Option.map_eq_some_iff.1 h
        obtain ⟨hi, -⟩ := List.getElem?_eq_some_iff.1 hslot
        rw [spot?, List.getElem?_set_self hi, Option.bind_some, ih hinner]
      | _ => cases h

/-- Putting back what is found at the spot changes nothing. -/
theorem replace?_spot? {t v : Tree} {p : List Segment} (h : spot? p t = some v) :
    replace? v p t = some t := by
  induction p generalizing t with
  | nil => exact h.symm
  | cons s rest ih =>
    cases s with
    | key name =>
      cases t with
      | map es =>
        obtain ⟨slot, hslot, h⟩ := Option.bind_eq_some_iff.1 h
        rw [replace?, hslot, Option.bind_some, ih h, Option.map_some, Entries.modify_get? hslot]
      | _ => cases h
    | index i =>
      cases t with
      | seq items =>
        obtain ⟨slot, hslot, h⟩ := Option.bind_eq_some_iff.1 h
        obtain ⟨hi, hslot'⟩ := List.getElem?_eq_some_iff.1 hslot
        rw [replace?, hslot, Option.bind_some, ih h, Option.map_some, ← hslot',
          List.set_getElem_self]
      | _ => cases h

/-- Replacing within the value at a spot is replacing that value. -/
theorem replace?_append {t v : Tree} {p : List Segment} (h : spot? p t = some v) (value : Tree)
    (q : List Segment) :
    replace? value (p ++ q) t = (replace? value q v).bind fun new => replace? new p t := by
  induction p generalizing t with
  | nil =>
    cases h
    rw [List.nil_append]
    simp only [replace?, Option.bind_fun_some]
  | cons s rest ih =>
    rw [List.cons_append]
    cases s with
    | key name =>
      cases t with
      | map es =>
        obtain ⟨slot, hslot, h⟩ := Option.bind_eq_some_iff.1 h
        simp only [replace?, hslot, Option.bind_some, ih h, Option.map_bind]
        rfl
      | _ => cases h
    | index i =>
      cases t with
      | seq items =>
        obtain ⟨slot, hslot, h⟩ := Option.bind_eq_some_iff.1 h
        simp only [replace?, hslot, Option.bind_some, ih h, Option.map_bind]
        rfl
      | _ => cases h

/-- A second value at the same spot covers the first. -/
theorem replace?_replace? {value value' t new : Tree} {p : List Segment}
    (h : replace? value p t = some new) : replace? value' p new = replace? value' p t := by
  induction p generalizing t new with
  | nil => rfl
  | cons s rest ih =>
    cases s with
    | key name =>
      cases t with
      | map es =>
        obtain ⟨slot, hslot, h⟩ := Option.bind_eq_some_iff.1 h
        obtain ⟨inner, hinner, rfl⟩ := Option.map_eq_some_iff.1 h
        rw [replace?, replace?, Entries.get?_modify_self hslot, hslot, Option.bind_some,
          Option.bind_some, ih hinner]
        simp only [Entries.modify_modify, Function.comp_def]
      | _ => cases h
    | index i =>
      cases t with
      | seq items =>
        obtain ⟨slot, hslot, h⟩ := Option.bind_eq_some_iff.1 h
        obtain ⟨inner, hinner, rfl⟩ := Option.map_eq_some_iff.1 h
        obtain ⟨hi, -⟩ := List.getElem?_eq_some_iff.1 hslot
        rw [replace?, replace?, List.getElem?_set_self hi, hslot, Option.bind_some,
          Option.bind_some, ih hinner]
        simp only [List.set_set]
      | _ => cases h

/-- Any value can be put at a spot that is there. -/
theorem exists_replace? {t v : Tree} {p : List Segment} (h : spot? p t = some v) (value : Tree) :
    ∃ new, replace? value p t = some new := by
  induction p generalizing t with
  | nil => exact ⟨value, rfl⟩
  | cons s rest ih =>
    cases s with
    | key name =>
      cases t with
      | map es =>
        obtain ⟨slot, hslot, h⟩ := Option.bind_eq_some_iff.1 h
        obtain ⟨inner, hinner⟩ := ih h
        exact ⟨_, by rw [replace?, hslot, Option.bind_some, hinner, Option.map_some]⟩
      | _ => cases h
    | index i =>
      cases t with
      | seq items =>
        obtain ⟨slot, hslot, h⟩ := Option.bind_eq_some_iff.1 h
        obtain ⟨inner, hinner⟩ := ih h
        exact ⟨_, by rw [replace?, hslot, Option.bind_some, hinner, Option.map_some]⟩
      | _ => cases h

/-! ## What holds of all entries -/

/-- The tree is a mapping, or a sequence of more than texts. -/
def Nests : Tree → Prop
  | .map _ => True
  | .seq items => ∃ t ∈ items, ∀ name, t ≠ .str name
  | _ => False

theorem Nests.ne_str {t : Tree} (h : Nests t) (name : String) : t ≠ .str name := by
  rintro rfl
  exact h

/-- Another mapping at the spot of a mapping, if the property of entries may be told of those whose
values nest others without looking at the value. -/
theorem Everywhere.replace?_of_spot {R : Tree → Tree → Prop} {es old : Entries} {t new : Tree}
    {p : List Segment} (hR : ∀ k v v', R k v → Nests v → R k v') (ht : Everywhere R t)
    (hes : Everywhere R (.map es)) (hspot : spot? p t = some (.map old))
    (h : Tree.replace? (.map es) p t = some new) : Everywhere R new ∧ Nests t := by
  induction p generalizing t new with
  | nil =>
    obtain rfl : t = .map old := Option.some_inj.1 hspot
    obtain rfl : Tree.map es = new := Option.some_inj.1 h
    exact ⟨hes, trivial⟩
  | cons s rest ih =>
    cases s with
    | key name =>
      cases t with
      | map below =>
        obtain ⟨slot, hslot, h⟩ := Option.bind_eq_some_iff.1 h
        obtain ⟨inner, hinner, rfl⟩ := Option.map_eq_some_iff.1 h
        rw [spot?, hslot, Option.bind_some] at hspot
        obtain ⟨hgood, hnests⟩ := ih (ht.of_get? hslot) hspot hinner
        refine ⟨everywhere_map.2 fun e he => ?_, trivial⟩
        rw [everywhere_map] at ht
        obtain ⟨k, hmem, hsame⟩ := Entries.mem_of_get? hslot
        rcases Entries.mem_modify he with hold | ⟨hkey, -, -, hvalue⟩
        · exact ht e hold
        · have hkeys : e.1 = k := (same_str.1 hkey).trans (same_str.1 hsame).symm
          rw [hvalue, hkeys]
          exact ⟨hR k slot inner (ht _ hmem).1 hnests, hgood⟩
      | _ => cases h
    | index i =>
      cases t with
      | seq items =>
        obtain ⟨slot, hslot, h⟩ := Option.bind_eq_some_iff.1 h
        obtain ⟨inner, hinner, rfl⟩ := Option.map_eq_some_iff.1 h
        rw [spot?, hslot, Option.bind_some] at hspot
        rw [everywhere_seq] at ht
        obtain ⟨hgood, hnests⟩ := ih (ht _ (List.mem_of_getElem? hslot)) hspot hinner
        refine ⟨everywhere_seq.2 fun t hmem => ?_, slot, List.mem_of_getElem? hslot, hnests.ne_str⟩
        rcases List.mem_or_eq_of_mem_set hmem with hold | rfl
        · exact ht t hold
        · exact hgood
      | _ => cases h

end Tree

end LayeredConfig
