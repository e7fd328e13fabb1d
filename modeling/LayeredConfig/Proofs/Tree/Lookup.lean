import LayeredConfig.Proofs.Tree.WellFormed

/-!
# Lookups beside a replaced value

A value that is replaced at a section path shows at that path and on the way to it. A lookup that
takes another way at some step does not see it.
-/

namespace LayeredConfig

open Tree

/-- At some step the paths take different ways. -/
def Diverges (p q : List Segment) : Prop :=
  ∃ lead a b rest rest', p = lead ++ a :: rest ∧ q = lead ++ b :: rest' ∧ a ≠ b

theorem Diverges.append {p q : List Segment} (h : Diverges p q) (rest : List Segment) :
    Diverges (p ++ rest) q := by
  obtain ⟨lead, a, b, r, r', rfl, rfl, hne⟩ := h
  exact ⟨lead, a, b, r ++ rest, r', by simp, rfl, hne⟩

namespace Entries

theorem get?_modify_of_ne {f : Tree → Tree} {es : Entries} {name : String} {k : Tree}
    (h : k ≠ .str name) : get? (modify f es (.str name)) k = get? es k := by
  induction es with
  | nil => rfl
  | cons e rest ih =>
    obtain ⟨k₀, v⟩ := e
    rw [modify]
    split
    next hsame =>
      obtain rfl := same_str.1 hsame
      have hne : (Tree.str name).same k = false := by
        rw [Bool.eq_false_iff]
        exact fun hsame => h (str_same.1 hsame)
      rw [get?_cons, get?_cons, hne, if_neg (by simp), if_neg (by simp)]
    next => rw [get?_cons, get?_cons, ih]

theorem get?_modify_self {f : Tree → Tree} {es : Entries} {name : String} {v : Tree}
    (h : get? es (.str name) = some v) :
    get? (modify f es (.str name)) (.str name) = some (f v) := by
  induction es with
  | nil => cases h
  | cons e rest ih =>
    obtain ⟨k₀, v₀⟩ := e
    rw [modify]
    rw [get?_cons] at h
    split at h
    next hsame =>
      rw [if_pos hsame, get?_cons, if_pos hsame, Option.some_inj.1 h]
    next hsame => rw [if_neg hsame, get?_cons, if_neg hsame, ih h]

end Entries

namespace Tree

/-- A replaced value does not show at a path that diverges from its own. -/
theorem follow?_replace? {value own new : Tree} {p q : List Segment}
    (h : replace? value p own = some new) (hd : Diverges p q) : new.follow? q = own.follow? q := by
  obtain ⟨lead, a, b, rest, rest', rfl, rfl, hne⟩ := hd
  induction lead generalizing own new with
  | nil =>
    rw [List.nil_append] at h ⊢
    rw [follow?, follow?]
    suffices hstep : new.step? b = own.step? b by rw [hstep]
    cases a with
    | key name =>
      cases own with
      | map es =>
        rw [replace?, Option.bind_eq_some_iff] at h
        obtain ⟨slot, -, h⟩ := h
        obtain ⟨inner, -, rfl⟩ := Option.map_eq_some_iff.1 h
        cases b with
        | key name' =>
          refine Entries.get?_modify_of_ne fun heq => hne ?_
          rw [Tree.str.inj heq]
        | index i => exact Entries.get?_modify_of_ne (by simp)
      | _ => simp [replace?] at h
    | index i =>
      cases own with
      | seq items =>
        rw [replace?, Option.bind_eq_some_iff] at h
        obtain ⟨slot, -, h⟩ := h
        obtain ⟨inner, -, rfl⟩ := Option.map_eq_some_iff.1 h
        cases b with
        | key name => rfl
        | index j =>
          refine List.getElem?_set_ne fun heq => hne ?_
          rw [heq]
      | _ => simp [replace?] at h
  | cons c lead ih =>
    rw [List.cons_append] at h ⊢
    rw [follow?, follow?]
    cases c with
    | key name =>
      cases own with
      | map es =>
        rw [replace?, Option.bind_eq_some_iff] at h
        obtain ⟨slot, hslot, h⟩ := h
        obtain ⟨inner, hinner, rfl⟩ := Option.map_eq_some_iff.1 h
        rw [step?, step?, Entries.get?_modify_self hslot, hslot]
        exact ih hinner
      | _ => simp [replace?] at h
    | index i =>
      cases own with
      | seq items =>
        rw [replace?, Option.bind_eq_some_iff] at h
        obtain ⟨slot, hslot, h⟩ := h
        obtain ⟨inner, hinner, rfl⟩ := Option.map_eq_some_iff.1 h
        obtain ⟨hi, -⟩ := List.getElem?_eq_some_iff.1 hslot
        rw [step?, step?, List.getElem?_set_self hi, hslot]
        exact ih hinner
      | _ => simp [replace?] at h

theorem lookup_replace? {value own new : Tree} {p q : List Segment}
    (h : replace? value p own = some new) (hd : Diverges p q) : new.lookup q = own.lookup q := by
  rw [lookup, lookup, follow?_replace? h hd]

end Tree

end LayeredConfig
