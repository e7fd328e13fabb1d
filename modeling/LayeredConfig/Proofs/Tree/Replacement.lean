import LayeredConfig.Proofs.Tree.Spot

/-!
# What a replacement does to a tree

A value that is put at a section path is found there, lookups along other paths find what they found
before, and the nodes on the way keep their keys and their lengths; a path that leads nowhere leaves
the tree as it is (`replacement_is_lawful`).

A replacement takes the steps that a lookup takes, but for one: an index names an integer key of a
mapping for a lookup, and nothing for a replacement (`replaceable_iff_found`).
-/

namespace LayeredConfig

open Tree

theorem Entries.keys_modify (f : Tree → Tree) (es : Entries) (key : Tree) :
    keys (modify f es key) = keys es := by
  induction es with
  | nil => rfl
  | cons e rest ih =>
    rw [modify]
    split
    · rfl
    · exact congrArg (e.1 :: ·) ih

/-- Paths that differ at some position part at the first one. -/
theorem Diverges.of_getElem? {p q : List Segment} {i : Nat} {a b : Segment} (ha : p[i]? = some a)
    (hb : q[i]? = some b) (hne : a ≠ b) : Diverges p q := by
  induction i generalizing p q with
  | zero =>
    obtain ⟨rest, rfl⟩ := List.head?_eq_some_iff.1 (List.head?_eq_getElem? ▸ ha)
    obtain ⟨rest', rfl⟩ := List.head?_eq_some_iff.1 (List.head?_eq_getElem? ▸ hb)
    exact ⟨[], a, b, rest, rest', rfl, rfl, hne⟩
  | succ i ih =>
    cases p with
    | nil => cases ha
    | cons c p =>
      cases q with
      | nil => cases hb
      | cons d q =>
        by_cases hcd : c = d
        · obtain ⟨lead, a', b', rest, rest', rfl, rfl, hne'⟩ := ih ha hb
          exact ⟨c :: lead, a', b', rest, rest', rfl, hcd ▸ rfl, hne'⟩
        · exact ⟨[], c, d, p, q, rfl, rfl, hcd⟩

namespace Tree

/-! ## Writing in place -/

/-- Write a value at a path in place: whether the path leads anywhere, and the tree afterwards. The
nodes on the way are written back whatever comes of it. -/
def overwrite (value : Tree) : List Segment → Tree → Bool × Tree
  | [], _ => (true, value)
  | .key name :: rest, .map es =>
    match Entries.get? es (.str name) with
    | none => (false, .map es)
    | some slot =>
      let (done, new) := overwrite value rest slot
      (done, .map (Entries.modify (fun _ => new) es (.str name)))
  | .index i :: rest, .seq items =>
    match items[i]? with
    | none => (false, .seq items)
    | some slot =>
      let (done, new) := overwrite value rest slot
      (done, .seq (items.set i new))
  | _, t => (false, t)

variable {value t new : Tree} {p : List Segment}

theorem overwrite_of_replace? (h : replace? value p t = some new) :
    overwrite value p t = (true, new) := by
  induction p generalizing t new with
  | nil => exact congrArg _ (Option.some_inj.1 h)
  | cons s rest ih =>
    cases s with
    | key name =>
      cases t with
      | map es =>
        obtain ⟨slot, hslot, h⟩ := Option.bind_eq_some_iff.1 h
        obtain ⟨inner, hinner, rfl⟩ := Option.map_eq_some_iff.1 h
        simp only [overwrite, hslot, ih hinner]
      | _ => cases h
    | index i =>
      cases t with
      | seq items =>
        obtain ⟨slot, hslot, h⟩ := Option.bind_eq_some_iff.1 h
        obtain ⟨inner, hinner, rfl⟩ := Option.map_eq_some_iff.1 h
        simp only [overwrite, hslot, ih hinner]
      | _ => cases h

/-- Writing back what was there leaves no trace. -/
theorem overwrite_of_replace?_eq_none (h : replace? value p t = none) :
    overwrite value p t = (false, t) := by
  induction p generalizing t with
  | nil => cases h
  | cons s rest ih =>
    cases s with
    | key name =>
      cases t with
      | map es =>
        cases hslot : Entries.get? es (.str name) with
        | none => simp only [overwrite, hslot]
        | some slot =>
          rw [replace?, hslot, Option.bind_some, Option.map_eq_none_iff] at h
          simp only [overwrite, hslot, ih h, Entries.modify_get? hslot]
      | _ => rfl
    | index i =>
      cases t with
      | seq items =>
        cases hslot : items[i]? with
        | none => simp only [overwrite, hslot]
        | some slot =>
          rw [replace?, hslot, Option.bind_some, Option.map_eq_none_iff] at h
          obtain ⟨hi, rfl⟩ := List.getElem?_eq_some_iff.1 hslot
          simp only [overwrite, hslot, ih h, List.set_getElem_self]
      | _ => rfl

/-! ## The nodes on the way -/

/-- Mappings with the same keys in the same order, or sequences of one length. -/
inductive SameFrame : Tree → Tree → Prop
  | map {es es' : Entries} (h : Entries.keys es' = Entries.keys es) : SameFrame (.map es) (.map es')
  | seq {items items' : List Tree} (h : items'.length = items.length) :
      SameFrame (.seq items) (.seq items')

/-- A replacement within a node keeps its frame. -/
theorem SameFrame.of_replace? {s : Segment} {rest : List Segment}
    (h : replace? value (s :: rest) t = some new) : SameFrame t new := by
  cases s with
  | key name =>
    cases t with
    | map es =>
      obtain ⟨slot, -, h⟩ := Option.bind_eq_some_iff.1 h
      obtain ⟨inner, -, rfl⟩ := Option.map_eq_some_iff.1 h
      exact .map (Entries.keys_modify _ es _)
    | _ => cases h
  | index i =>
    cases t with
    | seq items =>
      obtain ⟨slot, -, h⟩ := Option.bind_eq_some_iff.1 h
      obtain ⟨inner, -, rfl⟩ := Option.map_eq_some_iff.1 h
      exact .seq List.length_set
    | _ => cases h

/-- A value can be replaced exactly where there is one. -/
theorem isSome_replace? (value : Tree) (p : List Segment) (t : Tree) :
    (replace? value p t).isSome = (spot? p t).isSome := by
  induction p generalizing t with
  | nil => rfl
  | cons s rest ih =>
    cases s with
    | key name =>
      cases t with
      | map es =>
        rw [replace?, spot?]
        cases Entries.get? es (.str name) with
        | none => rfl
        | some slot => rw [Option.bind_some, Option.isSome_map, ih, Option.bind_some]
      | _ => rfl
    | index i =>
      cases t with
      | seq items =>
        rw [replace?, spot?]
        cases items[i]? with
        | none => rfl
        | some slot => rw [Option.bind_some, Option.isSome_map, ih, Option.bind_some]
      | _ => rfl

/-- Each node that the path passes keeps its frame. -/
theorem sameFrame_of_replace? {lead rest : List Segment} {s : Segment}
    (h : replace? value (lead ++ s :: rest) t = some new) :
    ∃ node node', t.follow? lead = some node ∧ new.follow? lead = some node' ∧
      SameFrame node node' := by
  have hspot : (spot? (lead ++ s :: rest) t).isSome := by rw [← isSome_replace? value, h]; rfl
  obtain ⟨old, hspot⟩ := Option.isSome_iff_exists.1 hspot
  rw [spot?_append] at hspot
  obtain ⟨node, hnode, -⟩ := Option.bind_eq_some_iff.1 hspot
  rw [replace?_append hnode] at h
  obtain ⟨node', hnode', h⟩ := Option.bind_eq_some_iff.1 h
  exact ⟨node, node', follow?_of_spot? hnode, follow?_of_spot? (spot?_replace? h),
    .of_replace? hnode'⟩

/-! ## The laws -/

/-- `new` is the tree `t` with `value` in place of what was at the path `p`. -/
structure Replaces (value : Tree) (p : List Segment) (t new : Tree) : Prop where
  /-- The value is found at the path, unless it is null. -/
  found : new.lookup p = if value.isNull then none else some value
  /-- A path that differs at a position that both have leads to what it led to. -/
  elsewhere : ∀ (q : List Segment) (i : Nat) (a b : Segment), p[i]? = some a → q[i]? = some b →
    a ≠ b → new.lookup q = t.lookup q
  /-- Another value at the same path covers this one. -/
  again : ∀ value', replace? value' p new = replace? value' p t
  /-- Mappings on the way keep their keys in their order, and sequences their length. -/
  frame : ∀ lead s rest, p = lead ++ s :: rest → ∃ node node', t.follow? lead = some node ∧
    new.follow? lead = some node' ∧ SameFrame node node'

theorem Replaces.of_replace? (h : replace? value p t = some new) : Replaces value p t new where
  found := by
    rw [lookup, follow?_of_spot? (spot?_replace? h), Option.filter_some]
    cases value.isNull <;> rfl
  elsewhere _ _ _ _ ha hb hne := lookup_replace? h (.of_getElem? ha hb hne)
  again _ := replace?_replace? h
  frame _ _ _ hp := sameFrame_of_replace? (hp ▸ h)

/-- **Replacing is a lawful update.** Written in place, a value either is where the path leads and
changes nothing beside it, or the path leads nowhere and nothing at all has changed. -/
theorem replacement_is_lawful (value t : Tree) (p : List Segment) :
    match overwrite value p t with
    | (true, new) => replace? value p t = some new ∧ Replaces value p t new
    | (false, left) => replace? value p t = none ∧ left = t := by
  cases h : replace? value p t with
  | none => rw [overwrite_of_replace?_eq_none h]; exact ⟨rfl, rfl⟩
  | some new => rw [overwrite_of_replace? h]; exact ⟨rfl, .of_replace? h⟩

/-! ## What can be replaced -/

/-- On the way along the path an index meets a mapping. -/
def IndexMeetsMapping (t : Tree) (p : List Segment) : Prop :=
  ∃ lead i rest es, p = lead ++ .index i :: rest ∧ t.follow? lead = some (.map es)

theorem indexMeetsMapping_cons {s : Segment} {rest : List Segment} {next : Tree}
    (hstep : t.step? s = some next) :
    t.IndexMeetsMapping (s :: rest) ↔
      (∃ i es, s = .index i ∧ t = .map es) ∨ next.IndexMeetsMapping rest := by
  constructor
  · rintro ⟨lead, i, after, es, hp, hfollow⟩
    cases lead with
    | nil =>
      obtain ⟨rfl, -⟩ := List.cons_eq_cons.1 hp
      exact .inl ⟨i, es, rfl, Option.some_inj.1 hfollow⟩
    | cons s' lead =>
      obtain ⟨rfl, rfl⟩ := List.cons_eq_cons.1 hp
      rw [follow?, hstep, Option.bind_some] at hfollow
      exact .inr ⟨lead, i, after, es, rfl, hfollow⟩
  · rintro (⟨i, es, rfl, rfl⟩ | ⟨lead, i, after, es, rfl, hfollow⟩)
    · exact ⟨[], i, rest, es, rfl, rfl⟩
    · exact ⟨s :: lead, i, after, es, rfl, by rw [follow?, hstep, Option.bind_some, hfollow]⟩

/-- The step to a value that can be replaced is the step of a lookup, unless it is an index into a
mapping. -/
theorem spot?_cons {s : Segment} {rest : List Segment}
    (h : ¬ ∃ i es, s = .index i ∧ t = .map es) :
    spot? (s :: rest) t = (t.step? s).bind (spot? rest) := by
  cases s with
  | key name => cases t <;> rfl
  | index i =>
    cases t with
    | map es => exact absurd ⟨i, es, rfl, rfl⟩ h
    | _ => rfl

theorem isSome_spot?_iff :
    (spot? p t).isSome ↔ (t.follow? p).isSome ∧ ¬ t.IndexMeetsMapping p := by
  induction p generalizing t with
  | nil => simp [spot?, follow?, IndexMeetsMapping]
  | cons s rest ih =>
    by_cases hindex : ∃ i es, s = .index i ∧ t = .map es
    · obtain ⟨i, es, rfl, rfl⟩ := hindex
      exact iff_of_false Bool.false_ne_true fun h => h.2 ⟨[], i, rest, es, rfl, rfl⟩
    · rw [spot?_cons hindex, follow?]
      cases hstep : t.step? s with
      | none => exact iff_of_false Bool.false_ne_true fun h => Bool.false_ne_true h.1
      | some next =>
        rw [Option.bind_some, Option.bind_some, ih, indexMeetsMapping_cons hstep,
          or_iff_right hindex]

/-- A path leads to a value if a lookup finds it or if it is null. -/
theorem isSome_follow?_iff :
    (t.follow? p).isSome ↔ (t.lookup p).isSome ∨ ∃ v, t.follow? p = some v ∧ v.isNull = true := by
  rw [lookup]
  cases t.follow? p with
  | none => simp
  | some v => cases hnull : v.isNull <;> simp [hnull]

/-- **What is found can be replaced, but behind an index into a mapping.** A value can be put
wherever a lookup finds one, and besides only where the path ends in a null, as long as no index on
the way meets a mapping. Where one does, nothing can be put, although a lookup may take it for an
integer key. -/
theorem replaceable_iff_found (value t : Tree) (p : List Segment) :
    (replace? value p t).isSome ↔
      ((t.lookup p).isSome ∨ ∃ v, t.follow? p = some v ∧ v.isNull = true) ∧
        ¬ t.IndexMeetsMapping p := by
  rw [isSome_replace?, isSome_spot?_iff, isSome_follow?_iff]

/-- The value of an integer key is found and cannot be replaced. -/
example : lookup (.map [(.int 1, .str "a")]) [.index 1] = some (.str "a") ∧
    replace? (.str "b") [.index 1] (.map [(.int 1, .str "a")]) = none := ⟨rfl, rfl⟩

end Tree

end LayeredConfig
