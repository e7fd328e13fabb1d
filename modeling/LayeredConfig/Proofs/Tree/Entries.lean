import LayeredConfig.Tree.Flatten
import LayeredConfig.Tree.Lookup
import LayeredConfig.Tree.Merge

/-!
# Trees and their entries

Induction over trees, their equality, and where the results of `get?`, `put`, `erase`, `modify` come
from. Nothing here asks for the keys of a mapping to be different from each other.
-/

namespace LayeredConfig

namespace Tree

/-- Induction over trees, with the statement at hand for all items of a sequence and for all keys
and values of a mapping. -/
theorem induction {P : Tree → Prop} (null : P .null) (bool : ∀ b, P (.bool b))
    (int : ∀ i, P (.int i)) (float : ∀ x, P (.float x)) (str : ∀ s, P (.str s))
    (seq : ∀ items, (∀ t ∈ items, P t) → P (.seq items))
    (map : ∀ es, (∀ e ∈ es, P e.1 ∧ P e.2) → P (.map es))
    (tagged : ∀ tag t, P t → P (.tagged tag t)) : ∀ t, P t
  | .null => null
  | .bool b => bool b
  | .int i => int i
  | .float x => float x
  | .str s => str s
  | .seq items => seq items fun t ht =>
      have : sizeOf t < sizeOf items := List.sizeOf_lt_of_mem ht
      induction null bool int float str seq map tagged t
  | .map es => map es fun e he =>
      have : sizeOf e < sizeOf es := List.sizeOf_lt_of_mem he
      have : sizeOf e = 1 + sizeOf e.1 + sizeOf e.2 := by rcases e with ⟨k, v⟩; simp
      ⟨induction null bool int float str seq map tagged e.1,
        induction null bool int float str seq map tagged e.2⟩
  | .tagged tag t => tagged tag t (induction null bool int float str seq map tagged t)
termination_by t => sizeOf t
decreasing_by all_goals simp only [Tree.seq.sizeOf_spec, Tree.map.sizeOf_spec,
  Tree.tagged.sizeOf_spec]; omega

/-- Only a text is the same key as itself. -/
@[simp] theorem same_str {k : Tree} {s : String} : k.same (.str s) = true ↔ k = .str s := by
  cases k <;> simp [same]

@[simp] theorem same_str_eq_false {k : Tree} {s : String} :
    k.same (.str s) = false ↔ k ≠ .str s := by
  rw [← Bool.not_eq_true, same_str]

/-- A text is the same key as a tree that is that text. -/
@[simp] theorem str_same {k : Tree} {s : String} : (Tree.str s).same k = true ↔ k = .str s := by
  cases k with
  | str t => simpa [same] using eq_comm
  | _ => simp [same]

/-! ## Equality -/

mutual

/-- The trees are equal. -/
def beq : Tree → Tree → Bool
  | .null, .null => true
  | .bool a, .bool b => a == b
  | .int a, .int b => a == b
  | .float a, .float b => a == b
  | .str a, .str b => a == b
  | .seq as, .seq bs => beqItems as bs
  | .map as, .map bs => beqEntries as bs
  | .tagged s a, .tagged t b => s == t && beq a b
  | _, _ => false

/-- The same for lists of items. -/
def beqItems : List Tree → List Tree → Bool
  | [], [] => true
  | a :: as, b :: bs => beq a b && beqItems as bs
  | _, _ => false

/-- The same for lists of entries. -/
def beqEntries : List (Tree × Tree) → List (Tree × Tree) → Bool
  | [], [] => true
  | (k, a) :: as, (l, b) :: bs => beq k l && beq a b && beqEntries as bs
  | _, _ => false

end

theorem beq_iff {a b : Tree} : beq a b = true ↔ a = b := by
  induction a using Tree.induction generalizing b with
  | seq items ih =>
    cases b with
    | seq items' =>
      rw [beq, seq.injEq]
      induction items generalizing items' with
      | nil => cases items' <;> simp [beqItems]
      | cons t rest ihRest =>
        cases items' with
        | nil => simp [beqItems]
        | cons t' rest' =>
          rw [beqItems, Bool.and_eq_true, ih t List.mem_cons_self,
            ihRest fun t ht => ih t (List.mem_cons_of_mem _ ht), List.cons.injEq]
    | _ => simp [beq]
  | map es ih =>
    cases b with
    | map es' =>
      rw [beq, map.injEq]
      induction es generalizing es' with
      | nil => cases es' <;> simp [beqEntries]
      | cons e rest ihRest =>
        obtain ⟨k, v⟩ := e
        cases es' with
        | nil => simp [beqEntries]
        | cons e' rest' =>
          obtain ⟨hk, hv⟩ := ih (k, v) List.mem_cons_self
          rw [beqEntries, Bool.and_eq_true, Bool.and_eq_true, hk, hv,
            ihRest fun e he => ih e (List.mem_cons_of_mem _ he), List.cons.injEq, Prod.ext_iff]
    | _ => simp [beq]
  | tagged tag t ih =>
    cases b with
    | tagged tag' t' => rw [beq, Bool.and_eq_true, beq_iff_eq, ih, tagged.injEq]
    | _ => simp [beq]
  | _ => cases b <;> simp [beq]

instance : DecidableEq Tree := fun _ _ => decidable_of_iff _ beq_iff

end Tree

namespace Entries

/-- What is found under a key is the value of an entry whose key is the same. -/
theorem mem_of_get? {es : Entries} {key v : Tree} (h : get? es key = some v) :
    ∃ k, (k, v) ∈ es ∧ k.same key = true := by
  rw [get?, Option.map_eq_some_iff] at h
  obtain ⟨⟨k, v'⟩, hfind, rfl⟩ := h
  have hsame := List.find?_some hfind
  exact ⟨k, List.mem_of_find?_eq_some hfind, hsame⟩

theorem get?_eq_none {es : Entries} {key : Tree} :
    get? es key = none ↔ ∀ e ∈ es, e.1.same key = false := by
  simp [get?, Option.map_eq_none_iff]

theorem has_eq_isSome (es : Entries) (key : Tree) : has es key = (get? es key).isSome := by
  rw [Bool.eq_iff_iff, get?, Option.isSome_map, List.find?_isSome, has, List.any_eq_true]

/-- Under a text key, an entry with that very key is found. -/
theorem has_str {es : Entries} {s : String} :
    has es (.str s) = true ↔ ∃ v, (Tree.str s, v) ∈ es := by
  simp only [has, List.any_eq_true, Prod.exists, Tree.same_str]
  constructor
  · rintro ⟨k, v, h, rfl⟩
    exact ⟨v, h⟩
  · rintro ⟨v, h⟩
    exact ⟨_, v, h, rfl⟩

theorem mem_erase {es : Entries} {key : Tree} {e : Tree × Tree} :
    e ∈ erase es key ↔ e ∈ es ∧ e.1.same key = false := by
  simp [erase]

/-- There is nothing to remove. -/
theorem erase_of_has {es : Entries} {key : Tree} (h : has es key = false) : erase es key = es := by
  rw [erase, List.filter_eq_self]
  intro e he
  rw [has, List.any_eq_false] at h
  simpa using h e he

/-- An entry after a value was put under a key is an old one, or has the value under a key that is
the same or is the key itself. -/
theorem mem_put {es : Entries} {key value : Tree} {e : Tree × Tree} (h : e ∈ put es key value) :
    e ∈ es ∨ e.2 = value ∧ (e.1 = key ∨ e.1.same key = true ∧ ∃ v, (e.1, v) ∈ es) := by
  induction es with
  | nil =>
    simp only [put, List.mem_singleton] at h
    exact .inr (by simp [h])
  | cons first rest ih =>
    obtain ⟨k, v⟩ := first
    simp only [put] at h
    split at h
    next hsame =>
      rcases List.mem_cons.1 h with rfl | h
      · exact .inr ⟨rfl, .inr ⟨hsame, v, by simp⟩⟩
      · exact .inl (List.mem_cons_of_mem _ h)
    next =>
      rcases List.mem_cons.1 h with rfl | h
      · exact .inl (by simp)
      · rcases ih h with h | ⟨hv, hk | ⟨hk, v', hmem⟩⟩
        · exact .inl (List.mem_cons_of_mem _ h)
        · exact .inr ⟨hv, .inl hk⟩
        · exact .inr ⟨hv, .inr ⟨hk, v', List.mem_cons_of_mem _ hmem⟩⟩

/-- An entry after the value under a key was changed is an old one, or has the new value under a key
that is the same. -/
theorem mem_modify {f : Tree → Tree} {es : Entries} {key : Tree} {e : Tree × Tree}
    (h : e ∈ modify f es key) :
    e ∈ es ∨ e.1.same key = true ∧ ∃ v, (e.1, v) ∈ es ∧ e.2 = f v := by
  induction es with
  | nil => simp [modify] at h
  | cons first rest ih =>
    obtain ⟨k, v⟩ := first
    simp only [modify] at h
    split at h
    next hsame =>
      rcases List.mem_cons.1 h with rfl | h
      · exact .inr ⟨hsame, v, by simp, rfl⟩
      · exact .inl (List.mem_cons_of_mem _ h)
    next =>
      rcases List.mem_cons.1 h with rfl | h
      · exact .inl (by simp)
      · rcases ih h with h | ⟨hk, v', hmem, hv⟩
        · exact .inl (List.mem_cons_of_mem _ h)
        · exact .inr ⟨hk, v', List.mem_cons_of_mem _ hmem, hv⟩

end Entries

/-! ## Equations of merging -/

namespace Tree

@[simp] theorem merge_map_map (below above : Entries) :
    merge (.map below) (.map above) = .map (mergeEntries below above) := by rw [merge]

/-- Only a mapping and a mapping over it are put together. -/
theorem merge_eq_overlay {base overlay : Tree}
    (h : ∀ below above, base = .map below → overlay ≠ .map above) :
    merge base overlay = overlay := by
  cases overlay with
  | map above =>
    cases base with
    | map below => exact absurd rfl (h below above rfl)
    | _ => simp [merge]
  | _ => simp [merge]

theorem merge_of_not_map {base overlay : Tree} (h : ∀ es, overlay ≠ .map es) :
    merge base overlay = overlay := merge_eq_overlay fun _ above _ => h above

theorem merge_map_of_not_map {base : Tree} {above : Entries} (h : ∀ es, base ≠ .map es) :
    merge base (.map above) = .map above :=
  merge_eq_overlay fun below _ hbase => absurd hbase (h below)

@[simp] theorem mergeEntries_nil (below : Entries) : mergeEntries below [] = below := by
  rw [mergeEntries]

/-- What a value becomes that is laid over the value under its key, if there is one. -/
def laidOver (below : Entries) (key value : Tree) : Tree :=
  match Entries.get? below key with
  | some existing => merge existing value
  | none => value

theorem laidOver_congr {below below' : Entries} {key key' : Tree}
    (h : Entries.get? below key = Entries.get? below' key') (value : Tree) :
    laidOver below key value = laidOver below' key' value := by rw [laidOver, laidOver, h]

theorem mergeEntries_cons (below : Entries) (key value : Tree) (rest : Entries) :
    mergeEntries below ((key, value) :: rest) =
      mergeEntries (Entries.put below key (laidOver below key value)) rest := by
  rw [mergeEntries, laidOver]
  cases Entries.get? below key <;> rfl

/-- The entries of a mapping; none of anything else. -/
def entries : Tree → Entries
  | .map es => es
  | _ => []

private theorem foldl_eq_mergeEntries (below own : Entries) :
    own.foldl (fun merged (key, value) =>
      match Entries.get? merged key with
      | some existing =>
        if existing.isMapping && value.isMapping then Entries.put merged key (merge existing value)
        else Entries.put merged key value
      | none => Entries.put merged key value) below = mergeEntries below own := by
  induction own generalizing below with
  | nil => simp
  | cons e rest ih =>
    obtain ⟨key, value⟩ := e
    rw [List.foldl_cons, mergeEntries_cons, ih, laidOver]
    dsimp only
    cases hget : Entries.get? below key with
    | none => rfl
    | some existing =>
      dsimp only
      split
      · rfl
      next h =>
        -- two plain mappings would both be mappings
        rw [merge_eq_overlay]
        rintro inner above rfl rfl
        exact h rfl

/-- Placing a base beneath a mapping is laying the mapping over the base. -/
theorem underlay_eq_mergeEntries (base : Tree) (own : Entries) :
    underlay base own = mergeEntries base.entries own := by
  unfold underlay
  cases base <;> exact foldl_eq_mergeEntries _ own

/-! ## Equations of flattening -/

@[simp] theorem flatten_zero (sep : String) (t : Tree) : t.flatten sep 0 = t := by
  cases t <;> simp [flatten]

theorem flatten_of_not_map {t : Tree} (h : ∀ es, t ≠ .map es) (sep : String) (depth : Nat) :
    t.flatten sep depth = t := by
  cases t with
  | map es => exact absurd rfl (h es)
  | _ => simp [flatten]

/-- Flattening makes a mapping of a mapping, and of nothing else. -/
theorem flatten_eq_map {t : Tree} {sep : String} {depth : Nat} {es : Entries}
    (h : t.flatten sep depth = .map es) : ∃ es', t = .map es' := by
  cases t with
  | map es' => exact ⟨es', rfl⟩
  | _ => simp [flatten] at h

theorem flatten_map_succ (sep : String) (depth : Nat) (es : Entries) :
    (Tree.map es).flatten sep (depth + 1) = .map (flattenInto sep depth [] es) := by
  rw [flatten]

end Tree

end LayeredConfig
