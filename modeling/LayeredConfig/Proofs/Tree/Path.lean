import LayeredConfig.Proofs.Tree.WellFormed

/-!
# Paths into merged trees

`at?` follows the keys of plain mappings and the indices of plain sequences. What is found in a
merged tree is what the overlay has, or what the base has where the overlay does not cover it. A
tree covers a path of keys if it has anything at the path, or something other than a mapping on the
way to it.
-/

namespace LayeredConfig

namespace Tree

/-- A step into a tree. -/
inductive Step where
  /-- To the value of a key. -/
  | value (key : Tree)
  | item (i : Nat)

/-- The value at the end of a path; a tag is not looked through. -/
def at? : Tree → List Step → Option Tree
  | t, [] => some t
  | .map es, .value key :: rest => (Entries.get? es key).bind fun v => at? v rest
  | .seq items, .item i :: rest => items[i]?.bind fun v => at? v rest
  | _, _ :: _ => none

@[simp] theorem at?_nil (t : Tree) : t.at? [] = some t := by cases t <;> rfl

@[simp] theorem at?_map (es : Entries) (key : Tree) (rest : List Step) :
    (Tree.map es).at? (.value key :: rest) =
      (Entries.get? es key).bind fun v => v.at? rest := rfl

@[simp] theorem at?_seq (items : List Tree) (i : Nat) (rest : List Step) :
    (Tree.seq items).at? (.item i :: rest) = items[i]?.bind fun v => v.at? rest := rfl

/-- Only a mapping has something under a key. -/
theorem map_of_at? {t v : Tree} {key : Tree} {rest : List Step}
    (h : t.at? (.value key :: rest) = some v) :
    ∃ es u, t = .map es ∧ Entries.get? es key = some u ∧ u.at? rest = some v := by
  cases t with
  | map es =>
    obtain ⟨u, hget, hu⟩ := Option.bind_eq_some_iff.1 h
    exact ⟨es, u, rfl, hget, hu⟩
  | _ => simp [at?] at h

/-- Only a sequence has something under an index. -/
theorem seq_of_at? {t v : Tree} {i : Nat} {rest : List Step}
    (h : t.at? (.item i :: rest) = some v) :
    ∃ items u, t = .seq items ∧ items[i]? = some u ∧ u.at? rest = some v := by
  cases t with
  | seq items =>
    obtain ⟨u, hget, hu⟩ := Option.bind_eq_some_iff.1 h
    exact ⟨items, u, rfl, hget, hu⟩
  | _ => simp [at?] at h

theorem at?_append (t : Tree) (path rest : List Step) :
    t.at? (path ++ rest) = (t.at? path).bind fun v => v.at? rest := by
  induction path generalizing t with
  | nil => simp
  | cons s path ih =>
    cases s with
    | value key =>
      cases t with
      | map es =>
        rw [List.cons_append, at?_map, at?_map, Option.bind_assoc]
        exact congrArg _ (funext ih)
      | _ => rfl
    | item i =>
      cases t with
      | seq items =>
        rw [List.cons_append, at?_seq, at?_seq, Option.bind_assoc]
        exact congrArg _ (funext ih)
      | _ => rfl

theorem WellFormed.at? {t v : Tree} (ht : t.WellFormed) {path : List Step}
    (h : t.at? path = some v) : v.WellFormed := by
  induction path generalizing t with
  | nil =>
    rw [at?_nil, Option.some_inj] at h
    rwa [← h]
  | cons s rest ih =>
    cases s with
    | value key =>
      obtain ⟨es, u, rfl, hget, hu⟩ := map_of_at? h
      exact ih (ht.of_get? hget) hu
    | item i =>
      obtain ⟨items, u, rfl, hget, hu⟩ := seq_of_at? h
      exact ih (wellFormed_seq.1 ht u (List.mem_of_getElem? hget)) hu

end Tree

/-! ## Merged entries -/

namespace Entries

open Tree

/-- What is found in merged entries: what the overlay has, laid over what the base has there, or
else what the base has. -/
theorem get?_mergeEntries {below above : Entries} (hbelow : ∀ e ∈ below, e.1.WellFormed)
    (hdistinct : Distinct above) (habove : ∀ e ∈ above, e.1.WellFormed) (k : Tree) :
    get? (mergeEntries below above) k =
      match get? above k with
      | some v => some (laidOver below k v)
      | none => get? below k := by
  induction above generalizing below with
  | nil => rw [mergeEntries_nil, get?_nil]
  | cons e rest ih =>
    obtain ⟨key, value⟩ := e
    obtain ⟨hfirst, hrest⟩ := List.pairwise_cons.1 hdistinct
    have hkey : key.WellFormed := habove _ List.mem_cons_self
    have hput : ∀ e ∈ put below key (laidOver below key value), e.1.WellFormed := by
      intro e he
      rcases mem_put he with hold | ⟨-, hk | ⟨-, v, hk⟩⟩
      · exact hbelow e hold
      · rwa [hk]
      · exact hbelow (e.1, v) hk
    rw [mergeEntries_cons, ih hput hrest fun e he => habove e (List.mem_cons_of_mem _ he),
      get?_cons]
    by_cases hsame : key.same k = true
    · -- the key is found here, and so not in what follows
      have hnone : get? rest k = none := by
        rw [get?_eq_none]
        intro e he
        rw [Bool.eq_false_iff]
        intro hek
        have hback := same_symm (habove e (List.mem_cons_of_mem _ he)) hek
        have := hfirst e he
        rw [same_trans hsame hback] at this
        cases this
      rw [hnone, if_pos hsame]
      dsimp only
      rw [get?_put hbelow hkey, if_pos hsame, laidOver_congr (get?_congr hkey hsame)]
    · rw [if_neg hsame]
      have hget : get? (put below key (laidOver below key value)) k = get? below k := by
        rw [get?_put hbelow hkey, if_neg hsame]
      cases get? rest k with
      | none => exact hget
      | some v => exact congrArg some (laidOver_congr hget v)

/-- What was put under a text is found there. -/
theorem get?_put_str (es : Entries) (name : String) (value : Tree) :
    get? (put es (.str name) value) (.str name) = some value := by
  induction es with
  | nil => rw [put, get?_cons, if_pos (same_str.2 rfl)]
  | cons e rest ih =>
    obtain ⟨key, old⟩ := e
    rw [put]
    split
    next hsame => rw [get?_cons, if_pos hsame]
    next hsame => rw [get?_cons, if_neg hsame, ih]

theorem get?_put_of_ne_str {key : Tree} {name : String} (hkey : key ≠ .str name) (es : Entries)
    (value : Tree) : get? (put es key value) (.str name) = get? es (.str name) := by
  induction es with
  | nil => rw [put, get?_cons, if_neg (by simpa using hkey)]
  | cons e rest ih =>
    obtain ⟨k, old⟩ := e
    rw [put]
    split
    next hsame =>
      have hk : k ≠ .str name := by
        rintro rfl
        exact hkey (str_same.1 hsame)
      rw [get?_cons, get?_cons, if_neg (by simpa using hk), if_neg (by simpa using hk)]
    next hsame => rw [get?_cons, get?_cons, ih]

/-- Under a text that the overlay has one text for, and that is there on either side, that text
stands in the end; the base may be any entries. -/
theorem get?_mergeEntries_str {name text : String} {below above : Entries}
    (habove : ∀ e ∈ above, e.1 = .str name → e.2 = .str text)
    (hhas : get? above (.str name) = some (.str text) ∨
      get? below (.str name) = some (.str text)) :
    get? (mergeEntries below above) (.str name) = some (.str text) := by
  induction above generalizing below with
  | nil =>
    rw [mergeEntries_nil]
    exact hhas.resolve_left (by simp [get?_nil])
  | cons e rest ih =>
    obtain ⟨key, value⟩ := e
    obtain ⟨hfirst, hrest⟩ := List.forall_mem_cons.1 habove
    rw [mergeEntries_cons]
    refine ih hrest ?_
    by_cases hkey : key = .str name
    · obtain rfl : value = .str text := hfirst hkey
      have hlaid : laidOver below key (.str text) = .str text := by
        rw [laidOver]
        split
        · rw [merge_of_not_map (by simp)]
        · rfl
      rw [hlaid, hkey]
      exact .inr (get?_put_str below name _)
    · rw [get?_cons, if_neg (by simpa using hkey)] at hhas
      rwa [get?_put_of_ne_str hkey]

end Entries

namespace Tree

theorem get?_mergeEntries_above {below above : Entries} (hbelow : WellFormed (.map below))
    (habove : WellFormed (.map above)) {k v : Tree} (h : Entries.get? above k = some v) :
    Entries.get? (mergeEntries below above) k = some (laidOver below k v) := by
  rw [Entries.get?_mergeEntries (fun e he => ((wellFormed_map.1 hbelow).2 e he).1)
    (wellFormed_map.1 habove).1 (fun e he => ((wellFormed_map.1 habove).2 e he).1), h]

theorem get?_mergeEntries_below {below above : Entries} (hbelow : WellFormed (.map below))
    (habove : WellFormed (.map above)) {k : Tree} (h : Entries.get? above k = none) :
    Entries.get? (mergeEntries below above) k = Entries.get? below k := by
  rw [Entries.get?_mergeEntries (fun e he => ((wellFormed_map.1 hbelow).2 e he).1)
    (wellFormed_map.1 habove).1 (fun e he => ((wellFormed_map.1 habove).2 e he).1), h]

/-! ## Covered paths -/

/-- The tree has something at the path, or something other than a plain mapping on the way to it. -/
def Covers : Tree → List Tree → Prop
  | _, [] => True
  | .map es, key :: rest => ∃ v, Entries.get? es key = some v ∧ Covers v rest
  | _, _ :: _ => True

/-- The path of some keys. -/
abbrev keyPath (keys : List Tree) : List Step := keys.map Step.value

theorem covers_of_at? {t v : Tree} {keys : List Tree} (h : t.at? (keyPath keys) = some v) :
    t.Covers keys := by
  induction keys generalizing t with
  | nil => cases t <;> trivial
  | cons key rest ih =>
    obtain ⟨es, u, rfl, hget, hu⟩ := map_of_at? h
    exact ⟨u, hget, ih hu⟩

/-- A tree that does not cover a path is a mapping, and so are all the values it has on the way. -/
theorem not_covers_cons {t : Tree} {key : Tree} {rest : List Tree}
    (h : ¬ t.Covers (key :: rest)) :
    ∃ es, t = .map es ∧ ∀ v, Entries.get? es key = some v → ¬ v.Covers rest := by
  cases t with
  | map es => exact ⟨es, rfl, fun v hget hcovers => h ⟨v, hget, hcovers⟩⟩
  | _ => exact absurd trivial h

/-- What the base has where the overlay does not cover it is found in the merged tree. -/
theorem at?_merge_of_not_covers {base overlay v : Tree} (hbase : base.WellFormed)
    (hoverlay : overlay.WellFormed) {keys : List Tree} (hcovers : ¬ overlay.Covers keys)
    (h : base.at? (keyPath keys) = some v) :
    (base.merge overlay).at? (keyPath keys) = some v := by
  induction keys generalizing base overlay with
  | nil => exact absurd (by cases overlay <;> trivial) hcovers
  | cons key rest ih =>
    obtain ⟨above, rfl, hunder⟩ := not_covers_cons hcovers
    obtain ⟨below, u, rfl, hget, hu⟩ := map_of_at? h
    rw [merge_map_map]
    change (Tree.map _).at? (.value key :: keyPath rest) = some v
    rw [at?_map, Option.bind_eq_some_iff]
    cases habove : Entries.get? above key with
    | none => exact ⟨u, by rw [get?_mergeEntries_below hbase hoverlay habove, hget], hu⟩
    | some w =>
      refine ⟨_, get?_mergeEntries_above hbase hoverlay habove, ?_⟩
      rw [laidOver, hget]
      exact ih (hbase.of_get? hget) (hoverlay.of_get? habove) (hunder w habove) hu

/-- A merged tree covers no more than the two together. -/
theorem Covers.of_merge {base overlay : Tree} (hbase : base.WellFormed)
    (hoverlay : overlay.WellFormed) {keys : List Tree} (h : (base.merge overlay).Covers keys) :
    base.Covers keys ∨ overlay.Covers keys := by
  induction keys generalizing base overlay with
  | nil => exact .inl (by cases base <;> trivial)
  | cons key rest ih =>
    cases overlay with
    | map above =>
      cases base with
      | map below =>
        rw [merge_map_map] at h
        obtain ⟨v, hget, hv⟩ := h
        cases habove : Entries.get? above key with
        | none =>
          rw [get?_mergeEntries_below hbase hoverlay habove] at hget
          exact .inl ⟨v, hget, hv⟩
        | some w =>
          rw [get?_mergeEntries_above hbase hoverlay habove, Option.some_inj, laidOver] at hget
          cases hbelow : Entries.get? below key with
          | none =>
            rw [hbelow] at hget
            dsimp only at hget
            exact .inr ⟨w, habove, hget ▸ hv⟩
          | some u =>
            rw [hbelow] at hget
            dsimp only at hget
            rcases ih (hbase.of_get? hbelow) (hoverlay.of_get? habove) (hget ▸ hv) with hu | hw
            · exact .inl ⟨u, hbelow, hu⟩
            · exact .inr ⟨w, habove, hw⟩
      | _ => exact .inl trivial
    | _ => exact .inr trivial

/-- What is placed beneath a mapping is found where the mapping does not cover it. -/
theorem at?_underlay {base v : Tree} {own : Entries} (hbase : base.WellFormed)
    (hown : WellFormed (.map own)) {keys : List Tree} (hcovers : ¬ (Tree.map own).Covers keys)
    (h : base.at? (keyPath keys) = some v) :
    (Tree.map (underlay base own)).at? (keyPath keys) = some v := by
  cases keys with
  | nil => exact absurd trivial hcovers
  | cons key rest =>
    obtain ⟨below, u, rfl, -⟩ := map_of_at? h
    rw [underlay_eq_mergeEntries, ← merge_map_map]
    exact at?_merge_of_not_covers hbase hown hcovers h

theorem Covers.of_underlay {base : Tree} {own : Entries} (hbase : base.WellFormed)
    (hown : WellFormed (.map own)) {keys : List Tree}
    (h : (Tree.map (underlay base own)).Covers keys) :
    base.Covers keys ∨ (Tree.map own).Covers keys := by
  rw [underlay_eq_mergeEntries, ← merge_map_map] at h
  refine (Covers.of_merge hbase.entries hown h).imp_left fun hbelow => ?_
  cases base with
  | map below => exact hbelow
  | _ => cases keys <;> trivial

/-- What is placed beneath a mapping leaves a key alone that it does not have. -/
theorem get?_underlay {base : Tree} {own : Entries} (hbase : base.WellFormed)
    (hown : WellFormed (.map own)) {key : Tree} (h : ¬ base.Covers [key]) :
    Entries.get? (underlay base own) key = Entries.get? own key := by
  obtain ⟨below, rfl, hunder⟩ := not_covers_cons h
  have hbelow : Entries.get? below key = none := by
    cases hget : Entries.get? below key with
    | none => rfl
    | some v => exact absurd (by cases v <;> trivial) (hunder v hget)
  rw [underlay_eq_mergeEntries, entries]
  cases hget : Entries.get? own key with
  | none => rw [get?_mergeEntries_below hbase hown hget, hbelow]
  | some v => rw [get?_mergeEntries_above hbase hown hget, laidOver, hbelow]

theorem Covers.of_erase {es : Entries} {name : String} {key : Tree} {rest : List Tree}
    (hkey : key ≠ .str name) (h : (Tree.map (Entries.erase es (.str name))).Covers (key :: rest)) :
    (Tree.map es).Covers (key :: rest) := by
  obtain ⟨v, hget, hv⟩ := h
  rw [Entries.get?_erase hkey] at hget
  exact ⟨v, hget, hv⟩

end Tree

end LayeredConfig
