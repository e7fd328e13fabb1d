import LayeredConfig.Proofs.Tree.Entries

/-!
# What holds of all entries of a tree

`Everywhere R t` says that every entry of every mapping in `t` satisfies `R`, where what is under a
tag or in a key does not count. The operations that resolution is made of (merging, flattening,
looking up, replacing) keep such a property, if it is `Layered`: it looks at a key only as far as
`same` does, and what is merged from two good values is good.
-/

namespace LayeredConfig

namespace Tree

mutual

/-- Every entry of every mapping in the tree, outside of tags and keys, satisfies `R`. -/
def Everywhere (R : Tree → Tree → Prop) : Tree → Prop
  | .map es => EverywhereEntries R es
  | .seq items => EverywhereItems R items
  | _ => True

/-- The entries and everything in their values satisfy `R`. -/
def EverywhereEntries (R : Tree → Tree → Prop) : List (Tree × Tree) → Prop
  | [] => True
  | (k, v) :: rest => (R k v ∧ Everywhere R v) ∧ EverywhereEntries R rest

/-- Everything in the items satisfies `R`. -/
def EverywhereItems (R : Tree → Tree → Prop) : List Tree → Prop
  | [] => True
  | t :: rest => Everywhere R t ∧ EverywhereItems R rest

end

variable {R : Tree → Tree → Prop}

theorem everywhere_map {es : Entries} :
    Everywhere R (.map es) ↔ ∀ e ∈ es, R e.1 e.2 ∧ Everywhere R e.2 := by
  rw [Everywhere]
  induction es with
  | nil => simp [EverywhereEntries]
  | cons e rest ih => rw [EverywhereEntries, ih, List.forall_mem_cons]

theorem everywhere_seq {items : List Tree} :
    Everywhere R (.seq items) ↔ ∀ t ∈ items, Everywhere R t := by
  rw [Everywhere]
  induction items with
  | nil => simp [EverywhereItems]
  | cons t rest ih => rw [EverywhereItems, ih, List.forall_mem_cons]

mutual

/-- Whether something holds of all entries can be found out if it can for each of them. -/
def decidableEverywhere [∀ k v, Decidable (R k v)] : ∀ t, Decidable (Everywhere R t)
  | .map es => decidableEverywhereEntries es
  | .seq items => decidableEverywhereItems items
  | .null | .bool _ | .int _ | .float _ | .str _ | .tagged _ _ => .isTrue trivial

/-- The same for a list of entries. -/
def decidableEverywhereEntries [∀ k v, Decidable (R k v)] :
    ∀ es, Decidable (EverywhereEntries R es)
  | [] => .isTrue trivial
  | (k, v) :: rest =>
    have := decidableEverywhere v
    have := decidableEverywhereEntries rest
    inferInstanceAs (Decidable ((R k v ∧ Everywhere R v) ∧ EverywhereEntries R rest))

/-- The same for a list of items. -/
def decidableEverywhereItems [∀ k v, Decidable (R k v)] :
    ∀ items, Decidable (EverywhereItems R items)
  | [] => .isTrue trivial
  | t :: rest =>
    have := decidableEverywhere t
    have := decidableEverywhereItems rest
    inferInstanceAs (Decidable (Everywhere R t ∧ EverywhereItems R rest))

end

instance [∀ k v, Decidable (R k v)] (t : Tree) : Decidable (Everywhere R t) :=
  decidableEverywhere t

theorem everywhere_empty : Everywhere R .empty := by simp [Tree.empty, everywhere_map]

theorem Everywhere.mono {R' : Tree → Tree → Prop} (h : ∀ k v, R k v → R' k v) (t : Tree) :
    Everywhere R t → Everywhere R' t := by
  induction t using Tree.induction with
  | seq items ih =>
    rw [everywhere_seq, everywhere_seq]
    exact fun ht t hmem => ih t hmem (ht t hmem)
  | map es ih =>
    rw [everywhere_map, everywhere_map]
    exact fun ht e hmem => ⟨h _ _ (ht e hmem).1, (ih e hmem).2 (ht e hmem).2⟩
  | _ => exact fun _ => trivial

/-- What is found under a key of a good mapping is good. -/
theorem Everywhere.of_get? {es : Entries} {key v : Tree} (h : Everywhere R (.map es))
    (hv : Entries.get? es key = some v) : Everywhere R v := by
  obtain ⟨k, hmem, -⟩ := Entries.mem_of_get? hv
  exact (everywhere_map.1 h _ hmem).2

theorem Everywhere.erase {es : Entries} (h : Everywhere R (.map es)) (key : Tree) :
    Everywhere R (.map (Entries.erase es key)) := by
  rw [everywhere_map] at h ⊢
  exact fun e he => h e (Entries.mem_erase.1 he).1

/-! ## Merging -/

/-- A property of entries that merging keeps. -/
structure Layered (R : Tree → Tree → Prop) : Prop where
  /-- An old key that is the same as the new one takes over its value. -/
  respell : ∀ {k key v old}, k.same key = true → R k old → R key v → R k v
  merged : ∀ {key below above}, R key above → R key (merge below above)

/-- Putting a good value under a key of a good mapping. -/
theorem Everywhere.put {es : Entries} {key value : Tree} (hR : Layered R)
    (h : Everywhere R (.map es)) (hkey : R key value) (hvalue : Everywhere R value) :
    Everywhere R (.map (Entries.put es key value)) := by
  rw [everywhere_map] at h ⊢
  intro e he
  rcases Entries.mem_put he with hold | ⟨hv, hk | ⟨hk, hold⟩⟩
  · exact h e hold
  · rw [hv, hk]
    exact ⟨hkey, hvalue⟩
  · obtain ⟨old, hold⟩ := hold
    rw [hv]
    exact ⟨hR.respell hk (h _ hold).1 hkey, hvalue⟩

theorem Everywhere.mergeEntries (hR : Layered R) {above : Entries}
    (habove : Everywhere R (.map above))
    (hmerge : ∀ e ∈ above, ∀ {base : Tree}, Everywhere R base → Everywhere R (base.merge e.2)) :
    ∀ {below : Entries}, Everywhere R (.map below) →
      Everywhere R (.map (Tree.mergeEntries below above)) := by
  induction above with
  | nil => exact fun hbelow => by rwa [mergeEntries_nil]
  | cons e rest ih =>
    intro below hbelow
    obtain ⟨key, value⟩ := e
    obtain ⟨⟨hkey, hvalue⟩, hrest⟩ := List.forall_mem_cons.1 (everywhere_map.1 habove)
    rw [mergeEntries_cons]
    refine ih (everywhere_map.2 hrest) (fun e he => hmerge e (List.mem_cons_of_mem _ he)) ?_
    unfold laidOver
    cases hget : Entries.get? below key with
    | none => exact hbelow.put hR hkey hvalue
    | some existing =>
      exact hbelow.put hR (hR.merged hkey) (hmerge _ List.mem_cons_self (hbelow.of_get? hget))

/-- Merging keeps a property of all entries. -/
theorem Everywhere.merge (hR : Layered R) {base overlay : Tree} (hbase : Everywhere R base)
    (hoverlay : Everywhere R overlay) : Everywhere R (base.merge overlay) := by
  induction overlay using Tree.induction generalizing base with
  | map above ih =>
    cases base with
    | map below =>
      rw [merge_map_map]
      refine Everywhere.mergeEntries hR hoverlay (fun e he base hb => ?_) hbase
      exact (ih e he).2 hb (everywhere_map.1 hoverlay e he).2
    | _ =>
      rw [merge_map_of_not_map (by simp)]
      exact hoverlay
  | _ =>
    rw [merge_of_not_map (by simp)]
    exact hoverlay

/-- Placing a good base beneath a good mapping. -/
theorem Everywhere.underlay (hR : Layered R) {base : Tree} {own : Entries}
    (hbase : Everywhere R base) (hown : Everywhere R (.map own)) :
    Everywhere R (.map (Tree.underlay base own)) := by
  rw [underlay_eq_mergeEntries]
  refine hown.mergeEntries hR (fun e he _ hb => hb.merge hR (everywhere_map.1 hown e he).2) ?_
  cases base with
  | map below => exact hbase
  | _ => exact everywhere_empty

/-! ## Flattening -/

theorem Everywhere.joinInto (hR : Layered R) {sep : String}
    (hjoined : ∀ lead inner v, R (.str (lead ++ sep ++ inner)) v) {inner : Entries}
    (hinner : Everywhere R (.map inner)) {flat : Entries} (hflat : Everywhere R (.map flat))
    (lead : String) : Everywhere R (.map (Tree.joinInto flat lead sep inner)) := by
  rw [Tree.joinInto]
  induction inner generalizing flat with
  | nil => exact hflat
  | cons e rest ih =>
    obtain ⟨⟨-, hvalue⟩, hrest⟩ := List.forall_mem_cons.1 (everywhere_map.1 hinner)
    exact ih (everywhere_map.2 hrest) (hflat.put hR (hjoined _ _ _) hvalue)

/-- Flattening keeps a property of all entries that holds of joined keys whatever their values. -/
theorem Everywhere.flatten (hR : Layered R) {sep : String}
    (hjoined : ∀ lead inner v, R (.str (lead ++ sep ++ inner)) v) {t : Tree}
    (ht : Everywhere R t) (depth : Nat) : Everywhere R (t.flatten sep depth) := by
  induction t using Tree.induction generalizing depth with
  | map es ih =>
    cases depth with
    | zero => rwa [flatten_zero]
    | succ depth =>
      rw [flatten_map_succ]
      suffices h : ∀ flat, Everywhere R (.map flat) →
          Everywhere R (.map (flattenInto sep depth flat es)) from h [] everywhere_empty
      induction es with
      | nil => exact fun flat hflat => by rwa [flattenInto]
      | cons e rest ihRest =>
        intro flat hflat
        obtain ⟨key, value⟩ := e
        obtain ⟨⟨hkey, hvalue⟩, hrest⟩ := List.forall_mem_cons.1 (everywhere_map.1 ht)
        have hbelow := (ih _ List.mem_cons_self).2 hvalue depth
        have hnext := ihRest (fun e he => ih e (List.mem_cons_of_mem _ he)) (everywhere_map.2 hrest)
        rw [flattenInto]
        split
        next below hflatten =>
          rw [hflatten] at hbelow
          exact hnext _ (Everywhere.joinInto hR hjoined hbelow hflat _)
        next hnot =>
          -- what is not a mapping after flattening was not one before
          have hvalueNot : ∀ es, value ≠ .map es := by
            rintro es rfl
            cases depth with
            | zero => exact hnot es (flatten_zero _ _)
            | succ depth => exact hnot _ (flatten_map_succ _ _ _)
          rw [flatten_of_not_map hvalueNot]
          exact hnext _ (hflat.put hR hkey hvalue)
  | _ => rwa [flatten_of_not_map (by simp)]

/-! ## Looking up and replacing -/

theorem Everywhere.follow? {t v : Tree} (ht : Everywhere R t) {path : List Segment}
    (h : t.follow? path = some v) : Everywhere R v := by
  induction path generalizing t with
  | nil =>
    rw [Tree.follow?, Option.some_inj] at h
    rwa [← h]
  | cons s rest ih =>
    rw [Tree.follow?, Option.bind_eq_some_iff] at h
    obtain ⟨next, hstep, h⟩ := h
    refine ih ?_ h
    cases t with
    | map es => cases s <;> exact ht.of_get? hstep
    | seq items =>
      cases s with
      | key name => simp [step?] at hstep
      | index i => exact everywhere_seq.1 ht _ (List.mem_of_getElem? hstep)
    | _ => simp [step?] at hstep

theorem Everywhere.lookup {t v : Tree} (ht : Everywhere R t) {path : List Segment}
    (h : t.lookup path = some v) : Everywhere R v := by
  rw [Tree.lookup, Option.filter_eq_some_iff] at h
  exact ht.follow? h.1

/-- Putting a good mapping where a path leads, if the property always holds of mappings and
sequences themselves. -/
theorem Everywhere.replace? {es : Entries} (hes : Everywhere R (.map es))
    (hmap : ∀ k es, R k (.map es)) (hseq : ∀ k items, R k (.seq items)) {t new : Tree}
    (ht : Everywhere R t) {path : List Segment}
    (h : Tree.replace? (.map es) path t = some new) :
    Everywhere R new ∧ ∀ k, R k new := by
  induction path generalizing t new with
  | nil =>
    rw [Tree.replace?, Option.some_inj] at h
    subst h
    exact ⟨hes, fun k => hmap k es⟩
  | cons s rest ih =>
    cases s with
    | key name =>
      cases t with
      | map below =>
        rw [Tree.replace?, Option.bind_eq_some_iff] at h
        obtain ⟨slot, hget, h⟩ := h
        obtain ⟨inner, hinner, rfl⟩ := Option.map_eq_some_iff.1 h
        obtain ⟨hgood, hunder⟩ := ih (ht.of_get? hget) hinner
        refine ⟨?_, fun k => hmap k _⟩
        rw [everywhere_map] at ht ⊢
        intro e he
        rcases Entries.mem_modify he with hold | ⟨-, v, -, hv⟩
        · exact ht e hold
        · rw [hv]
          exact ⟨hunder _, hgood⟩
      | _ => simp [Tree.replace?] at h
    | index i =>
      cases t with
      | seq items =>
        rw [Tree.replace?, Option.bind_eq_some_iff] at h
        obtain ⟨slot, hget, h⟩ := h
        obtain ⟨inner, hinner, rfl⟩ := Option.map_eq_some_iff.1 h
        rw [everywhere_seq] at ht
        obtain ⟨hgood, -⟩ := ih (ht _ (List.mem_of_getElem? hget)) hinner
        refine ⟨?_, fun k => hseq k _⟩
        rw [everywhere_seq]
        intro t hmem
        rcases List.mem_or_eq_of_mem_set hmem with hold | rfl
        · exact ht t hold
        · exact hgood
      | _ => simp [Tree.replace?] at h

end Tree

end LayeredConfig
