import LayeredConfig.Proofs.Tree.Entries
import Mathlib.Data.List.Forall2

/-!
# Well-formed trees

In a well-formed tree no mapping has two keys that are the same. On such trees `same` is an
equivalence, so that the operations on entries follow the laws of finite maps, and all operations
of a resolution keep trees well-formed.
-/

namespace LayeredConfig

/-- No two of the keys are the same. -/
def Entries.Distinct (es : Entries) : Prop := es.Pairwise fun a b => a.1.same b.1 = false

theorem Entries.distinct_iff_keys {es : Entries} :
    Entries.Distinct es ↔ (Entries.keys es).Pairwise fun a b => a.same b = false := by
  rw [Entries.Distinct, Entries.keys, List.pairwise_map]

namespace Tree

mutual

/-- The keys of each mapping, also under tags and in keys, are distinct. -/
def WellFormed : Tree → Prop
  | .map es => Entries.Distinct es ∧ WellFormedEntries es
  | .seq items => WellFormedItems items
  | .tagged _ t => WellFormed t
  | _ => True

/-- All keys and values are well-formed. -/
def WellFormedEntries : List (Tree × Tree) → Prop
  | [] => True
  | (k, v) :: rest => (WellFormed k ∧ WellFormed v) ∧ WellFormedEntries rest

/-- All items are well-formed. -/
def WellFormedItems : List Tree → Prop
  | [] => True
  | t :: rest => WellFormed t ∧ WellFormedItems rest

end

theorem wellFormed_map {es : Entries} :
    WellFormed (.map es) ↔ Entries.Distinct es ∧ ∀ e ∈ es, WellFormed e.1 ∧ WellFormed e.2 := by
  rw [WellFormed]
  suffices h : WellFormedEntries es ↔ ∀ e ∈ es, WellFormed e.1 ∧ WellFormed e.2 by rw [h]
  induction es with
  | nil => simp [WellFormedEntries]
  | cons e rest ih => rw [WellFormedEntries, ih, List.forall_mem_cons]

theorem wellFormed_seq {items : List Tree} :
    WellFormed (.seq items) ↔ ∀ t ∈ items, WellFormed t := by
  rw [WellFormed]
  induction items with
  | nil => simp [WellFormedItems]
  | cons t rest ih => rw [WellFormedItems, ih, List.forall_mem_cons]

theorem wellFormed_tagged {tag : String} {t : Tree} :
    WellFormed (.tagged tag t) ↔ WellFormed t := by rw [WellFormed]

instance (es : Entries) : Decidable (Entries.Distinct es) :=
  inferInstanceAs (Decidable (es.Pairwise fun a b => a.1.same b.1 = false))

mutual

/-- Whether a tree is well-formed can be found out. -/
def decidableWellFormed : ∀ t, Decidable (WellFormed t)
  | .map es =>
    have := decidableWellFormedEntries es
    inferInstanceAs (Decidable (Entries.Distinct es ∧ WellFormedEntries es))
  | .seq items => decidableWellFormedItems items
  | .tagged _ t => decidableWellFormed t
  | .null | .bool _ | .int _ | .float _ | .str _ => .isTrue trivial

/-- The same for a list of entries. -/
def decidableWellFormedEntries : ∀ es, Decidable (WellFormedEntries es)
  | [] => .isTrue trivial
  | (k, v) :: rest =>
    have := decidableWellFormed k
    have := decidableWellFormed v
    have := decidableWellFormedEntries rest
    inferInstanceAs (Decidable ((WellFormed k ∧ WellFormed v) ∧ WellFormedEntries rest))

/-- The same for a list of items. -/
def decidableWellFormedItems : ∀ items, Decidable (WellFormedItems items)
  | [] => .isTrue trivial
  | t :: rest =>
    have := decidableWellFormed t
    have := decidableWellFormedItems rest
    inferInstanceAs (Decidable (WellFormed t ∧ WellFormedItems rest))

end

instance (t : Tree) : Decidable t.WellFormed := decidableWellFormed t

theorem wellFormed_empty : WellFormed .empty := by
  simp [Tree.empty, wellFormed_map, Entries.Distinct]

@[simp] theorem wellFormed_str (s : String) : WellFormed (.str s) := trivial

/-! ## The same key -/

theorem sameEntries_iff {as bs : Entries} :
    sameEntries as bs = true ↔
      ∀ a ∈ as, ∃ b ∈ bs, a.1.same b.1 = true ∧ a.2.same b.2 = true := by
  induction as with
  | nil => simp [sameEntries]
  | cons a rest ih =>
    rw [sameEntries, Bool.and_eq_true, ih, List.forall_mem_cons]
    simp [List.any_eq_true]

theorem same_map {as bs : Entries} :
    (Tree.map as).same (.map bs) = true ↔
      as.length = bs.length ∧ ∀ a ∈ as, ∃ b ∈ bs, a.1.same b.1 = true ∧ a.2.same b.2 = true := by
  rw [same, Bool.and_eq_true, beq_iff_eq, sameEntries_iff]

theorem sameItems_iff {as bs : List Tree} :
    sameItems as bs = true ↔ List.Forall₂ (fun a b => a.same b = true) as bs := by
  induction as generalizing bs with
  | nil => cases bs <;> simp [sameItems]
  | cons a rest ih => cases bs <;> simp [sameItems, ih]

end Tree

theorem Binary64.same_refl (x : Binary64) : x.same x = true := by simp [Binary64.same]

theorem Binary64.same_symm {x y : Binary64} (h : x.same y = true) : y.same x = true := by
  simp only [Binary64.same, Bool.or_eq_true, Bool.and_eq_true, beq_iff_eq] at h ⊢
  grind

theorem Binary64.same_trans {x y z : Binary64} (h₁ : x.same y = true) (h₂ : y.same z = true) :
    x.same z = true := by
  simp only [Binary64.same, Binary64.isNaN, Binary64.isZero, Bool.or_eq_true, Bool.and_eq_true,
    beq_iff_eq] at h₁ h₂ ⊢
  grind

namespace Tree

/-- Each tree is the same as itself. -/
theorem same_refl (t : Tree) : t.same t = true := by
  induction t using Tree.induction with
  | map es ih => exact same_map.2 ⟨rfl, fun a ha => ⟨a, ha, ih a ha⟩⟩
  | seq items ih => rw [same, sameItems_iff]; exact List.forall₂_same.2 ih
  | float x => exact x.same_refl
  | tagged tag t ih => simp [same, ih]
  | _ => simp [same]

theorem same_trans {a b c : Tree} (h₁ : a.same b = true) (h₂ : b.same c = true) :
    a.same c = true := by
  induction a using Tree.induction generalizing b c with
  | map es ih =>
    cases b with
    | map fs =>
      cases c with
      | map gs =>
        obtain ⟨hlength₁, hmatch₁⟩ := same_map.1 h₁
        obtain ⟨hlength₂, hmatch₂⟩ := same_map.1 h₂
        refine same_map.2 ⟨hlength₁.trans hlength₂, fun e he => ?_⟩
        obtain ⟨f, hf, hkey, hvalue⟩ := hmatch₁ e he
        obtain ⟨g, hg, hkey', hvalue'⟩ := hmatch₂ f hf
        exact ⟨g, hg, (ih e he).1 hkey hkey', (ih e he).2 hvalue hvalue'⟩
      | _ => simp [same] at h₂
    | _ => simp [same] at h₁
  | seq items ih =>
    cases b with
    | seq others =>
      cases c with
      | seq third =>
        rw [same, sameItems_iff] at h₁ h₂ ⊢
        induction h₁ generalizing third with
        | nil => exact h₂
        | cons hab _ ihRest =>
          cases h₂ with
          | cons hbc hrest =>
            exact .cons (ih _ List.mem_cons_self hab hbc)
              (ihRest (fun t ht => ih t (List.mem_cons_of_mem _ ht)) _ hrest)
      | _ => simp [same] at h₂
    | _ => simp [same] at h₁
  | float x =>
    cases b with
    | float y =>
      cases c with
      | float z => exact Binary64.same_trans h₁ h₂
      | _ => simp [same] at h₂
    | _ => simp [same] at h₁
  | tagged tag t ih =>
    cases b with
    | tagged tag' t' =>
      cases c with
      | tagged tag'' t'' =>
        simp only [same, Bool.and_eq_true, beq_iff_eq] at h₁ h₂ ⊢
        exact ⟨h₁.1.trans h₂.1, ih h₁.2 h₂.2⟩
      | _ => simp [same] at h₂
    | _ => simp [same] at h₁
  | _ => cases b <;> cases c <;> simp_all [same]

/-- If each member of a list finds a partner in a list that is not longer, and no two of them the
same partner, then each member of the other list is a partner. -/
theorem exists_partner {α β : Type} {M : α → β → Prop} {as : List α} {bs : List β}
    (hlength : bs.length ≤ as.length) (hmatch : ∀ a ∈ as, ∃ b ∈ bs, M a b)
    (hapart : as.Pairwise fun a a' => ∀ b, M a b → ¬ M a' b) :
    ∀ b ∈ bs, ∃ a ∈ as, M a b := by
  induction as generalizing bs with
  | nil =>
    rw [List.length_nil, Nat.le_zero, List.length_eq_zero_iff] at hlength
    simp [hlength]
  | cons a rest ih =>
    obtain ⟨b, hb, hab⟩ := hmatch a List.mem_cons_self
    obtain ⟨before, after, rfl⟩ := List.append_of_mem hb
    obtain ⟨haparta, hapart⟩ := List.pairwise_cons.1 hapart
    -- the others find their partners among the rest
    have hothers : ∀ b' ∈ before ++ after, ∃ a' ∈ rest, M a' b' := by
      refine ih ?_ (fun a' ha' => ?_) hapart
      · simp only [List.length_append, List.length_cons] at hlength ⊢
        omega
      · obtain ⟨b', hb', hab'⟩ := hmatch a' (List.mem_cons_of_mem _ ha')
        refine ⟨b', ?_, hab'⟩
        have hne : b' ≠ b := by
          rintro rfl
          exact haparta a' ha' b' hab hab'
        simpa [hne] using hb'
    intro b' hb'
    by_cases hsame : b' = b
    · exact ⟨a, List.mem_cons_self, hsame ▸ hab⟩
    · obtain ⟨a', ha', hab'⟩ := hothers b' (by simpa [hsame] using hb')
      exact ⟨a', List.mem_cons_of_mem _ ha', hab'⟩

/-- A well-formed tree is the same the other way round. For mappings this is where the keys have to
be distinct. -/
theorem same_symm {a b : Tree} (ha : a.WellFormed) (h : a.same b = true) : b.same a = true := by
  induction a using Tree.induction generalizing b with
  | map es ih =>
    cases b with
    | map fs =>
      obtain ⟨hdistinct, hwf⟩ := wellFormed_map.1 ha
      obtain ⟨hlength, hmatch⟩ := same_map.1 h
      refine same_map.2 ⟨hlength.symm, fun f hf => ?_⟩
      have hpartner := exists_partner (M := fun e f : Tree × Tree =>
        e.1.same f.1 = true ∧ e.2.same f.2 = true) (Nat.le_of_eq hlength.symm) hmatch ?_ f hf
      · obtain ⟨e, he, hkey, hvalue⟩ := hpartner
        exact ⟨e, he, (ih e he).1 (hwf e he).1 hkey, (ih e he).2 (hwf e he).2 hvalue⟩
      · refine hdistinct.imp_of_mem fun {e e'} he he' hne f hef hef' => ?_
        have hback := (ih e' he').1 (hwf e' he').1 hef'.1
        rw [same_trans hef.1 hback] at hne
        cases hne
    | _ => simp [same] at h
  | seq items ih =>
    cases b with
    | seq others =>
      rw [wellFormed_seq] at ha
      rw [same, sameItems_iff] at h ⊢
      induction h with
      | nil => exact .nil
      | cons hab _ ihRest =>
        exact .cons (ih _ List.mem_cons_self (ha _ List.mem_cons_self) hab)
          (ihRest (fun t ht => ih t (List.mem_cons_of_mem _ ht))
            fun t ht => ha t (List.mem_cons_of_mem _ ht))
    | _ => simp [same] at h
  | float x =>
    cases b with
    | float y => exact Binary64.same_symm h
    | _ => simp [same] at h
  | tagged tag t ih =>
    cases b with
    | tagged tag' t' =>
      simp only [same, Bool.and_eq_true, beq_iff_eq] at h ⊢
      exact ⟨h.1.symm, ih (wellFormed_tagged.1 ha) h.2⟩
    | _ => simp [same] at h
  | _ => cases b <;> simp_all [same]

end Tree

/-! ## Entries as a finite map -/

namespace Entries

open Tree

/-- A key that is the same finds the same value. -/
theorem get?_congr {es : Entries} {key key' : Tree} (hkey : key.WellFormed)
    (h : key.same key' = true) : get? es key' = get? es key := by
  have hsame : ∀ k : Tree, k.same key' = k.same key := fun k => by
    rw [Bool.eq_iff_iff]
    exact ⟨fun hk => same_trans hk (same_symm hkey h), fun hk => same_trans hk h⟩
  simp only [get?, hsame]

theorem get?_nil (key : Tree) : get? [] key = none := rfl

theorem get?_cons (k v key : Tree) (rest : Entries) :
    get? ((k, v) :: rest) key = if k.same key then some v else get? rest key := by
  simp only [get?, List.find?_cons]
  cases k.same key <;> rfl

/-- What is found after a value was put under a key. -/
theorem get?_put {es : Entries} (hes : ∀ e ∈ es, e.1.WellFormed) {key : Tree}
    (hkey : key.WellFormed) (value k : Tree) :
    get? (put es key value) k = if key.same k then some value else get? es k := by
  induction es with
  | nil => rw [put, get?_cons]
  | cons e rest ih =>
    obtain ⟨k₀, v₀⟩ := e
    have hk₀ : k₀.WellFormed := hes _ List.mem_cons_self
    rw [put]
    split
    next hsame =>
      rw [get?_cons, get?_cons]
      have hiff : k₀.same k = key.same k := by
        rw [Bool.eq_iff_iff]
        exact ⟨fun h => same_trans (same_symm hk₀ hsame) h, fun h => same_trans hsame h⟩
      rw [hiff]
      split <;> rfl
    next hsame =>
      rw [get?_cons, get?_cons, ih fun e he => hes e (List.mem_cons_of_mem _ he)]
      by_cases h₀ : k₀.same k = true
      · have hne : key.same k = false := by
          rw [Bool.eq_false_iff]
          exact fun h => hsame (same_trans h₀ (same_symm hkey h))
        rw [if_pos h₀, hne, if_neg (by simp), if_pos h₀]
      · rw [if_neg h₀, if_neg h₀]

/-- Erasing a text key hides no other key. -/
theorem get?_erase {es : Entries} {name : String} {k : Tree} (h : k ≠ .str name) :
    get? (erase es (.str name)) k = get? es k := by
  induction es with
  | nil => rfl
  | cons e rest ih =>
    obtain ⟨k₀, v₀⟩ := e
    rw [erase, List.filter_cons, get?_cons]
    by_cases h₀ : k₀ = .str name
    · subst h₀
      have hne : (Tree.str name).same k = false := by
        rw [Bool.eq_false_iff]
        exact fun hsame => h (str_same.1 hsame)
      rw [if_neg (by simp [Tree.same_refl]), hne, if_neg (by simp)]
      exact ih
    · rw [if_pos (by simpa using h₀), get?_cons]
      split
      · rfl
      · exact ih

/-- In a well-formed mapping each entry is found under its key. -/
theorem get?_of_mem {es : Entries} (hes : (Tree.map es).WellFormed) {e : Tree × Tree}
    (he : e ∈ es) :
    get? es e.1 = some e.2 := by
  obtain ⟨hdistinct, hwf⟩ := wellFormed_map.1 hes
  induction es with
  | nil => cases he
  | cons first rest ih =>
    obtain ⟨k, v⟩ := first
    obtain ⟨hfirst, hrest⟩ := List.pairwise_cons.1 hdistinct
    rw [get?_cons]
    rcases List.mem_cons.1 he with rfl | he
    · rw [if_pos (Tree.same_refl _)]
    · rw [if_neg (by simp [hfirst e he])]
      have hwf' : ∀ e ∈ rest, e.1.WellFormed ∧ e.2.WellFormed := fun e he =>
        hwf e (List.mem_cons_of_mem _ he)
      exact ih (wellFormed_map.2 ⟨hrest, hwf'⟩) he hrest hwf'

end Entries

/-! ## What keeps trees well-formed -/

namespace Tree

theorem WellFormed.of_get? {es : Entries} (hes : WellFormed (.map es)) {key v : Tree}
    (h : Entries.get? es key = some v) : v.WellFormed := by
  obtain ⟨k, hmem, -⟩ := Entries.mem_of_get? h
  exact ((wellFormed_map.1 hes).2 _ hmem).2

/-- Entries with the keys of a well-formed mapping and well-formed values. -/
theorem WellFormed.of_keys {es es' : Entries} (hes : WellFormed (.map es))
    (hkeys : Entries.keys es' = Entries.keys es) (hvalues : ∀ e ∈ es', e.2.WellFormed) :
    WellFormed (.map es') := by
  obtain ⟨hdistinct, hwf⟩ := wellFormed_map.1 hes
  refine wellFormed_map.2 ⟨?_, fun e he => ⟨?_, hvalues e he⟩⟩
  · rw [Entries.distinct_iff_keys] at hdistinct ⊢
    rwa [hkeys]
  · have hkey : e.1 ∈ Entries.keys es := hkeys ▸ List.mem_map_of_mem he
    obtain ⟨e', he', heq⟩ := List.mem_map.1 hkey
    exact heq ▸ (hwf e' he').1

theorem WellFormed.erase {es : Entries} (hes : WellFormed (.map es)) (key : Tree) :
    WellFormed (.map (Entries.erase es key)) := by
  obtain ⟨hdistinct, hwf⟩ := wellFormed_map.1 hes
  exact wellFormed_map.2 ⟨hdistinct.filter _, fun e he => hwf e (Entries.mem_erase.1 he).1⟩

theorem WellFormed.put {es : Entries} (hes : WellFormed (.map es)) {key value : Tree}
    (hkey : key.WellFormed) (hvalue : value.WellFormed) :
    WellFormed (.map (Entries.put es key value)) := by
  obtain ⟨hdistinct, hwf⟩ := wellFormed_map.1 hes
  refine wellFormed_map.2 ⟨?_, fun e he => ?_⟩
  · clear hes
    induction es with
    | nil => simp [Entries.put, Entries.Distinct]
    | cons first rest ih =>
      obtain ⟨k, v⟩ := first
      obtain ⟨hfirst, hrest⟩ := List.pairwise_cons.1 hdistinct
      rw [Entries.put]
      split
      · exact List.pairwise_cons.2 ⟨hfirst, hrest⟩
      next hne =>
        refine List.pairwise_cons.2 ⟨fun e he => ?_, ih hrest fun e he =>
          hwf e (List.mem_cons_of_mem _ he)⟩
        rcases Entries.mem_put he with hold | ⟨-, hk | ⟨-, v', hk⟩⟩
        · exact hfirst e hold
        · rw [hk]
          exact Bool.eq_false_iff.2 hne
        · exact hfirst (e.1, v') hk
  · rcases Entries.mem_put he with hold | ⟨hv, hk | ⟨-, v, hk⟩⟩
    · exact hwf e hold
    · rw [hv, hk]
      exact ⟨hkey, hvalue⟩
    · rw [hv]
      exact ⟨(hwf _ hk).1, hvalue⟩

theorem WellFormed.mergeEntries {above : Entries} (habove : WellFormed (.map above))
    (hmerge : ∀ e ∈ above, ∀ {base : Tree}, base.WellFormed → (base.merge e.2).WellFormed) :
    ∀ {below : Entries}, WellFormed (.map below) →
      WellFormed (.map (Tree.mergeEntries below above)) := by
  obtain ⟨-, hwf⟩ := wellFormed_map.1 habove
  clear habove
  induction above with
  | nil => exact fun hbelow => by rwa [mergeEntries_nil]
  | cons e rest ih =>
    intro below hbelow
    obtain ⟨key, value⟩ := e
    rw [mergeEntries_cons]
    refine ih (fun e he => hmerge e (List.mem_cons_of_mem _ he))
      (fun e he => hwf e (List.mem_cons_of_mem _ he)) (hbelow.put (hwf _ List.mem_cons_self).1 ?_)
    unfold laidOver
    split
    next existing hget => exact hmerge _ List.mem_cons_self (hbelow.of_get? hget)
    · exact (hwf _ List.mem_cons_self).2

theorem WellFormed.merge {base overlay : Tree} (hbase : base.WellFormed)
    (hoverlay : overlay.WellFormed) : (base.merge overlay).WellFormed := by
  induction overlay using Tree.induction generalizing base with
  | map above ih =>
    cases base with
    | map below =>
      rw [merge_map_map]
      exact hoverlay.mergeEntries
        (fun e he base hb => (ih e he).2 hb ((wellFormed_map.1 hoverlay).2 e he).2) hbase
    | _ =>
      rw [merge_map_of_not_map (by simp)]
      exact hoverlay
  | _ =>
    rw [merge_of_not_map (by simp)]
    exact hoverlay

theorem WellFormed.entries {t : Tree} (h : t.WellFormed) : WellFormed (.map t.entries) := by
  cases t with
  | map es => exact h
  | _ => exact wellFormed_empty

theorem WellFormed.underlay {base : Tree} {own : Entries} (hbase : base.WellFormed)
    (hown : WellFormed (.map own)) : WellFormed (.map (Tree.underlay base own)) := by
  rw [underlay_eq_mergeEntries, ← merge_map_map]
  exact hbase.entries.merge hown

theorem WellFormed.joinInto {inner : Entries} (hinner : WellFormed (.map inner)) {flat : Entries}
    (hflat : WellFormed (.map flat)) (lead sep : String) :
    WellFormed (.map (Tree.joinInto flat lead sep inner)) := by
  obtain ⟨-, hwf⟩ := wellFormed_map.1 hinner
  clear hinner
  rw [Tree.joinInto]
  induction inner generalizing flat with
  | nil => exact hflat
  | cons e rest ih =>
    exact ih (hflat.put (wellFormed_str _) (hwf _ List.mem_cons_self).2)
      fun e he => hwf e (List.mem_cons_of_mem _ he)

theorem WellFormed.flatten {t : Tree} (ht : t.WellFormed) (sep : String) (depth : Nat) :
    (t.flatten sep depth).WellFormed := by
  induction t using Tree.induction generalizing depth with
  | map es ih =>
    cases depth with
    | zero => rwa [flatten_zero]
    | succ depth =>
      rw [flatten_map_succ]
      obtain ⟨-, hwf⟩ := wellFormed_map.1 ht
      suffices h : ∀ flat, WellFormed (.map flat) →
          WellFormed (.map (flattenInto sep depth flat es)) from h [] wellFormed_empty
      clear ht
      induction es with
      | nil => exact fun flat hflat => by rwa [flattenInto]
      | cons e rest ihRest =>
        intro flat hflat
        obtain ⟨key, value⟩ := e
        obtain ⟨hkey, hvalue⟩ := hwf _ List.mem_cons_self
        have hbelow := (ih _ List.mem_cons_self).2 hvalue depth
        have hnext := ihRest (fun e he => ih e (List.mem_cons_of_mem _ he))
          fun e he => hwf e (List.mem_cons_of_mem _ he)
        rw [flattenInto]
        split
        next below hflatten =>
          rw [hflatten] at hbelow
          exact hnext _ (WellFormed.joinInto hbelow hflat _ _)
        · exact hnext _ (hflat.put hkey hbelow)
  | _ => rwa [flatten_of_not_map (by simp)]

theorem WellFormed.follow? {t v : Tree} (ht : t.WellFormed) {path : List Segment}
    (h : t.follow? path = some v) : v.WellFormed := by
  induction path generalizing t with
  | nil =>
    rw [Tree.follow?, Option.some_inj] at h
    rwa [← h]
  | cons s rest ih =>
    rw [Tree.follow?, Option.bind_eq_some_iff] at h
    obtain ⟨next, hstep, h⟩ := h
    refine ih ?_ h
    cases t with
    | map es => cases s <;> exact ht.of_get? hstep
    | seq items =>
      cases s with
      | key name => simp [step?] at hstep
      | index i => exact wellFormed_seq.1 ht _ (List.mem_of_getElem? hstep)
    | _ => simp [step?] at hstep

theorem WellFormed.lookup {t v : Tree} (ht : t.WellFormed) {path : List Segment}
    (h : t.lookup path = some v) : v.WellFormed := by
  rw [Tree.lookup, Option.filter_eq_some_iff] at h
  exact ht.follow? h.1

theorem WellFormed.modify {es : Entries} (hes : WellFormed (.map es)) {key : Tree}
    {f : Tree → Tree} (hf : ∀ v, (f v).WellFormed) :
    WellFormed (.map (Entries.modify f es key)) := by
  obtain ⟨hdistinct, hwf⟩ := wellFormed_map.1 hes
  -- the keys stay as they are
  have hkeys : Entries.keys (Entries.modify f es key) = Entries.keys es := by
    clear hes hdistinct hwf
    induction es with
    | nil => rfl
    | cons e rest ih =>
      rw [Entries.modify]
      split
      · rfl
      · exact congrArg (_ :: ·) ih
  refine wellFormed_map.2 ⟨?_, fun e he => ?_⟩
  · rw [Entries.distinct_iff_keys] at hdistinct ⊢
    rwa [hkeys]
  · rcases Entries.mem_modify he with hold | ⟨-, v, hmem, hv⟩
    · exact hwf e hold
    · rw [hv]
      exact ⟨(hwf _ hmem).1, hf v⟩

theorem WellFormed.replace? {es : Entries} (hes : WellFormed (.map es)) {t new : Tree}
    (ht : t.WellFormed) {path : List Segment}
    (h : Tree.replace? (.map es) path t = some new) : new.WellFormed := by
  induction path generalizing t new with
  | nil =>
    rw [Tree.replace?, Option.some_inj] at h
    rwa [← h]
  | cons s rest ih =>
    cases s with
    | key name =>
      cases t with
      | map below =>
        rw [Tree.replace?, Option.bind_eq_some_iff] at h
        obtain ⟨slot, hget, h⟩ := h
        obtain ⟨inner, hinner, rfl⟩ := Option.map_eq_some_iff.1 h
        exact ht.modify fun _ => ih (ht.of_get? hget) hinner
      | _ => simp [Tree.replace?] at h
    | index i =>
      cases t with
      | seq items =>
        rw [Tree.replace?, Option.bind_eq_some_iff] at h
        obtain ⟨slot, hget, h⟩ := h
        obtain ⟨inner, hinner, rfl⟩ := Option.map_eq_some_iff.1 h
        rw [wellFormed_seq] at ht ⊢
        intro t hmem
        rcases List.mem_or_eq_of_mem_set hmem with hold | rfl
        · exact ht t hold
        · exact ih (ht _ (List.mem_of_getElem? hget)) hinner
      | _ => simp [Tree.replace?] at h

end Tree

end LayeredConfig
