import LayeredConfig.Proofs.Keeping

/-!
# The algebra of merging

Well-formed entries are determined by the order of their keys and by what is found under each. A
merged mapping has the keys of the base, followed by the new keys of the overlay, and under each key
what the two have there, one laid over the other. It follows that the empty mapping is neutral, and
that merging is associative unless a value in the middle hides a mapping from a mapping above it
(`merging_is_lawful`). Where it does, the grouping matters, unless the hidden mapping has nothing to
add (`merge_assoc_iff`).
-/

namespace LayeredConfig

open Tree

namespace Entries

/-! ## Keys -/

theorem has_eq_any (es : Entries) (key : Tree) : has es key = (keys es).any (·.same key) := by
  rw [has, keys, List.any_map]
  rfl

theorem keys_put (es : Entries) (key value : Tree) :
    keys (put es key value) = if has es key then keys es else keys es ++ [key] := by
  induction es with
  | nil => rfl
  | cons e rest ih =>
    obtain ⟨k, v⟩ := e
    rw [put, has, List.any_cons]
    by_cases hsame : k.same key = true
    · rw [if_pos hsame, hsame]
      rfl
    · have hfalse : k.same key = false := by simpa using hsame
      rw [if_neg hsame, hfalse, Bool.false_or]
      change k :: keys (put rest key value) = _
      rw [ih, has]
      split <;> rfl

theorem keys_erase (es : Entries) (key : Tree) :
    keys (erase es key) = (keys es).filter fun k => !k.same key := by
  rw [keys, keys, erase, List.filter_map]
  rfl

/-- A merged mapping has the keys of the base, then the new keys of the overlay. -/
theorem keys_mergeEntries (below : Entries) {above : Entries} (h : Distinct above) :
    keys (mergeEntries below above) =
      keys below ++ (keys above).filter fun k => !has below k := by
  induction above generalizing below with
  | nil => rw [mergeEntries_nil, keys, keys, List.map_nil, List.filter_nil, List.append_nil]
  | cons e rest ih =>
    obtain ⟨key, value⟩ := e
    obtain ⟨hfirst, hrest⟩ := List.pairwise_cons.1 h
    -- the later keys are different from the one that is put
    have hhas : ∀ k ∈ keys rest,
        has (put below key (laidOver below key value)) k = has below k := by
      intro k hk
      obtain ⟨e, he, rfl⟩ := List.mem_map.1 hk
      rw [has_eq_any, has_eq_any, keys_put]
      split
      · rfl
      · rw [List.any_append, List.any_cons, hfirst e he]
        simp
    rw [mergeEntries_cons, ih _ hrest, List.filter_congr fun k hk => by rw [hhas k hk], keys_put]
    change _ = keys below ++ (key :: keys rest).filter _
    rw [List.filter_cons]
    cases has below key <;> simp

/-- Entries with distinct keys are determined by the order of their keys and by what is found under
them. -/
theorem ext_of_get? {es es' : Entries} (hes : Distinct es) (hkeys : keys es = keys es')
    (h : ∀ k ∈ keys es, get? es k = get? es' k) : es = es' := by
  induction es generalizing es' with
  | nil => exact (List.map_eq_nil_iff.1 hkeys.symm).symm
  | cons e rest ih =>
    obtain ⟨k, v⟩ := e
    cases es' with
    | nil => cases hkeys
    | cons e' rest' =>
      obtain ⟨k', v'⟩ := e'
      obtain ⟨hk, hrest⟩ := List.cons_eq_cons.1 hkeys
      dsimp only at hk
      subst hk
      obtain ⟨hfirst, hdistinct⟩ := List.pairwise_cons.1 hes
      have hv := h k List.mem_cons_self
      rw [get?_cons, get?_cons, if_pos (same_refl k), if_pos (same_refl k), Option.some_inj] at hv
      rw [hv, ih hdistinct hrest fun key hkey => ?_]
      have hget := h key (List.mem_cons_of_mem _ hkey)
      obtain ⟨e, he, rfl⟩ := List.mem_map.1 hkey
      have hne : k.same e.1 = false := hfirst e he
      rwa [get?_cons, get?_cons, hne, if_neg (by simp), if_neg (by simp)] at hget

end Entries

namespace Tree

/-! ## Values -/

/-- What is there when two values that may be missing are laid over each other. -/
def overlaid : Option Tree → Option Tree → Option Tree
  | some below, some above => some (below.merge above)
  | below, none => below
  | none, above => above

theorem get?_mergeEntries_eq {below above : Entries} (hbelow : WellFormed (.map below))
    (habove : WellFormed (.map above)) (k : Tree) :
    Entries.get? (mergeEntries below above) k =
      overlaid (Entries.get? below k) (Entries.get? above k) := by
  cases hget : Entries.get? above k with
  | none =>
    rw [get?_mergeEntries_below hbelow habove hget]
    cases Entries.get? below k <;> rfl
  | some v =>
    rw [get?_mergeEntries_above hbelow habove hget, laidOver]
    cases Entries.get? below k <;> rfl

/-! ## Neutrality and associativity -/

/-- The empty mapping contributes nothing from below. -/
theorem empty_merge {t : Tree} (ht : t.WellFormed) : Tree.empty.merge t = t := by
  cases t with
  | map es =>
    have hdistinct := (wellFormed_map.1 ht).1
    have hmerged : WellFormed (.map (mergeEntries [] es)) := by
      simpa [Tree.empty] using wellFormed_empty.merge ht
    rw [Tree.empty, merge_map_map]
    refine congrArg _ (Entries.ext_of_get? (wellFormed_map.1 hmerged).1 ?_ fun k _ => ?_)
    · rw [Entries.keys_mergeEntries _ hdistinct]
      simp [Entries.keys, Entries.has]
    · rw [get?_mergeEntries_eq wellFormed_empty ht, Entries.get?_nil]
      cases Entries.get? es k <;> rfl
  | _ => exact merge_of_not_map (by simp)

/-- A tree laid over itself is the same tree. -/
theorem merge_self {t : Tree} (ht : t.WellFormed) : t.merge t = t := by
  induction t using Tree.induction with
  | map es ih =>
    have hmerged : WellFormed (.map (mergeEntries es es)) := by
      simpa using ht.merge ht
    rw [merge_map_map]
    refine congrArg _ (Entries.ext_of_get? (wellFormed_map.1 hmerged).1 ?_ fun k _ => ?_)
    · have hnone : (Entries.keys es).filter (fun k => !Entries.has es k) = [] :=
        List.filter_eq_nil_iff.2 fun k hk => by
          have hany : (Entries.keys es).any (·.same k) = true :=
            List.any_eq_true.2 ⟨k, hk, same_refl k⟩
          rw [Entries.has_eq_any, hany]
          exact Bool.false_ne_true
      rw [Entries.keys_mergeEntries _ (wellFormed_map.1 ht).1, hnone, List.append_nil]
    · rw [get?_mergeEntries_eq ht ht]
      cases hget : Entries.get? es k with
      | none => rfl
      | some v =>
        obtain ⟨key, hmem, -⟩ := Entries.mem_of_get? hget
        exact congrArg some ((ih _ hmem).2 (ht.of_get? hget))
  | _ => exact merge_of_not_map (by simp)

/-- Nowhere does the second tree have something other than a mapping where the first and the third
have mappings. -/
def Uncovers (a b c : Tree) : Prop :=
  ∀ keys ea ec v, a.at? (keyPath keys) = some (.map ea) → c.at? (keyPath keys) = some (.map ec) →
    b.at? (keyPath keys) = some v → ∃ es, v = .map es

/-- At some path of keys the first and the third tree have these two mappings, and the second has
something other than a mapping. -/
def Hides (a b c : Tree) (fa fc : Entries) : Prop :=
  ∃ keys v, a.at? (keyPath keys) = some (.map fa) ∧ c.at? (keyPath keys) = some (.map fc) ∧
    b.at? (keyPath keys) = some v ∧ ∀ es, v ≠ .map es

theorem Uncovers.not_hides {a b c : Tree} (h : Uncovers a b c) (fa fc : Entries) :
    ¬ Hides a b c fa fc := by
  rintro ⟨keys, v, ha, hc, hb, hv⟩
  obtain ⟨es, rfl⟩ := h keys fa fc v ha hc hb
  exact hv es rfl

/-- A tree that is no mapping has none at any path. -/
theorem ne_map_of_at? {t v : Tree} (ht : ∀ es, t ≠ .map es) {keys : List Tree}
    (h : t.at? (keyPath keys) = some v) (es : Entries) : v ≠ .map es := by
  rintro rfl
  cases keys with
  | nil => exact ht es (Option.some_inj.1 ((at?_nil t).symm.trans h))
  | cons key rest =>
    obtain ⟨own, _, rfl, -⟩ := map_of_at? h
    exact ht own rfl

theorem Hides.left {a b c : Tree} {fa fc : Entries} (h : Hides a b c fa fc) :
    ∃ es, a = .map es := by
  obtain ⟨keys, v, ha, -⟩ := h
  by_contra hnone
  exact ne_map_of_at? (fun es hes => hnone ⟨es, hes⟩) ha fa rfl

theorem Hides.right {a b c : Tree} {fa fc : Entries} (h : Hides a b c fa fc) :
    ∃ es, c = .map es := by
  obtain ⟨keys, v, -, hc, -⟩ := h
  by_contra hnone
  exact ne_map_of_at? (fun es hes => hnone ⟨es, hes⟩) hc fc rfl

/-- A tree that is no mapping hides the whole of a mapping from another. -/
theorem hides_of_not_map {ea ec fa fc : Entries} {b : Tree} (hb : ∀ es, b ≠ .map es) :
    Hides (.map ea) b (.map ec) fa fc ↔ ea = fa ∧ ec = fc := by
  constructor
  · rintro ⟨keys, v, ha, hc, hv, -⟩
    cases keys with
    | nil =>
      cases (at?_nil _).symm.trans ha
      cases (at?_nil _).symm.trans hc
      exact ⟨rfl, rfl⟩
    | cons key rest =>
      obtain ⟨es, _, rfl, -⟩ := map_of_at? hv
      exact absurd rfl (hb es)
  · rintro ⟨rfl, rfl⟩
    exact ⟨[], b, at?_nil _, at?_nil _, at?_nil _, hb⟩

/-- A mapping hides what one of its values hides. -/
theorem hides_map {ea eb ec fa fc : Entries} :
    Hides (.map ea) (.map eb) (.map ec) fa fc ↔ ∃ k a b c, Entries.get? ea k = some a ∧
      Entries.get? eb k = some b ∧ Entries.get? ec k = some c ∧ Hides a b c fa fc := by
  constructor
  · rintro ⟨keys, v, ha, hc, hb, hv⟩
    cases keys with
    | nil => exact absurd (Option.some_inj.1 ((at?_nil _).symm.trans hb)).symm (hv eb)
    | cons k rest =>
      obtain ⟨_, a, hmap, hka, ha⟩ := map_of_at? ha
      cases hmap
      obtain ⟨_, c, hmap, hkc, hc⟩ := map_of_at? hc
      cases hmap
      obtain ⟨_, b, hmap, hkb, hb⟩ := map_of_at? hb
      cases hmap
      exact ⟨k, a, b, c, hka, hkb, hkc, rest, v, ha, hc, hb, hv⟩
  · rintro ⟨k, a, b, c, hka, hkb, hkc, rest, v, ha, hc, hb, hv⟩
    refine ⟨k :: rest, v, ?_, ?_, ?_, hv⟩
    · exact Option.bind_eq_some_iff.2 ⟨a, hka, ha⟩
    · exact Option.bind_eq_some_iff.2 ⟨c, hkc, hc⟩
    · exact Option.bind_eq_some_iff.2 ⟨b, hkb, hb⟩

/-- Whichever two of three mappings are merged first, the keys come in the same order. -/
theorem keys_merge_assoc {ea eb ec : Entries} (ha : WellFormed (.map ea))
    (hb : WellFormed (.map eb)) (hc : WellFormed (.map ec)) :
    Entries.keys (mergeEntries (mergeEntries ea eb) ec) =
      Entries.keys (mergeEntries ea (mergeEntries eb ec)) := by
  have hbc : WellFormed (.map (mergeEntries eb ec)) := by
    simpa using hb.merge hc
  have hb' := (wellFormed_map.1 hb).1
  have hc' := (wellFormed_map.1 hc).1
  rw [Entries.keys_mergeEntries _ hc', Entries.keys_mergeEntries _ hb',
    Entries.keys_mergeEntries _ (wellFormed_map.1 hbc).1, Entries.keys_mergeEntries _ hc',
    List.filter_append, List.filter_filter, List.append_assoc]
  congr 2
  refine List.filter_congr fun k _ => ?_
  simp only [Entries.has_eq_isSome, get?_mergeEntries_eq ha hb]
  cases Entries.get? ea k <;> cases Entries.get? eb k <;> rfl

/-- Merging entries is associative if and only if merging the values of their common keys is. -/
theorem mergeEntries_assoc_iff {ea eb ec : Entries} (ha : WellFormed (.map ea))
    (hb : WellFormed (.map eb)) (hc : WellFormed (.map ec)) :
    mergeEntries (mergeEntries ea eb) ec = mergeEntries ea (mergeEntries eb ec) ↔
      ∀ k a b c, Entries.get? ea k = some a → Entries.get? eb k = some b →
        Entries.get? ec k = some c → (a.merge b).merge c = a.merge (b.merge c) := by
  have hab : WellFormed (.map (mergeEntries ea eb)) := by
    simpa using ha.merge hb
  have hbc : WellFormed (.map (mergeEntries eb ec)) := by
    simpa using hb.merge hc
  have hwf : WellFormed (.map (mergeEntries (mergeEntries ea eb) ec)) := by
    simpa using hab.merge hc
  constructor
  · intro h k a b c hka hkb hkc
    have hget := congrArg (Entries.get? · k) h
    rw [get?_mergeEntries_eq hab hc, get?_mergeEntries_eq ha hb, get?_mergeEntries_eq ha hbc,
      get?_mergeEntries_eq hb hc, hka, hkb, hkc] at hget
    exact Option.some_inj.1 hget
  · intro h
    refine Entries.ext_of_get? (wellFormed_map.1 hwf).1 (keys_merge_assoc ha hb hc) fun k _ => ?_
    rw [get?_mergeEntries_eq hab hc, get?_mergeEntries_eq ha hb, get?_mergeEntries_eq ha hbc,
      get?_mergeEntries_eq hb hc]
    cases hka : Entries.get? ea k with
    | none => cases Entries.get? eb k <;> cases Entries.get? ec k <;> rfl
    | some a =>
      cases hkb : Entries.get? eb k with
      | none => cases Entries.get? ec k <;> rfl
      | some b =>
        cases hkc : Entries.get? ec k with
        | none => rfl
        | some c => exact congrArg some (h k a b c hka hkb hkc)

/-- Merging is associative if and only if nothing is hidden that has something to add. -/
theorem merge_assoc_iff {a b c : Tree} (ha : a.WellFormed) (hb : b.WellFormed) (hc : c.WellFormed) :
    (a.merge b).merge c = a.merge (b.merge c) ↔
      ∀ fa fc, Hides a b c fa fc → mergeEntries fa fc = fc := by
  induction c using Tree.induction generalizing a b with
  | map ec ih =>
    by_cases hleft : ∃ ea, a = .map ea
    · obtain ⟨ea, rfl⟩ := hleft
      by_cases hmid : ∃ eb, b = .map eb
      · obtain ⟨eb, rfl⟩ := hmid
        rw [merge_map_map, merge_map_map, merge_map_map, merge_map_map, Tree.map.injEq,
          mergeEntries_assoc_iff ha hb hc]
        have hvalues : ∀ k x y z, Entries.get? ea k = some x → Entries.get? eb k = some y →
            Entries.get? ec k = some z → ((x.merge y).merge z = x.merge (y.merge z) ↔
              ∀ fa fc, Hides x y z fa fc → mergeEntries fa fc = fc) := by
          intro k x y z hx hy hz
          obtain ⟨key, hmem, -⟩ := Entries.mem_of_get? hz
          exact (ih _ hmem).2 (ha.of_get? hx) (hb.of_get? hy) (hc.of_get? hz)
        constructor
        · intro h fa fc hhides
          obtain ⟨k, x, y, z, hx, hy, hz, hhides⟩ := hides_map.1 hhides
          exact (hvalues k x y z hx hy hz).1 (h k x y z hx hy hz) fa fc hhides
        · intro h k x y z hx hy hz
          exact (hvalues k x y z hx hy hz).2 fun fa fc hhides =>
            h fa fc (hides_map.2 ⟨k, x, y, z, hx, hy, hz, hhides⟩)
      · -- the middle takes the place of the base, and the overlay that of the middle
        have hother : ∀ eb, b ≠ .map eb := fun eb h => hmid ⟨eb, h⟩
        rw [merge_of_not_map hother, merge_map_of_not_map hother, merge_map_map, Tree.map.injEq,
          eq_comm]
        simp [hides_of_not_map hother]
    · have hother : ∀ ea, a ≠ .map ea := fun ea h => hleft ⟨ea, h⟩
      refine iff_of_true ?_ fun fa fc hhides => absurd hhides.left hleft
      by_cases hmid : ∃ eb, b = .map eb
      · obtain ⟨eb, rfl⟩ := hmid
        rw [merge_map_of_not_map hother, merge_map_map, merge_map_of_not_map hother]
      · have hother' : ∀ eb, b ≠ .map eb := fun eb h => hmid ⟨eb, h⟩
        rw [merge_of_not_map hother', merge_map_of_not_map hother', merge_map_of_not_map hother]
  | _ =>
    refine iff_of_true (by simp [merge_of_not_map]) fun fa fc hhides => ?_
    obtain ⟨es, hes⟩ := hhides.right
    cases hes

/-- Merging is associative where the middle uncovers. -/
theorem merge_assoc {a b c : Tree} (ha : a.WellFormed) (hb : b.WellFormed) (hc : c.WellFormed)
    (h : Uncovers a b c) : (a.merge b).merge c = a.merge (b.merge c) :=
  (merge_assoc_iff ha hb hc).2 fun fa fc hhides => absurd hhides (h.not_hides fa fc)

/-! ## Placing beneath and erasing -/

theorem map_underlay {base : Tree} {own : Entries} (hown : WellFormed (.map own)) :
    Tree.map (underlay base own) = base.merge (.map own) := by
  rw [underlay_eq_mergeEntries, ← merge_map_map]
  by_cases hmap : ∃ es, base = .map es
  · obtain ⟨es, rfl⟩ := hmap
    rfl
  · have hentries : base.entries = [] := by
      cases base with
      | map es => exact absurd ⟨es, rfl⟩ hmap
      | _ => rfl
    rw [hentries, merge_map_of_not_map fun es h => hmap ⟨es, h⟩]
    exact empty_merge hown

/-- A key that the overlay does not have may be erased before merging. -/
theorem erase_mergeEntries {below above : Entries} (hbelow : WellFormed (.map below))
    (habove : WellFormed (.map above)) {name : String}
    (hname : Entries.get? above (.str name) = none) :
    Entries.erase (mergeEntries below above) (.str name) =
      mergeEntries (Entries.erase below (.str name)) above := by
  have hmerged : WellFormed (.map (mergeEntries below above)) := by
    simpa using hbelow.merge habove
  have hkeys : ∀ k ∈ Entries.keys above, k ≠ .str name := by
    intro k hk
    obtain ⟨e, he, rfl⟩ := List.mem_map.1 hk
    exact same_str_eq_false.1 (Entries.get?_eq_none.1 hname e he)
  have hdistinct := (wellFormed_map.1 habove).1
  refine Entries.ext_of_get? (wellFormed_map.1 (hmerged.erase _)).1 ?_ fun k hk => ?_
  · rw [Entries.keys_erase, Entries.keys_mergeEntries _ hdistinct,
      Entries.keys_mergeEntries _ hdistinct, Entries.keys_erase, List.filter_append,
      List.filter_filter]
    congr 1
    refine List.filter_congr fun k hk => ?_
    rw [same_str_eq_false.2 (hkeys k hk), Entries.has_eq_isSome, Entries.has_eq_isSome,
      Entries.get?_erase (hkeys k hk)]
    simp
  · rw [Entries.keys_erase, List.mem_filter] at hk
    have hne : k ≠ .str name := by simpa using hk.2
    rw [Entries.get?_erase hne, get?_mergeEntries_eq hbelow habove,
      get?_mergeEntries_eq (hbelow.erase _) habove, Entries.get?_erase hne]

/-! ## The laws -/

/-- Where both trees have a mapping, the merged tree has the two of them merged. -/
theorem at?_merge {base overlay : Tree} (hbase : base.WellFormed) (hoverlay : overlay.WellFormed)
    {keys : List Tree} {below above : Entries}
    (hbelow : base.at? (keyPath keys) = some (.map below))
    (habove : overlay.at? (keyPath keys) = some (.map above)) :
    (base.merge overlay).at? (keyPath keys) = some (.map (mergeEntries below above)) := by
  induction keys generalizing base overlay with
  | nil =>
    cases (at?_nil _).symm.trans hbelow
    cases (at?_nil _).symm.trans habove
    rw [merge_map_map]
    exact at?_nil _
  | cons key rest ih =>
    obtain ⟨es, x, rfl, hx, hbelow⟩ := map_of_at? hbelow
    obtain ⟨es', y, rfl, hy, habove⟩ := map_of_at? habove
    rw [merge_map_map]
    refine Option.bind_eq_some_iff.2
      ⟨x.merge y, ?_, ih (hbase.of_get? hx) (hoverlay.of_get? hy) hbelow habove⟩
    rw [get?_mergeEntries_eq hbase hoverlay, hx, hy]
    rfl

/-- **Mappings are merged lawfully.** The empty mapping is neutral on both sides, merging a mapping
twice is merging it once, and the grouping of three mappings does not matter unless the middle one
hides a mapping of the first from one of the third; then it does, unless what is hidden has nothing
to add. Placing a mapping beneath another is merging them. Wherever both sides have a mapping, the
keys of the base come first and then the new keys of the overlay. -/
theorem merging_is_lawful {a b c : Entries} (ha : WellFormed (.map a)) (hb : WellFormed (.map b))
    (hc : WellFormed (.map c)) :
    (Tree.empty.merge (.map a) = .map a ∧ (Tree.map a).merge .empty = .map a) ∧
    ((Tree.map a).merge (.map b)).merge (.map b) = (Tree.map a).merge (.map b) ∧
    ((∀ fa fc, ¬ Hides (.map a) (.map b) (.map c) fa fc) →
      ((Tree.map a).merge (.map b)).merge (.map c) =
        (Tree.map a).merge ((Tree.map b).merge (.map c))) ∧
    (((Tree.map a).merge (.map b)).merge (.map c) = (Tree.map a).merge ((Tree.map b).merge (.map c))
      ↔ ∀ fa fc, Hides (.map a) (.map b) (.map c) fa fc → mergeEntries fa fc = fc) ∧
    Tree.map (underlay (.map a) b) = (Tree.map a).merge (.map b) ∧
    ∀ keys below above, (Tree.map a).at? (keyPath keys) = some (.map below) →
      (Tree.map b).at? (keyPath keys) = some (.map above) →
      ∃ es, ((Tree.map a).merge (.map b)).at? (keyPath keys) = some (.map es) ∧
        Entries.keys es =
          Entries.keys below ++ (Entries.keys above).filter fun k => !Entries.has below k := by
  refine ⟨⟨empty_merge ha, ?_⟩, ?_, fun hnone => ?_, merge_assoc_iff ha hb hc, map_underlay hb,
    fun keys below above hbelow habove => ?_⟩
  · rw [Tree.empty, merge_map_map, mergeEntries_nil]
  · have huncovers : Uncovers (.map a) (.map b) (.map b) := fun _ _ es _ _ hes hv =>
      ⟨es, Option.some_inj.1 (hv.symm.trans hes)⟩
    rw [merge_assoc ha hb hb huncovers, merge_self hb]
  · exact (merge_assoc_iff ha hb hc).2 fun fa fc hhides => absurd hhides (hnone fa fc)
  · exact ⟨_, at?_merge ha hb hbelow habove,
      Entries.keys_mergeEntries _ (wellFormed_map.1 (hb.at? habove)).1⟩

/-- What holds for all projects; a tag is not looked through. -/
def siteLayer : Entries :=
  [(.str "image", .map [(.str "scale", .int 1), (.str "mode", .tagged "!m" (.map []))]),
    (.str "threads", .int 1)]

/-- What holds for one project. -/
def projectLayer : Entries :=
  [(.str "image", .map [(.str "mode", .map [(.str "robust", .null)])]), (.str "name", .str "x")]

/-- What holds for one user. -/
def userLayer : Entries :=
  [(.str "image", .map [(.str "mode", .map [(.str "robust", .int 2)]), (.str "niter", .int 5)]),
    (.str "threads", .map [(.str "min", .int 1)])]

/-- The grouping of the three layers does not matter. -/
theorem layers_are_merged : WellFormed (.map siteLayer) ∧ WellFormed (.map projectLayer) ∧
    WellFormed (.map userLayer) ∧
    (∀ fa fc, ¬ Hides (.map siteLayer) (.map projectLayer) (.map userLayer) fa fc) ∧
    ((Tree.map siteLayer).merge (.map projectLayer)).merge (.map userLayer) =
      (Tree.map siteLayer).merge ((Tree.map projectLayer).merge (.map userLayer)) ∧
    ((Tree.map siteLayer).merge (.map projectLayer)).merge (.map userLayer) =
      .map [(.str "image", .map [(.str "scale", .int 1),
          (.str "mode", .map [(.str "robust", .int 2)]), (.str "niter", .int 5)]),
        (.str "threads", .map [(.str "min", .int 1)]), (.str "name", .str "x")] := by
  have hsite : WellFormed (.map siteLayer) := by decide
  have hproject : WellFormed (.map projectLayer) := by decide
  have huser : WellFormed (.map userLayer) := by decide
  have hnone : ∀ fa fc, ¬ Hides (.map siteLayer) (.map projectLayer) (.map userLayer) fa fc := by
    intro fa fc hhides
    -- all three have mappings under `image`, and there the first has none any more
    obtain ⟨k, a, b, c, ha, hb, hc, hhides⟩ := hides_map.1 hhides
    obtain ⟨key, hmem, hsame⟩ := Entries.mem_of_get? hb
    simp only [projectLayer, List.mem_cons, Prod.mk.injEq, List.not_mem_nil, or_false] at hmem
    obtain ⟨rfl, rfl⟩ | ⟨rfl, rfl⟩ := hmem
    · obtain rfl := str_same.1 hsame
      cases ha
      cases hc
      obtain ⟨k, a, b, c, ha, hb, -, hhides⟩ := hides_map.1 hhides
      obtain ⟨key, hmem, hsame⟩ := Entries.mem_of_get? hb
      obtain ⟨rfl, rfl⟩ := Prod.mk.inj (List.mem_singleton.1 hmem)
      obtain rfl := str_same.1 hsame
      cases ha
      obtain ⟨es, hes⟩ := hhides.left
      cases hes
    · obtain rfl := str_same.1 hsame
      cases ha
  obtain ⟨-, -, hassoc, -⟩ := merging_is_lawful hsite hproject huser
  exact ⟨hsite, hproject, huser, hnone, hassoc hnone, rfl⟩

end Tree

end LayeredConfig
