import LayeredConfig.Proofs.Keeping
import LayeredConfig.Proofs.PathField.Schemas
import LayeredConfig.Proofs.Tree.Algebra

/-!
# Applying schemas

A schema and a section clash at a place that both reach through plain mappings, if the section has a
value of another kind there, or a key that a strict schema does not know (`Schema.Offends`).
Checking finds exactly this, so a schema refuses a section if and only if it offends somewhere.
Otherwise the result has what the section has and the defaults for the rest, and is itself a section
that the schema leaves as it is (`apply_completes_or_refuses`).

Laying a section over the defaults brings in no new offence (`Offends.of_merge`): what is found in
the merged tree at a place of the defaults is the default, or the section's value over it.
-/

namespace LayeredConfig

open Tree

namespace Schema

variable {s : Schema} {strict : Bool} {d t x y : Tree} {place : List Tree}

/-! ## Offences -/

/-- The value is of the kind of the default; an integer counts as a float. -/
def OfKind (default value : Tree) : Prop :=
  value.kind = default.kind ∨ default.kind = "float" ∧ value.kind = "integer"

/-- The value does not fit the default: neither is null and they are of different kinds, or both are
mappings and a strict schema does not know all keys. -/
def Clashes (strict : Bool) (default value : Tree) : Prop :=
  default ≠ .null ∧ value ≠ .null ∧ ¬ OfKind default value ∨
    strict = true ∧ ∃ slots es, default = .map slots ∧ value = .map es ∧
      ∃ key ∈ Entries.keys es, Entries.get? slots key = none

/-- At the place, the tree has a value that does not fit the default there. -/
def Offends (strict : Bool) (defaults t : Tree) (place : List Tree) : Prop :=
  ∃ default value, defaults.at? (keyPath place) = some default ∧
    t.at? (keyPath place) = some value ∧ Clashes strict default value

theorem offends_nil : Offends strict d t [] ↔ Clashes strict d t := by
  simp [Offends, at?_nil]

theorem offends_cons {key : Tree} : Offends strict d t (key :: place) ↔
    ∃ slots es slot value, d = .map slots ∧ t = .map es ∧ Entries.get? slots key = some slot ∧
      Entries.get? es key = some value ∧ Offends strict slot value place := by
  constructor
  · rintro ⟨x, y, hx, hy, hclashes⟩
    obtain ⟨slots, slot, rfl, hslot, hx⟩ := map_of_at? hx
    obtain ⟨es, value, rfl, hvalue, hy⟩ := map_of_at? hy
    exact ⟨slots, es, slot, value, rfl, rfl, hslot, hvalue, x, y, hx, hy, hclashes⟩
  · rintro ⟨slots, es, slot, value, rfl, rfl, hslot, hvalue, x, y, hx, hy, hclashes⟩
    refine ⟨x, y, ?_, ?_, hclashes⟩
    · exact Option.bind_eq_some_iff.2 ⟨slot, hslot, hx⟩
    · exact Option.bind_eq_some_iff.2 ⟨value, hvalue, hy⟩

/-- Two mappings are of the same kind. -/
theorem clashes_map {slots es : Entries} : Clashes strict (.map slots) (.map es) ↔
    strict = true ∧ ∃ key ∈ Entries.keys es, Entries.get? slots key = none := by
  simp [Clashes, OfKind, kind]

/-- No tree clashes with itself. -/
theorem not_clashes_self (strict : Bool) (t : Tree) : ¬ Clashes strict t t := by
  rintro (⟨-, -, hkind⟩ | ⟨-, slots, es, rfl, hes, key, hkey, hnone⟩)
  · exact hkind (.inl rfl)
  · cases hes
    obtain ⟨e, he, rfl⟩ := List.mem_map.1 hkey
    rw [Entries.get?_eq_none] at hnone
    cases (same_refl e.1).symm.trans (hnone e he)

/-! ## Checking -/

theorem fits_iff (h : (∀ slots, d ≠ .map slots) ∨ ∀ es, t ≠ .map es) :
    fits d t = true ↔ ¬ Clashes strict d t := by
  have hnull : Clashes strict d t ↔ d ≠ .null ∧ t ≠ .null ∧ ¬ OfKind d t := by
    refine or_iff_left ?_
    rintro ⟨-, slots, es, rfl, rfl, -⟩
    rcases h with h | h
    · exact h slots rfl
    · exact h es rfl
  rw [hnull]
  cases d <;> cases t <;> simp_all [fits, OfKind, kind]

/-- Values that are not both mappings are compared by their kinds, and nothing below them is. -/
theorem compareKinds_eq_ok_iff (h : (∀ slots, d ≠ .map slots) ∨ ∀ es, t ≠ .map es)
    (location : String) :
    compareKinds location d t = .ok () ↔ ∀ place, ¬ Offends strict d t place := by
  have hplaces : (∀ place, ¬ Offends strict d t place) ↔ ¬ Clashes strict d t := by
    refine ⟨fun hnone hclashes => hnone [] (offends_nil.2 hclashes), fun hfits place => ?_⟩
    cases place with
    | nil => rwa [offends_nil]
    | cons key rest =>
      rw [offends_cons]
      rintro ⟨slots, es, -, -, rfl, rfl, -⟩
      rcases h with h | h
      · exact h slots rfl
      · exact h es rfl
  rw [hplaces, ← fits_iff h, compareKinds]
  cases fits d t <;> simp

theorem checkEntries_eq_ok_iff {slots es : Entries} (location : String) :
    checkEntries strict location slots es = .ok () ↔ ∀ e ∈ es,
      (Entries.get? slots e.1 = none → strict = false) ∧
      ∀ slot, Entries.get? slots e.1 = some slot →
        check strict (SectionPath.childLabel location (Yaml.keyText e.1)) slot e.2 = .ok () := by
  induction es with
  | nil => simp [checkEntries]
  | cons e rest ih =>
    rw [List.forall_mem_cons, ← ih, checkEntries]
    cases Entries.get? slots e.1 with
    | none => cases strict <;> simp
    | some slot =>
      cases hcheck : check strict (SectionPath.childLabel location (Yaml.keyText e.1)) slot e.2 <;>
        simp [hcheck]

/-- Checking finds no mismatch if and only if there is no offence at any place. -/
theorem check_eq_ok_iff (ht : t.WellFormed) (location : String) :
    check strict location d t = .ok () ↔ ∀ place, ¬ Offends strict d t place := by
  induction t using Tree.induction generalizing d location with
  | map es ih =>
    by_cases hslots : ∃ slots, d = .map slots
    · obtain ⟨slots, rfl⟩ := hslots
      rw [check, checkEntries_eq_ok_iff]
      constructor
      · intro hall place
        cases place with
        | nil =>
          rw [offends_nil, clashes_map]
          rintro ⟨hstrict, key, hkey, hnone⟩
          obtain ⟨e, he, rfl⟩ := List.mem_map.1 hkey
          cases hstrict.symm.trans ((hall e he).1 hnone)
        | cons key rest =>
          rw [offends_cons]
          rintro ⟨_, _, slot, value, hslots, hes, hslot, hvalue, hoffends⟩
          cases hslots
          cases hes
          -- the entry may spell the key in another way than the place does
          obtain ⟨k, hmem, hsame⟩ := Entries.mem_of_get? hvalue
          obtain ⟨hk, hwell⟩ := (wellFormed_map.1 ht).2 _ hmem
          rw [Entries.get?_congr hk hsame] at hslot
          exact ((ih _ hmem).2 hwell _).1 ((hall _ hmem).2 slot hslot) rest hoffends
      · intro hnone e he
        refine ⟨fun hunknown => Bool.eq_false_iff.2 fun hstrict => ?_, fun slot hslot => ?_⟩
        · refine hnone [] (offends_nil.2 (clashes_map.2 ⟨hstrict, e.1, ?_, hunknown⟩))
          exact List.mem_map_of_mem he
        · refine ((ih e he).2 ((wellFormed_map.1 ht).2 e he).2 _).2 fun place hoffends => ?_
          exact hnone (e.1 :: place) (offends_cons.2
            ⟨slots, es, slot, e.2, rfl, rfl, hslot, Entries.get?_of_mem ht he, hoffends⟩)
    · have hother : ∀ slots, d ≠ .map slots := fun slots h => hslots ⟨slots, h⟩
      rw [check_of_not_map (.inl hother), compareKinds_eq_ok_iff (.inl hother)]
  | _ => rw [check_of_not_map (.inr (by simp)), compareKinds_eq_ok_iff (.inr (by simp))]

theorem apply_eq_ok_iff {r : Tree} (ht : t.WellFormed) : s.apply t = .ok r ↔
    (∀ place, ¬ Offends s.strict s.defaults t place) ∧ r = s.defaults.merge t := by
  rw [← check_eq_ok_iff ht "", apply]
  cases check s.strict "" s.defaults t with
  | error m =>
    constructor
    · intro h
      cases h
    · rintro ⟨h, -⟩
      cases h
  | ok =>
    change Except.ok _ = Except.ok r ↔ _
    rw [Except.ok.injEq, eq_comm]
    exact (and_iff_right rfl).symm

/-! ## Merging over the defaults -/

/-- Where the base has a value, the merged tree has this value or that of the overlay laid over
it. -/
theorem at?_merge_cases (hd : d.WellFormed) (ht : t.WellFormed)
    (hx : d.at? (keyPath place) = some x) (hy : (d.merge t).at? (keyPath place) = some y) :
    y = x ∨ ∃ u, t.at? (keyPath place) = some u ∧ y = x.merge u := by
  induction place generalizing d t with
  | nil =>
    have hx : d = x := Option.some_inj.1 ((at?_nil d).symm.trans hx)
    have hy : d.merge t = y := Option.some_inj.1 ((at?_nil _).symm.trans hy)
    exact .inr ⟨t, at?_nil t, by rw [← hx, hy]⟩
  | cons key rest ih =>
    obtain ⟨slots, slot, rfl, hslot, hx⟩ := map_of_at? hx
    by_cases hmap : ∃ es, t = .map es
    · obtain ⟨es, rfl⟩ := hmap
      rw [merge_map_map] at hy
      obtain ⟨_, value, hmerged, hvalue, hy⟩ := map_of_at? hy
      cases hmerged
      rw [get?_mergeEntries_eq hd ht, hslot] at hvalue
      cases hown : Entries.get? es key with
      | none =>
        rw [hown] at hvalue
        cases hvalue
        exact .inl (Option.some_inj.1 (hy.symm.trans hx))
      | some own =>
        rw [hown] at hvalue
        cases hvalue
        refine (ih (hd.of_get? hslot) (ht.of_get? hown) hx hy).imp_right ?_
        rintro ⟨u, hu, rfl⟩
        exact ⟨u, Option.bind_eq_some_iff.2 ⟨own, hown, hu⟩, rfl⟩
    · rw [merge_of_not_map fun es h => hmap ⟨es, h⟩] at hy
      obtain ⟨es, -, rfl, -⟩ := map_of_at? hy
      exact absurd ⟨es, rfl⟩ hmap

/-- A value that has been laid over a default does not clash with it, unless it did before. -/
theorem Clashes.of_merge (hy : y.WellFormed) (h : Clashes strict x (x.merge y)) :
    Clashes strict x y := by
  by_cases hmap : (∃ slots, x = .map slots) ∧ ∃ es, y = .map es
  · obtain ⟨⟨slots, rfl⟩, es, rfl⟩ := hmap
    rw [merge_map_map, clashes_map] at h
    obtain ⟨hstrict, key, hkey, hnone⟩ := h
    rw [Entries.keys_mergeEntries _ (wellFormed_map.1 hy).1, List.mem_append] at hkey
    refine clashes_map.2 ⟨hstrict, key, ?_, hnone⟩
    rcases hkey with hknown | hnew
    · refine absurd (clashes_map.2 ⟨hstrict, key, hknown, hnone⟩) ?_
      exact not_clashes_self strict (.map slots)
    · exact (List.mem_filter.1 hnew).1
  · rwa [merge_eq_overlay fun slots es hx hy => hmap ⟨⟨slots, hx⟩, es, hy⟩] at h

/-- Laying a tree over the defaults brings in no offence. -/
theorem Offends.of_merge (hd : d.WellFormed) (ht : t.WellFormed)
    (h : Offends strict d (d.merge t) place) : Offends strict d t place := by
  obtain ⟨x, y, hx, hy, hclashes⟩ := h
  -- The offending value is the default itself, which fits, or comes from the section.
  rcases at?_merge_cases hd ht hx hy with rfl | ⟨u, hu, rfl⟩
  · exact absurd hclashes (not_clashes_self strict y)
  · exact ⟨x, u, hx, hu, hclashes.of_merge (ht.at? hu)⟩

/-- What is laid over the defaults twice is laid over them once. -/
theorem merge_merge (hd : d.WellFormed) (ht : t.WellFormed) : d.merge (d.merge t) = d.merge t := by
  have huncovers : Uncovers d d t := fun _ ea _ _ ha _ hb =>
    ⟨ea, Option.some_inj.1 (hb.symm.trans ha)⟩
  rw [← merge_assoc hd hd ht huncovers, merge_self hd]

/-! ## Results -/

/-- The tree has what a section that the schema accepts becomes. -/
structure Completes (s : Schema) (t r : Tree) : Prop where
  /-- Values are of the kinds of the defaults in their places, unless one of the two is null. -/
  kinds : ∀ place default value, s.defaults.at? (keyPath place) = some default →
    r.at? (keyPath place) = some value → default ≠ .null → value ≠ .null → OfKind default value
  /-- What the section has is there. -/
  own : ∀ place value, t.at? (keyPath place) = some value → (∀ es, value ≠ .map es) →
    r.at? (keyPath place) = some value
  /-- So is each default where the section has nothing, nor anything but mappings on the way. -/
  filled : ∀ place default, s.defaults.at? (keyPath place) = some default → ¬ t.Covers place →
    r.at? (keyPath place) = some default
  /-- A strict schema knows all keys of the mappings in the places of its own. -/
  known : s.strict = true → ∀ place slots es, s.defaults.at? (keyPath place) = some (.map slots) →
    r.at? (keyPath place) = some (.map es) →
    ∀ key ∈ Entries.keys es, ∃ slot, Entries.get? slots key = some slot
  /-- The schema leaves it as it is. -/
  again : s.apply r = .ok r

/-- **Applying a schema.** A section is refused if and only if somewhere it has a value that does
not fit the default there. Otherwise the result is the section, completed by the defaults. -/
theorem apply_completes_or_refuses (hs : s.defaults.WellFormed) (ht : t.WellFormed) :
    ((∃ m, s.apply t = .error m) ↔ ∃ place, Offends s.strict s.defaults t place) ∧
      ∀ r, s.apply t = .ok r → s.Completes t r := by
  constructor
  · cases happly : s.apply t with
    | ok r =>
      obtain ⟨hnone, -⟩ := (apply_eq_ok_iff ht).1 happly
      exact iff_of_false nofun fun ⟨place, hoffends⟩ => hnone place hoffends
    | error m =>
      refine iff_of_true ⟨m, rfl⟩ (by_contra fun hnone => ?_)
      have hok := (apply_eq_ok_iff (s := s) ht).2 ⟨not_exists.1 hnone, rfl⟩
      cases happly.symm.trans hok
  · intro r happly
    obtain ⟨hnone, rfl⟩ := (apply_eq_ok_iff ht).1 happly
    have hmerged : ∀ place, ¬ Offends s.strict s.defaults (s.defaults.merge t) place :=
      fun place hoffends => hnone place (hoffends.of_merge hs ht)
    have hkeeps : Keeps [] t (s.defaults.merge t) := .merge hs ht
    exact {
      kinds := fun place x y hx hy hdefault hvalue => by_contra fun hkind =>
        hmerged place ⟨x, y, hx, hy, .inl ⟨hdefault, hvalue, hkind⟩⟩
      own := fun place value hvalue hleaf =>
        hkeeps.found (by simp [Avoids]) hvalue hleaf
      filled := fun place default hdefault huncovered =>
        at?_merge_of_not_covers hs ht huncovered hdefault
      known := fun hstrict place slots es hslots hes key hkey =>
        Option.ne_none_iff_exists'.1 fun hunknown => hmerged place ⟨_, _, hslots, hes,
          clashes_map.2 ⟨hstrict, key, hkey, hunknown⟩⟩
      again := (apply_eq_ok_iff (hs.merge ht)).2 ⟨hmerged, (merge_merge hs ht).symm⟩ }

/-- A strict schema with a null, a float, a value under a tag and a mapping. -/
def imaging : Schema where
  defaults := .map [(.str "image", .null), (.str "scale", .float (Binary64.ofRatio false 3 2)),
    (.str "mode", .tagged "!m" (.int 1)),
    (.str "opts", .map [(.str "verbose", .bool false), (.str "name", .str "x")])]
  strict := true

/-- A section with an integer for the float, a null for a boolean and anything for the null. -/
def imagingSection : Tree :=
  .map [(.str "scale", .int 2), (.str "opts", .map [(.str "verbose", .null)]),
    (.str "image", .map [(.str "tag", .int 1)])]

theorem imaging_completes_section : imaging.defaults.WellFormed ∧ imagingSection.WellFormed ∧
    ∃ r, imaging.apply imagingSection = .ok r ∧ imaging.Completes imagingSection r ∧
      r = .map [(.str "image", .map [(.str "tag", .int 1)]), (.str "scale", .int 2),
        (.str "mode", .tagged "!m" (.int 1)),
        (.str "opts", .map [(.str "verbose", .null), (.str "name", .str "x")])] := by
  have hwell : imaging.defaults.WellFormed ∧ imagingSection.WellFormed := by decide +kernel
  have happly : imaging.apply imagingSection = .ok (imaging.defaults.merge imagingSection) := rfl
  exact ⟨hwell.1, hwell.2, _, happly,
    (apply_completes_or_refuses hwell.1 hwell.2).2 _ happly, rfl⟩

end Schema

end LayeredConfig
