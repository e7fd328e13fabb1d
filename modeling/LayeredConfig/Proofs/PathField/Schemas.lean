import LayeredConfig.Proofs.PathField.Stripped
import LayeredConfig.Proofs.Tree.Path
import LayeredConfig.Schema

/-!
# Schemas and the field

A schema that does not mention a key passes over it, unless it is strict about the keys of mappings
and the tree is a mapping (`Schema.Binds`): then the field is one more key that it does not know.
-/

namespace LayeredConfig

open Tree

namespace Schema

variable {f : String} {schema : Schema} {t : Tree}

theorem compareKinds_strip (location : String) (expected actual : Tree) :
    compareKinds location expected (actual.strip f) = compareKinds location expected actual := by
  have hfits : fits expected (actual.strip f) = fits expected actual := by
    cases actual <;> cases expected <;> simp [strip, fits]
  rw [compareKinds, compareKinds, hfits, kind_strip]

theorem check_of_not_map {expected actual : Tree}
    (h : (∀ slots, expected ≠ .map slots) ∨ ∀ es, actual ≠ .map es) (strict : Bool)
    (location : String) : check strict location expected actual =
      compareKinds location expected actual := by
  cases actual with
  | map es =>
    cases expected with
    | map slots =>
      rcases h with h | h
      · exact absurd rfl (h slots)
      · exact absurd rfl (h es)
    | _ => rw [check]; simp
  | _ => rw [check]; simp

theorem get?_of_mentions {slots : Entries} (h : Tree.mentions f (.map slots) = false) :
    Entries.get? slots (.str f) = none := by
  rw [Entries.get?_eq_none]
  intro e he
  rw [same_str_eq_false]
  intro hkey
  exact (mentions_map.1 h e he).1 (congrArg Yaml.keyText hkey)

/-- A schema that is not strict passes over a key that it does not mention. -/
theorem check_strip (location : String) {expected : Tree} (h : expected.mentions f = false)
    (actual : Tree) : check false location expected (actual.strip f) =
      check false location expected actual := by
  induction actual using Tree.induction generalizing location expected with
  | map es ih =>
    cases expected with
    | map slots =>
      rw [strip_map, check, check]
      induction es with
      | nil => rw [stripEntries_nil]
      | cons e rest ihRest =>
        obtain ⟨key, value⟩ := e
        have hrest := ihRest fun e he => ih e (List.mem_cons_of_mem _ he)
        -- For the field there is no slot, and only a strict schema would mind.
        by_cases hkey : key = .str f
        · rw [hkey, stripEntries_self, checkEntries, get?_of_mentions h]
          exact hrest
        · rw [stripEntries_cons hkey, checkEntries, checkEntries]
          cases hslot : Entries.get? slots key with
          | none => exact hrest
          | some slot =>
            obtain ⟨k, hmem, -⟩ := Entries.mem_of_get? hslot
            dsimp only
            rw [(ih _ List.mem_cons_self).2 _ (mentions_map.1 h _ hmem).2, hrest]
    | _ =>
      rw [check_of_not_map (.inl (by simp)), check_of_not_map (.inl (by simp)), compareKinds_strip]
  | _ =>
    rw [check_of_not_map (.inr (by simp [strip])), check_of_not_map (.inr (by simp)),
      compareKinds_strip]

/-- A strict schema refuses a key that it does not know. -/
theorem checkEntries_of_unknown {slots es : Entries} {key value : Tree} (hmem : (key, value) ∈ es)
    (hkey : Entries.get? slots key = none) (location : String) :
    ∃ m, checkEntries true location slots es = .error m := by
  induction es with
  | nil => cases hmem
  | cons e rest ih =>
    obtain ⟨k, v⟩ := e
    rw [checkEntries]
    rcases List.mem_cons.1 hmem with heq | hmem
    · obtain ⟨rfl, rfl⟩ := Prod.mk.inj heq
      rw [hkey]
      exact ⟨_, rfl⟩
    · obtain ⟨m, hrest⟩ := ih hmem
      cases Entries.get? slots k with
      | none => exact ⟨_, rfl⟩
      | some slot =>
        dsimp only
        cases check true (SectionPath.childLabel location (Yaml.keyText k)) slot v with
        | ok => exact ⟨m, hrest⟩
        | error m => exact ⟨m, rfl⟩

/-- The schema is strict about the keys of mappings, and the tree is one. -/
def Binds (schema : Schema) (t : Tree) : Prop :=
  schema.strict = true ∧ (∃ slots, schema.defaults = .map slots) ∧ ∃ es, t = .map es

theorem binds_strip : schema.Binds (t.strip f) ↔ schema.Binds t := by
  cases t <;> simp [Binds, strip]

/-- Unless it is, the schema makes of the tree with the field what it makes of it without, but for
the field. -/
theorem apply_strip (h : schema.defaults.mentions f = false) (hfree : ¬ schema.Binds t) :
    schema.apply (t.strip f) = (schema.apply t).map (strip f) := by
  have hcheck : check schema.strict "" schema.defaults (t.strip f) =
      check schema.strict "" schema.defaults t := by
    cases hstrict : schema.strict with
    | false => exact check_strip "" h t
    | true =>
      have hnot : (∀ slots, schema.defaults ≠ .map slots) ∨ ∀ es, t ≠ .map es := by
        by_cases hdefaults : ∃ slots, schema.defaults = .map slots
        · exact .inr fun es hes => hfree ⟨hstrict, hdefaults, es, hes⟩
        · exact .inl fun slots hslots => hdefaults ⟨slots, hslots⟩
      have hnot' : (∀ slots, schema.defaults ≠ .map slots) ∨ ∀ es, t.strip f ≠ .map es := by
        refine hnot.imp_right fun hmap => ?_
        cases t with
        | map es => exact absurd rfl (hmap es)
        | _ => simp [strip]
      rw [check_of_not_map hnot, check_of_not_map hnot', compareKinds_strip]
  unfold apply
  rw [hcheck]
  cases check schema.strict "" schema.defaults t with
  | error m => rfl
  | ok =>
    change Except.ok _ = Except.ok _
    rw [strip_merge, strip_of_mentions h]

/-- If it is, the field is refused. -/
theorem apply_of_binds (h : schema.defaults.mentions f = false) (hbinds : schema.Binds t)
    (hfield : ∀ es, t = .map es → ∃ v, Entries.get? es (.str f) = some v) :
    ∃ m, schema.apply t = .error m := by
  obtain ⟨hstrict, ⟨slots, hdefaults⟩, es, rfl⟩ := hbinds
  obtain ⟨v, hget⟩ := hfield es rfl
  obtain ⟨key, hmem, hsame⟩ := Entries.mem_of_get? hget
  obtain rfl := same_str.1 hsame
  rw [hdefaults] at h
  obtain ⟨m, hm⟩ := checkEntries_of_unknown hmem (get?_of_mentions h) ""
  refine ⟨m, ?_⟩
  rw [apply, hstrict, hdefaults, check, hm]
  rfl

theorem eq_merge_of_apply {content : Tree} (h : schema.apply t = .ok content) :
    content = schema.defaults.merge t := by
  unfold apply at h
  cases hcheck : check schema.strict "" schema.defaults t with
  | error m =>
    rw [hcheck] at h
    cases h
  | ok =>
    rw [hcheck] at h
    exact (Except.ok.inj h).symm

/-- A schema makes a mapping of a mapping and of nothing else. -/
theorem binds_apply {content : Tree} (h : schema.apply t = .ok content) :
    schema.Binds content ↔ schema.Binds t := by
  have hmap : (∃ es, content = .map es) ↔ ∃ es, t = .map es := by
    rw [eq_merge_of_apply h]
    cases t with
    | map es =>
      cases schema.defaults with
      | map slots => simp [merge_map_map]
      | _ => simp [merge_map_of_not_map]
    | _ => simp [merge_of_not_map]
  rw [Binds, Binds, hmap]

/-- What a mapping holds under a key without a default is in the section. -/
theorem get?_apply {inner : Entries} (happly : schema.apply t = .ok (.map inner)) {text : String}
    (ht : ∀ es, t = .map es → WellFormed t ∧ Entries.get? es (.str f) = some (.str text)) :
    Entries.get? inner (.str f) = some (.str text) := by
  have hmerge := eq_merge_of_apply happly
  cases t with
  | map es =>
    obtain ⟨hwell, hget⟩ := ht es rfl
    have hone : ∀ e ∈ es, e.1 = .str f → e.2 = .str text := by
      intro e he hkey
      have hfound := Entries.get?_of_mem hwell he
      rw [hkey, hget, Option.some_inj] at hfound
      exact hfound.symm
    cases hdefaults : schema.defaults with
    | map slots =>
      rw [hdefaults, merge_map_map] at hmerge
      rw [Tree.map.inj hmerge]
      exact Entries.get?_mergeEntries_str hone (.inl hget)
    | _ =>
      rw [hdefaults, merge_map_of_not_map (by simp)] at hmerge
      rw [Tree.map.inj hmerge]
      exact hget
  | _ =>
    rw [merge_of_not_map (by simp)] at hmerge
    cases hmerge

end Schema

end LayeredConfig
