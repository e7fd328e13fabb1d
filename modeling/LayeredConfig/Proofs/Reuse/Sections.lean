import LayeredConfig.Proofs.Reuse.OnlyUses

/-!
# Documents of sections

In a document of sections every `_use` names one section by its key. `Uses` is the relation between
sections that the `_use` directives set up, and `Reuse.find` looks sections up in the entries of a
document. Whatever is resolved there is `Finished`: it has text keys and no directive. A `_use` that
cannot be resolved makes the tree fail that has it, at whatever depth it stands.
-/

namespace LayeredConfig

open Directive Tree

/-! ## Entries somewhere in a tree -/

namespace Tree

variable {R : Tree → Tree → Prop}

/-- Some entry of some mapping in the tree, outside of tags and keys, satisfies `R`. -/
def Somewhere (R : Tree → Tree → Prop) (t : Tree) : Prop := ¬ t.Everywhere fun k v => ¬ R k v

instance [∀ k v, Decidable (R k v)] (t : Tree) : Decidable (Somewhere R t) :=
  inferInstanceAs (Decidable (¬ _))

theorem somewhere_map {es : Entries} :
    Somewhere R (.map es) ↔ ∃ e ∈ es, R e.1 e.2 ∨ Somewhere R e.2 := by
  simp only [Somewhere, everywhere_map, not_forall, not_and_or, not_not, exists_prop]

theorem somewhere_seq {items : List Tree} :
    Somewhere R (.seq items) ↔ ∃ t ∈ items, Somewhere R t := by
  simp only [Somewhere, everywhere_seq, not_forall, exists_prop]

/-- Only mappings and sequences hold entries. -/
theorem Somewhere.nested {t : Tree} (h : Somewhere R t) :
    (∃ es, t = .map es) ∨ ∃ items, t = .seq items := by
  cases t with
  | map es => exact .inl ⟨es, rfl⟩
  | seq items => exact .inr ⟨items, rfl⟩
  | _ => exact absurd trivial h

/-- What holds everywhere may be weakened to what holds of the entries that are there. -/
theorem Everywhere.imp_somewhere {R' : Tree → Tree → Prop} {t : Tree} (h : Everywhere R t)
    (himp : ∀ k v, R k v → t.Somewhere (fun k' v' => k' = k ∧ v' = v) → R' k v) :
    Everywhere R' t := by
  induction t using Tree.induction with
  | map es ih =>
    refine everywhere_map.2 fun e he => ?_
    obtain ⟨hhere, hbelow⟩ := everywhere_map.1 h e he
    refine ⟨himp _ _ hhere (somewhere_map.2 ⟨e, he, .inl ⟨rfl, rfl⟩⟩), ?_⟩
    exact (ih e he).2 hbelow fun k v hR hsome => himp k v hR (somewhere_map.2 ⟨e, he, .inr hsome⟩)
  | seq items ih =>
    refine everywhere_seq.2 fun t ht => ih t ht (everywhere_seq.1 h t ht) fun k v hR hsome => ?_
    exact himp k v hR (somewhere_seq.2 ⟨t, ht, hsome⟩)
  | _ => trivial

theorem Everywhere.and {R' : Tree → Tree → Prop} {t : Tree} (h : Everywhere R t)
    (h' : Everywhere R' t) : Everywhere (fun k v => R k v ∧ R' k v) t := by
  induction t using Tree.induction with
  | map es ih =>
    refine everywhere_map.2 fun e he => ?_
    obtain ⟨hhere, hbelow⟩ := everywhere_map.1 h e he
    obtain ⟨hhere', hbelow'⟩ := everywhere_map.1 h' e he
    exact ⟨⟨hhere, hhere'⟩, (ih e he).2 hbelow hbelow'⟩
  | seq items ih =>
    exact everywhere_seq.2 fun t ht => ih t ht (everywhere_seq.1 h t ht) (everywhere_seq.1 h' t ht)
  | _ => trivial

theorem Somewhere.mono {R' : Tree → Tree → Prop} (h : ∀ k v, R k v → R' k v) {t : Tree}
    (ht : Somewhere R t) : Somewhere R' t :=
  fun hnot => ht (Everywhere.mono (fun k v hR' hR => hR' (h k v hR)) t hnot)

end Tree

/-! ## What a `_use` names -/

namespace Reuse

/-- The key that a name stands for, if it is a path of one key. -/
def keyOf? (name : String) : Option String :=
  match SectionPath.parse name with
  | [.key u] => some u
  | _ => none

theorem keyOf?_eq_some {name u : String} :
    keyOf? name = some u ↔ SectionPath.parse name = [.key u] := by
  unfold keyOf?
  split
  next key hparse => simp [hparse]
  next hnot =>
    refine ⟨nofun, fun hparse => absurd hparse (hnot u)⟩

/-- The section that a value of `_use` names, if it names one alone, by its key. -/
def target? (value : Tree) : Option String :=
  match Directive.names useKey value with
  | .ok [name] => keyOf? name
  | _ => none

theorem target?_eq_some {value : Tree} {u : String} :
    target? value = some u ↔
      ∃ name, Directive.names useKey value = .ok [name] ∧ keyOf? name = some u := by
  unfold target?
  split
  next name hnames =>
    refine ⟨fun h => ⟨name, hnames, h⟩, ?_⟩
    rintro ⟨name', hnames', h⟩
    cases hnames.symm.trans hnames'
    exact h
  next hnot => exact ⟨nofun, fun ⟨name, hnames, _⟩ => absurd hnames (hnot name)⟩

/-- A mapping names no section. -/
theorem target?_map (es : Entries) : target? (.map es) = none := rfl

/-- A list of names has texts for items. -/
theorem text_of_mem_names {key : String} {items : List Tree} {names : List String}
    (h : Directive.names key (.seq items) = .ok names) : ∀ t ∈ items, ∃ name, t = .str name := by
  induction items generalizing names with
  | nil => simp
  | cons t rest ih =>
    rw [Directive.names, List.mapM_cons] at h
    cases t with
    | str name =>
      cases hrest : Directive.names key (.seq rest) with
      | ok names' => exact List.forall_mem_cons.2 ⟨⟨name, rfl⟩, ih hrest⟩
      | error fault =>
        rw [Directive.names] at hrest
        rw [hrest] at h
        cases h
    | _ => cases h

/-- What names sections or files holds no entries. -/
theorem not_somewhere_of_names {R : Tree → Tree → Prop} {key : String} {names : List String}
    {value : Tree} (hnames : Directive.names key value = .ok names) : ¬ value.Somewhere R := by
  cases value with
  | seq items =>
    rw [somewhere_seq]
    rintro ⟨t, ht, hsome⟩
    obtain ⟨name, rfl⟩ := text_of_mem_names hnames t ht
    exact hsome trivial
  | map es => cases hnames
  | _ => exact fun hsome => hsome trivial

theorem not_somewhere_of_target? {R : Tree → Tree → Prop} {value : Tree} {u : String}
    (h : target? value = some u) : ¬ value.Somewhere R := by
  obtain ⟨name, hnames, -⟩ := target?_eq_some.1 h
  exact not_somewhere_of_names hnames

/-- The entry is a `_use` of a section in `B`. -/
def Calls (B : String → Prop) (key value : Tree) : Prop :=
  key = .str useKey ∧ ∃ u ∈ target? value, B u

instance (B : String → Prop) [DecidablePred B] (key value : Tree) : Decidable (Calls B key value) :=
  inferInstanceAs (Decidable (_ ∧ _))

/-- The value under a key of the document, unless it is null. -/
def section? (es : Entries) (u : String) : Option Tree :=
  (Entries.get? es (.str u)).filter fun t => !t.isNull

/-- The document has a mapping under the key, possibly tagged. -/
def HasMapping (es : Entries) (u : String) : Prop :=
  (Entries.get? es (.str u)).any Tree.isMapping = true

instance (es : Entries) : DecidablePred (HasMapping es) := fun _ =>
  inferInstanceAs (Decidable (_ = true))

theorem exists_section?_of_hasMapping {es : Entries} {u : String} (h : HasMapping es u) :
    ∃ t, section? es u = some t ∧ t.isMapping = true := by
  obtain ⟨t, ht, hmap⟩ := (Option.any_eq_true _ _).1 h
  refine ⟨t, Option.filter_eq_some_iff.2 ⟨ht, ?_⟩, hmap⟩
  rw [Tree.isMapping] at hmap
  rw [Tree.isNull]
  split at hmap
  next entries hentries => rw [hentries]; rfl
  · cases hmap

/-- Look up a section by its name. -/
def find (es : Entries) (name : String) : Option Tree := (keyOf? name).bind (section? es)

/-- Some node of the section `s` uses the section `u`. -/
def Uses (es : Entries) (s u : String) : Prop :=
  ∃ t, Entries.get? es (.str s) = some t ∧ t.Somewhere (Calls (· = u))

end Reuse

open Reuse

/-! ## Trees that use sections -/

/-- The keys are texts and no two of a mapping the same, and the only directives are `_use`s that
name one section in `T`. -/
structure Sectional (T : String → Prop) (t : Tree) : Prop where
  wellFormed : t.WellFormed
  texts : t.Everywhere fun key _ => ∃ name, key = .str name
  plain : t.Lacks [includeKey, flattenKey, separatorKey]
  uses : t.Everywhere fun key value => key = .str useKey → ∃ u ∈ target? value, T u

/-- The keys are texts, and there is no directive. -/
abbrev Finished : Tree → Prop := Sectional fun _ => False

namespace Sectional

variable {T T' : String → Prop} {t : Tree}

private def decidableText : (key : Tree) → Decidable (∃ name, key = .str name)
  | .str name => .isTrue ⟨name, rfl⟩
  | .null | .bool _ | .int _ | .float _ | .seq _ | .map _ | .tagged _ _ => .isFalse (by simp)

instance [DecidablePred T] (t : Tree) : Decidable (Sectional T t) :=
  have := decidableText
  decidable_of_iff
    (t.WellFormed ∧ (t.Everywhere fun key _ => ∃ name, key = .str name) ∧
      t.Lacks [includeKey, flattenKey, separatorKey] ∧
      t.Everywhere fun key value => key = .str useKey → ∃ u ∈ target? value, T u)
    ⟨fun ⟨h₁, h₂, h₃, h₄⟩ => ⟨h₁, h₂, h₃, h₄⟩, fun ⟨h₁, h₂, h₃, h₄⟩ => ⟨h₁, h₂, h₃, h₄⟩⟩

theorem mono (h : Sectional T t) (hT : ∀ u, T u → T' u) : Sectional T' t where
  wellFormed := h.wellFormed
  texts := h.texts
  plain := h.plain
  uses := Everywhere.mono (fun _ _ huses hkey =>
    let ⟨u, htarget, hu⟩ := huses hkey
    ⟨u, htarget, hT u hu⟩) t h.uses

/-- Of the sections in `T`, only those count that the tree uses. -/
theorem restrict (h : Sectional T t) :
    Sectional (fun u => T u ∧ t.Somewhere (Calls (· = u))) t where
  wellFormed := h.wellFormed
  texts := h.texts
  plain := h.plain
  uses := by
    refine h.uses.imp_somewhere fun key value huses hsome hkey => ?_
    obtain ⟨u, htarget, hu⟩ := huses hkey
    refine ⟨u, htarget, hu, hsome.mono ?_⟩
    rintro _ _ ⟨rfl, rfl⟩
    exact ⟨hkey, u, htarget, rfl⟩

theorem lacks (h : Finished t) : t.Lacks all := by
  refine Everywhere.mono (fun key value ⟨hplain, huses⟩ name hname => ?_) t
    (Everywhere.and h.plain h.uses)
  by_cases hkey : name = useKey
  · rintro rfl
    obtain ⟨u, -, hu⟩ := huses (by rw [hkey])
    exact hu
  · refine hplain name ?_
    simp only [all, List.mem_cons] at hname ⊢
    grind

theorem lacks_use (h : Finished t) : t.Lacks [useKey] := h.lacks.mono (by simp [all])

theorem value {es : Entries} (h : Sectional T (.map es)) {e : Tree × Tree} (he : e ∈ es) :
    Sectional T e.2 where
  wellFormed := ((wellFormed_map.1 h.wellFormed).2 e he).2
  texts := (everywhere_map.1 h.texts e he).2
  plain := (everywhere_map.1 h.plain e he).2
  uses := (everywhere_map.1 h.uses e he).2

theorem of_get? {es : Entries} (h : Sectional T (.map es)) {key v : Tree}
    (hv : Entries.get? es key = some v) : Sectional T v := by
  obtain ⟨k, hmem, -⟩ := Entries.mem_of_get? hv
  exact h.value hmem

theorem item {items : List Tree} (h : Sectional T (.seq items)) {t : Tree} (ht : t ∈ items) :
    Sectional T t where
  wellFormed := wellFormed_seq.1 h.wellFormed t ht
  texts := everywhere_seq.1 h.texts t ht
  plain := everywhere_seq.1 h.plain t ht
  uses := everywhere_seq.1 h.uses t ht

theorem section? {es : Entries} (h : Sectional T (.map es)) {u : String}
    (hu : Reuse.section? es u = some t) : Sectional T t :=
  h.of_get? (Option.filter_eq_some_iff.1 hu).1

theorem text {es : Entries} (h : Sectional T (.map es)) {e : Tree × Tree} (he : e ∈ es) :
    ∃ name, e.1 = .str name := (everywhere_map.1 h.texts e he).1

theorem without {es : Entries} (h : Sectional T (.map es)) :
    Entries.Without [includeKey, flattenKey, separatorKey] es := (Entries.lacks_map.1 h.plain).1

/-- The section that the `_use` of a mapping names. -/
theorem target {es : Entries} (h : Sectional T (.map es)) {value : Tree}
    (hvalue : Entries.get? es (.str useKey) = some value) : ∃ u, target? value = some u ∧ T u := by
  obtain ⟨k, hmem, hsame⟩ := Entries.mem_of_get? hvalue
  exact (everywhere_map.1 h.uses _ hmem).1 (same_str.1 hsame)

theorem erase {es : Entries} (h : Sectional T (.map es)) (key : Tree) :
    Sectional T (.map (Entries.erase es key)) where
  wellFormed := h.wellFormed.erase key
  texts := h.texts.erase key
  plain := h.plain.erase key
  uses := h.uses.erase key

private theorem layered_texts : Layered fun key _ => ∃ name, key = .str name where
  respell hsame _ h := by
    obtain ⟨name, rfl⟩ := h
    exact ⟨name, same_str.1 hsame⟩
  merged h := h

private theorem layered_uses (T : String → Prop) :
    Layered fun key value => key = .str useKey → ∃ u ∈ target? value, T u where
  respell hsame _ h := by
    rintro rfl
    exact h (str_same.1 hsame)
  merged {_ below above} h huse := by
    obtain ⟨u, htarget, hu⟩ := h huse
    refine ⟨u, ?_, hu⟩
    rw [merge_of_not_map ?_]
    · exact htarget
    · rintro es rfl
      cases htarget

theorem merge {base overlay : Tree} (hbase : Sectional T base) (hoverlay : Sectional T overlay) :
    Sectional T (base.merge overlay) where
  wellFormed := hbase.wellFormed.merge hoverlay.wellFormed
  texts := Everywhere.merge layered_texts hbase.texts hoverlay.texts
  plain := hbase.plain.merge hoverlay.plain
  uses := Everywhere.merge (layered_uses T) hbase.uses hoverlay.uses

/-- Placing a tree without directives beneath a mapping, with its `_use` taken off. -/
theorem underlay {base : Tree} {es : Entries} (hbase : Finished base) (h : Sectional T (.map es)) :
    Sectional T (.map (Tree.underlay base (Entries.erase es (.str useKey)))) where
  wellFormed := hbase.wellFormed.underlay (h.wellFormed.erase _)
  texts := Everywhere.underlay layered_texts hbase.texts (h.texts.erase _)
  plain := Everywhere.underlay (layered_lacks _) hbase.plain (h.plain.erase _)
  uses := Everywhere.underlay (layered_uses T)
    (hbase.mono fun _ h => h.elim : Sectional T base).uses (h.uses.erase _)

end Sectional

end LayeredConfig
