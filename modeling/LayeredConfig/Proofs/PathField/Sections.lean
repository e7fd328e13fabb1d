import LayeredConfig.Proofs.PathField.Loads
import LayeredConfig.Proofs.PathField.Schemas
import Mathlib.Data.List.Find

/-!
# Nested loads with and without the field

A nested load whose files store their paths has the sections that it has otherwise, with the field
in each that is a mapping. Only a strict schema makes a difference to whether there is a result: it
refuses the field like any other key that it does not know (`path_field_only_adds_itself`).
-/

namespace LayeredConfig

open Directive Tree

/-! ## Sections -/

/-- The section without the field. -/
def FileSection.strip (f : String) (x : FileSection) : FileSection :=
  { x with content := x.content.strip f }

section Named

variable {f : String}

theorem lastNamed_strip (sections : List FileSection) (name : String) :
    lastNamed (sections.map (FileSection.strip f)) name =
      (lastNamed sections name).map (FileSection.strip f) := by
  rw [lastNamed, lastNamed, ← List.map_reverse, List.find?_map]
  rfl

theorem latest_strip (sections : List FileSection) :
    latest (sections.map (FileSection.strip f)) = (latest sections).map (FileSection.strip f) := by
  rw [latest, latest, List.map_filterMap, List.map_map]
  exact List.filterMap_congr fun name _ => lastNamed_strip sections name

theorem replacement_strip (earlier : List FileSection) (x : FileSection) :
    replacement (earlier.map (FileSection.strip f)) (x.strip f) = replacement earlier x := by
  rw [replacement, replacement, FileSection.strip, lastNamed_strip]
  cases lastNamed earlier x.name <;> rfl

/-- The section called by the name of the field is gone from the whole mapping; the others are
there. -/
theorem strip_sectionsTree {sections : List FileSection} (h : ∀ x ∈ sections, x.name ≠ f) :
    (Settings.sectionsTree sections).strip f =
      Settings.sectionsTree (sections.map (FileSection.strip f)) := by
  rw [Settings.sectionsTree, strip_map, Settings.sectionsTree]
  refine congrArg _ ?_
  induction sections with
  | nil => rw [List.map_nil, stripEntries_nil, List.map_nil, List.map_nil]
  | cons x rest ih =>
    obtain ⟨hfirst, hrest⟩ := List.forall_mem_cons.1 h
    rw [List.map_cons, stripEntries_cons (by simpa using hfirst), ih hrest, List.map_cons,
      List.map_cons]
    rfl

end Named

/-- The last of some files that sections of a name are made of, if they are named by file stem. -/
def lastFile (files : List FilePath) (name : String) : Option FilePath :=
  files.reverse.find? fun file => file.stem?.getD "" == name

theorem lastFile_of_lastNamed {sections : List FileSection}
    (hnames : ∀ x ∈ sections, x.name = x.file.stem?.getD "") {name : String} {x : FileSection}
    (h : lastNamed sections name = some x) :
    lastFile (sections.map (·.file)) name = some x.file := by
  have hcalled : ∀ y ∈ sections.reverse,
      (y.file.stem?.getD "" == name) = (y.name == name) := fun y hy => by
    rw [hnames y (List.mem_reverse.1 hy)]
  rw [lastFile, ← List.map_reverse, List.find?_map]
  refine Option.map_eq_some_iff.2 ⟨x, ?_, rfl⟩
  rw [← h]
  exact List.find?_congr hcalled

theorem name_of_lastFile {files : List FilePath} {name : String} {file : FilePath}
    (h : lastFile files name = some file) : file ∈ files ∧ file.stem?.getD "" = name :=
  ⟨by simpa using List.mem_of_find?_eq_some h, by simpa using List.find?_some h⟩

/-- The options with another field for the paths of files. -/
def NestedOptions.storing (o : NestedOptions) (field : Option String) : NestedOptions :=
  { o with pathField := field }

namespace Settings

variable {s : Settings} {o : NestedOptions} {f : String} {w₀ w w' : World}

section Making

variable (hs : s.cache = none) (hsources : o.sources = none) (hf : f ∉ all) (hw₀ : w₀.Silent f)
include hs hsources hf hw₀

theorem strip_of_load (hw : SameFiles w₀ w) {file : FilePath} {t : Tree} {l : Ledger}
    (h : outcome (s.load file (o.storing (some f)).forFile) w = (.ok (t, l), w')) :
    outcome (s.load file (o.storing none).forFile) w = (.ok (t.strip f, l), w') := by
  obtain ⟨⟨t', l'⟩, hrun, hstrips, hl⟩ :=
    (twin_load hs hf hw₀ (o := o.forFile) rfl rfl hsources file).of_ok hw h
  obtain rfl : l' = l := hl
  obtain rfl : t' = t.strip f := hstrips.strip
  exact hrun

theorem load_iff (hw : SameFiles w₀ w) (file : FilePath) :
    (∃ r w', outcome (s.load file (o.storing (some f)).forFile) w = (.ok r, w')) ↔
      ∃ r w', outcome (s.load file (o.storing none).forFile) w = (.ok r, w') :=
  (twin_load hs hf hw₀ (o := o.forFile) rfl rfl hsources file).iff_ok hw

variable (hschema : ∀ schema ∈ o.schema, schema.defaults.mentions f = false)
include hschema

/-- A file that makes a section with the field makes the same without it. -/
theorem makesSection_strip (hnaming : o.naming = .stem) (hw : SameFiles w₀ w) {file : FilePath}
    {x : FileSection} {l : Ledger} (h : MakesSection s (o.storing (some f)) w file x l w') :
    MakesSection s (o.storing none) w file (x.strip f) l w' ∧
      (∀ schema ∈ o.schema, ¬ schema.Binds x.content) ∧
      ∀ inner, x.content = .map inner → Entries.get? inner (.str f) =
        some (.str (FilePath.normalize w₀.directory file).text) := by
  rw [← hw.directory]
  obtain ⟨⟨t, hload, hname, hcontent⟩, hfile⟩ := h
  have hfield : ∀ es, t = .map es → WellFormed t ∧ Entries.get? es (.str f) =
      some (.str (FilePath.normalize w.directory file).text) := by
    rintro es rfl
    exact field_of_load hs rfl hsources hload
  have hplain := strip_of_load hs hsources hf hw₀ hw hload
  have hname' : x.name = o.naming.nameOf file (t.strip f) := by
    rw [hname, show (o.storing (some f)).naming = o.naming from rfl, hnaming]
    rfl
  dsimp only [NestedOptions.storing] at hcontent
  cases hopt : o.schema with
  | none =>
    rw [hopt] at hcontent
    obtain rfl : x.content = t := hcontent
    refine ⟨⟨⟨_, hplain, hname', ?_⟩, hfile⟩, by simp, fun inner hinner => (hfield inner hinner).2⟩
    dsimp only [NestedOptions.storing]
    rw [hopt]
    rfl
  | some schema =>
    rw [hopt] at hcontent
    have hmentions := hschema schema hopt
    have hfree : ¬ schema.Binds t := by
      intro hbinds
      obtain ⟨m, hm⟩ := Schema.apply_of_binds hmentions hbinds fun es hes => ⟨_, (hfield es hes).2⟩
      cases hm.symm.trans hcontent
    refine ⟨⟨⟨_, hplain, hname', ?_⟩, hfile⟩, ?_, fun inner hinner => ?_⟩
    · dsimp only [NestedOptions.storing]
      rw [hopt]
      dsimp only
      rw [Schema.apply_strip hmentions hfree, hcontent]
      rfl
    · rintro _ ⟨⟩
      rwa [Schema.binds_apply hcontent]
    · exact Schema.get?_apply (hinner ▸ hcontent) hfield

/-- And the other way round, unless a strict schema refuses the field. -/
theorem makesSection_of_strip (hw : SameFiles w₀ w) {file : FilePath} {x' : FileSection}
    {l : Ledger} (h : MakesSection s (o.storing none) w file x' l w')
    (hfree : ∀ schema ∈ o.schema, ¬ schema.Binds x'.content) :
    ∃ x l w', MakesSection s (o.storing (some f)) w file x l w' := by
  obtain ⟨⟨t', hload', -, hcontent⟩, -⟩ := h
  obtain ⟨⟨t, l⟩, w₁, hload⟩ := (load_iff hs hsources hf hw₀ hw file).2 ⟨_, _, hload'⟩
  have hplain := strip_of_load hs hsources hf hw₀ hw hload
  obtain rfl : t' = t.strip f := by
    cases hplain.symm.trans hload'
    rfl
  dsimp only [NestedOptions.storing] at hcontent
  cases hopt : o.schema with
  | none =>
    refine ⟨⟨_, file, t⟩, l, w₁, ⟨t, hload, rfl, ?_⟩, rfl⟩
    dsimp only [NestedOptions.storing]
    rw [hopt]
  | some schema =>
    rw [hopt] at hcontent
    dsimp only at hcontent
    have hfree' : ¬ schema.Binds t := by
      rw [← Schema.binds_strip, ← Schema.binds_apply hcontent]
      exact hfree schema hopt
    rw [Schema.apply_strip (hschema schema hopt) hfree'] at hcontent
    cases happly : schema.apply t with
    | error m =>
      rw [happly] at hcontent
      cases hcontent
    | ok content =>
      refine ⟨⟨_, file, content⟩, l, w₁, ⟨t, hload, rfl, ?_⟩, rfl⟩
      dsimp only [NestedOptions.storing]
      rw [hopt]
      exact happly

/-- What is made in turn with the field is made in turn without it. -/
theorem inTurn_strip (hnaming : o.naming = .stem) (hw : SameFiles w₀ w)
    {earlier : List FileSection} {files : List FilePath} {made : List (FileSection × Ledger)}
    (h : InTurn s (o.storing (some f)) earlier w files made w') :
    InTurn s (o.storing none) (earlier.map (FileSection.strip f)) w files
      (made.map fun r => (r.1.strip f, r.2)) w' := by
  induction h with
  | nil earlier w => exact .nil _ w
  | @cons earlier w w₁ w' file rest x l made hmakes hrest ih =>
    obtain ⟨hplain, -⟩ := makesSection_strip hs hsources hf hw₀ hschema hnaming hw hmakes
    obtain ⟨v, hmakes', hkin, -⟩ := makesSection_of_kin hs (.refl w) hmakes
    obtain rfl := hmakes'.world_eq hmakes
    have hturn := ih ⟨hkin.nodes.trans hw.nodes, hkin.directory.trans hw.directory,
      hkin.directoryTime.trans hw.directoryTime⟩
    rw [List.map_append, List.map_singleton] at hturn
    refine .cons hplain ?_
    rwa [World.replacing, replacement_strip]

end Making

/-! ## Nested loads -/

/-- The nested load gives the tree. -/
def Nests (s : Settings) (files : List FilePath) (o : NestedOptions) (w : World) (t : Tree) :
    Prop :=
  ∃ l w', outcome (s.loadNested files o) w = (.ok (t, l), w')

theorem nests_and_iff {files : List FilePath} {test : Tree → Bool} :
    (∃ t, s.Nests files o w t ∧ test t = true) ↔
      succeeds (s.loadNested files o) w (fun r _ => test r.1) = true := by
  rw [succeeds_iff]
  constructor
  · rintro ⟨t, ⟨l, w', hrun⟩, htest⟩
    exact ⟨(t, l), w', hrun, htest⟩
  · rintro ⟨⟨t, l⟩, w', hrun, htest⟩
    exact ⟨t, ⟨l, w', hrun⟩, htest⟩

instance (files : List FilePath) (test : Tree → Bool) :
    Decidable (∃ t, s.Nests files o w t ∧ test t = true) :=
  decidable_of_iff _ nests_and_iff.symm

/-- A file makes a mapping, and the schema is strict about the keys of mappings. -/
def Refuses (s : Settings) (files : List FilePath) (o : NestedOptions) (w : World) : Prop :=
  ∃ schema ∈ o.schema, ∃ file ∈ files.map (FilePath.normalize w.directory),
    ∃ x l w', MakesSection s o w file x l w' ∧ schema.Binds x.content

section Nesting

variable (hs : s.cache = none) (hsources : o.sources = none) (hf : f ∉ all) (hw : w.Silent f)
  (hnaming : o.naming = .stem)
  (hschema : ∀ schema ∈ o.schema, schema.defaults.mentions f = false) {files : List FilePath}
include hs hsources hf hw hnaming hschema

theorem nests_iff : (∃ t, s.Nests files (o.storing (some f)) w t) ↔
    (∃ t, s.Nests files (o.storing none) w t) ∧ ¬ s.Refuses files (o.storing none) w := by
  -- Without a cache it is enough to compare what is made of each file by itself.
  have hloads : ∀ field, (∃ t, s.Nests files (o.storing field) w t) ↔
      ∀ file ∈ files.map (FilePath.normalize w.directory),
        ∃ x l w₁, MakesSection s (o.storing field) w file x l w₁ := by
    intro field
    rw [← ((nested_load_assembles (.inl hs) files w).2 hs).1]
    exact ⟨fun ⟨t, l, w', h⟩ => ⟨(t, l), w', h⟩, fun ⟨(t, l), w', h⟩ => ⟨t, l, w', h⟩⟩
  rw [hloads, hloads]
  constructor
  · intro hmakes
    refine ⟨fun file hfile => ?_, ?_⟩
    · obtain ⟨x, l, w₁, hx⟩ := hmakes file hfile
      exact ⟨_, l, w₁, (makesSection_strip hs hsources hf hw hschema hnaming (.refl w) hx).1⟩
    · rintro ⟨schema, hopt, file, hfile, x', l', w', hx', hbinds⟩
      obtain ⟨x, l, w₁, hx⟩ := hmakes file hfile
      obtain ⟨hplain, hfree, -⟩ :=
        makesSection_strip hs hsources hf hw hschema hnaming (.refl w) hx
      rw [hx'.content_eq hplain, FileSection.strip, Schema.binds_strip] at hbinds
      exact hfree schema hopt hbinds
  · rintro ⟨hmakes, hnot⟩ file hfile
    obtain ⟨x', l, w', hx'⟩ := hmakes file hfile
    exact makesSection_of_strip hs hsources hf hw hschema (.refl w) hx' fun schema hopt hbinds =>
      hnot ⟨schema, hopt, file, hfile, x', l, w', hx', hbinds⟩

theorem nests_strip {t : Tree} (h : s.Nests files (o.storing (some f)) w t) :
    ∃ sections, t = sectionsTree sections ∧
      s.Nests files (o.storing none) w (sectionsTree (sections.map (FileSection.strip f))) ∧
      ∀ x ∈ sections,
        lastFile (files.map (FilePath.normalize w.directory)) x.name = some x.file ∧
        ∀ inner, x.content = .map inner →
          Entries.get? inner (.str f) = some (.str x.file.text) := by
  obtain ⟨l, w', hrun⟩ := h
  obtain ⟨made, hturn, rfl, rfl⟩ := (loadNested_iff (.inl hs)).1 hrun
  refine ⟨_, rfl, ⟨_, w', (loadNested_iff (.inl hs)).2
    ⟨_, inTurn_strip hs hsources hf hw hschema hnaming (.refl w) hturn, ?_, rfl⟩⟩, ?_⟩
  · rw [← latest_strip, List.map_map, List.map_map]
    rfl
  · obtain ⟨halone, -⟩ := alone_of_inTurn hs (.refl w) hturn
    have hmade : ∀ x ∈ made.map Prod.fst, ∃ file ∈ files.map (FilePath.normalize w.directory),
        ∃ l w₁, MakesSection s (o.storing (some f)) w file x l w₁ := by
      intro x hx
      obtain ⟨⟨x, l⟩, hmem, rfl⟩ := List.mem_map.1 hx
      obtain ⟨file, hfile, w₁, hmakes⟩ := exists_of_mem_forall₂ halone hmem
      exact ⟨file, hfile, l, w₁, hmakes⟩
    have hfiles : files.map (FilePath.normalize w.directory) =
        (made.map Prod.fst).map (·.file) := by
      rw [← List.forall₂_eq_eq_eq, List.map_map]
      exact List.forall₂_map_right_iff.2 (halone.imp fun _ _ ⟨_, h⟩ => h.file.symm)
    have hnames : ∀ x ∈ made.map Prod.fst, x.name = x.file.stem?.getD "" := by
      intro x hx
      obtain ⟨file, -, l, w₁, ⟨t, -, hname, -⟩, rfl⟩ := hmade x hx
      rw [hname, show (o.storing (some f)).naming = o.naming from rfl, hnaming]
      rfl
    intro x hx
    obtain ⟨name, -, hlast⟩ := List.mem_filterMap.1 hx
    obtain rfl := name_of_lastNamed hlast
    refine ⟨hfiles ▸ lastFile_of_lastNamed hnames hlast, ?_⟩
    obtain ⟨file, hfile, l, w₁, hmakes⟩ :=
      hmade x (List.mem_reverse.1 (List.mem_of_find?_eq_some hlast))
    obtain ⟨p, -, rfl⟩ := List.mem_map.1 hfile
    obtain ⟨-, -, hfield⟩ := makesSection_strip hs hsources hf hw hschema hnaming (.refl w) hmakes
    rw [FilePath.normalize_normalize] at hfield
    rwa [hmakes.file]

end Nesting

/-- With the cache, if there is one, the nested load gives what it gives without. -/
def CacheAgrees (s : Settings) (files : List FilePath) (o : NestedOptions) (w : World) : Prop :=
  ∀ t, s.Nests files o w t ↔ Nests { s with cache := none } files o w t

/-- **The field is added, and nothing else.** Say that no document and no schema mentions the field,
and that the cache does not change what is given. Then a nested load with the field has a result if
and only if it has one without, unless a strict schema refuses the field. The sections are the same
but for the field, and so are the mappings of them if no section is called by it; and each section
that is a mapping has the path of its file, which is the last of its name. -/
theorem path_field_only_adds_itself {files : List FilePath}
    (hcache : ∀ field ∈ [none, some f], s.CacheAgrees files (o.storing field) w)
    (hsources : o.sources = none) (hnaming : o.naming = .stem) (hf : f ∉ all) (hw : w.Silent f)
    (hschema : ∀ schema ∈ o.schema, schema.defaults.mentions f = false) :
    ((∃ t, s.Nests files (o.storing (some f)) w t) ↔
      (∃ t, s.Nests files (o.storing none) w t) ∧
        ¬ Refuses { s with cache := none } files (o.storing none) w) ∧
    ∀ t, s.Nests files (o.storing (some f)) w t →
      ∃ sections, t = sectionsTree sections ∧
        s.Nests files (o.storing none) w (sectionsTree (sections.map (FileSection.strip f))) ∧
        ((∀ file ∈ files, (FilePath.normalize w.directory file).stem?.getD "" ≠ f) →
          s.Nests files (o.storing none) w (t.strip f)) ∧
        ∀ x ∈ sections,
          lastFile (files.map (FilePath.normalize w.directory)) x.name = some x.file ∧
          x.file.isAbsolute = true ∧ ∀ inner, x.content = .map inner →
            Entries.get? inner (.str f) = some (.str x.file.text) := by
  have hplain := hcache none (by simp)
  have hmarked := hcache (some f) (by simp)
  constructor
  · rw [exists_congr hmarked, exists_congr hplain]
    exact nests_iff rfl hsources hf hw hnaming hschema
  · intro t ht
    obtain ⟨sections, rfl, hstripped, hsections⟩ :=
      nests_strip rfl hsources hf hw hnaming hschema ((hmarked t).1 ht)
    have hfile : ∀ x ∈ sections, ∃ file ∈ files, x.file = FilePath.normalize w.directory file ∧
        x.file.stem?.getD "" = x.name := by
      intro x hx
      obtain ⟨hmem, hstem⟩ := name_of_lastFile (hsections x hx).1
      obtain ⟨file, hfile, hnormal⟩ := List.mem_map.1 hmem
      exact ⟨file, hfile, hnormal.symm, hstem⟩
    refine ⟨sections, rfl, (hplain _).2 hstripped, fun hstems => ?_, fun x hx => ?_⟩
    · rw [strip_sectionsTree fun x hx => ?_]
      · exact (hplain _).2 hstripped
      · obtain ⟨file, hmem, hnormal, hstem⟩ := hfile x hx
        rw [← hstem, hnormal]
        exact hstems file hmem
    · obtain ⟨hlast, hfield⟩ := hsections x hx
      obtain ⟨file, -, hnormal, -⟩ := hfile x hx
      exact ⟨hlast, hnormal ▸ FilePath.isAbsolute_ofNames _, hfield⟩

/-! A file that includes another, and both as sections that have a default. -/

/-- A world in which one file includes another. -/
def includer : World := .holding
  [(["a.yml"], .file "n:\n  _include: b.yml\nx: 1\n".toUTF8 ⟨5⟩),
    (["b.yml"], .file "y: 2\n".toUTF8 ⟨5⟩)]

/-- Sections have a default. -/
def defaulted : NestedOptions :=
  { NestedOptions.default with schema := some ⟨.map [(.str "m", .int 0)], false⟩ }

theorem includer_stores_paths :
    ∃ t, default.Nests [⟨"a.yml"⟩, ⟨"b.yml"⟩] (defaulted.storing (some "src")) includer t ∧
      t.same (.map [
        (.str "a", .map [(.str "m", .int 0),
          (.str "n", .map [(.str "y", .int 2), (.str "src", .str "/b.yml")]), (.str "x", .int 1),
          (.str "src", .str "/a.yml")]),
        (.str "b", .map [(.str "m", .int 0), (.str "y", .int 2), (.str "src", .str "/b.yml")])]) ∧
      default.Nests [⟨"a.yml"⟩, ⟨"b.yml"⟩] (defaulted.storing none) includer (t.strip "src") := by
  have hcache : ∀ field ∈ [none, some "src"],
      default.CacheAgrees [⟨"a.yml"⟩, ⟨"b.yml"⟩] (defaulted.storing field) includer :=
    fun _ _ _ => Iff.rfl
  have hschema : ∀ schema ∈ defaulted.schema, schema.defaults.mentions "src" = false := by
    rintro _ ⟨⟩
    decide
  obtain ⟨t, ht, htest⟩ : ∃ t,
      default.Nests [⟨"a.yml"⟩, ⟨"b.yml"⟩] (defaulted.storing (some "src")) includer t ∧
      t.same (.map [
        (.str "a", .map [(.str "m", .int 0),
          (.str "n", .map [(.str "y", .int 2), (.str "src", .str "/b.yml")]), (.str "x", .int 1),
          (.str "src", .str "/a.yml")]),
        (.str "b", .map [(.str "m", .int 0), (.str "y", .int 2), (.str "src", .str "/b.yml")])]) :=
    by decide +kernel
  obtain ⟨-, hall⟩ := path_field_only_adds_itself hcache rfl rfl (by decide) (by decide +kernel)
    hschema
  obtain ⟨sections, -, -, hstripped, -⟩ := hall t ht
  exact ⟨t, ht, htest, hstripped (by decide +kernel)⟩

/-! Where the field does more than to be there. -/

/-- A world with two files and, under the keys of nested loads of the first with the field and
without it, entries that no load has made. -/
def foreignSections : World := .holding
  [(["a.yml"], .file "x: 1\n".toUTF8 ⟨0⟩), (["t.yml"], .file "!t\nx: 1\n".toUTF8 ⟨0⟩),
    (["cache"], .directory ⟨0⟩),
    (["cache", "6134d9dec6532df7bc41d34a1a402be090e0308683f56bee2ca4f0fee484e82f.yml"],
      .file ("engine: recipe-config 0.4.0\ninputs: []\ntree:\n  x: 2\n" ++
        "deps:\n  deps: \x7b\x7d\n  failed: \x7b\x7d\n").toUTF8 ⟨0⟩),
    (["cache", "0c2e3695ad2cf56755d55b39c17cab5798464e31fbaa809ba12dcce2c6595ff6.yml"],
      .file ("engine: recipe-config 0.4.0\ninputs: []\ntree:\n  x: 3\n" ++
        "deps:\n  deps: \x7b\x7d\n  failed: \x7b\x7d\n").toUTF8 ⟨0⟩)]

/-- Sections have no other key than `x`. -/
def strictly : NestedOptions :=
  { NestedOptions.default with schema := some ⟨.map [(.str "x", .int 0)], true⟩ }

/-- Sections may have any keys. -/
def freely : NestedOptions := NestedOptions.default

private theorem ne_of_same {t t' u : Tree} (h : t.same u) (h' : !t'.same u) : t ≠ t' := by
  rintro rfl
  simp [h] at h'

/-- A strict schema refuses the field. A section that has the name of the field is gone with the
entries of the field. A mapping under a tag does not store the path. And the cache may have trees
that do not belong together. -/
theorem field_may_do_more :
    (foreignSections.Silent "src" ∧ foreignSections.Silent "a") ∧
    ((∃ t, default.Nests [⟨"a.yml"⟩] (strictly.storing none) foreignSections t ∧
        t.same (.map [(.str "a", .map [(.str "x", .int 1)])])) ∧
      ∀ t, ¬ default.Nests [⟨"a.yml"⟩] (strictly.storing (some "src")) foreignSections t) ∧
    (∃ t t', default.Nests [⟨"a.yml"⟩] (freely.storing (some "a")) foreignSections t ∧
      default.Nests [⟨"a.yml"⟩] (freely.storing none) foreignSections t' ∧ t.strip "a" ≠ t') ∧
    (∃ t, default.Nests [⟨"t.yml"⟩] (freely.storing (some "src")) foreignSections t ∧
      t.same (.map [(.str "t", .tagged "!t" (.map [(.str "x", .int 1)]))])) ∧
    ∃ t t', Nests { default with cache := some ⟨"/cache"⟩ } [⟨"a.yml"⟩]
        (freely.storing (some "src")) foreignSections t ∧
      Nests { default with cache := some ⟨"/cache"⟩ } [⟨"a.yml"⟩]
        (freely.storing none) foreignSections t' ∧
      t.strip "src" ≠ t' := by
  refine ⟨by decide +kernel, ⟨by decide +kernel, fun t ht => ?_⟩, ?_, by decide +kernel, ?_⟩
  · have hnone : ¬ ∃ t, default.Nests [⟨"a.yml"⟩] (strictly.storing (some "src"))
        foreignSections t ∧ true = true := by decide +kernel
    exact hnone ⟨t, ht, rfl⟩
  · obtain ⟨t, ht, hempty⟩ : ∃ t, default.Nests [⟨"a.yml"⟩] (freely.storing (some "a"))
        foreignSections t ∧ (t.strip "a").same (.map []) := by decide +kernel
    obtain ⟨t', ht', hsection⟩ : ∃ t, default.Nests [⟨"a.yml"⟩] (freely.storing none)
        foreignSections t ∧ !t.same (.map []) := by decide +kernel
    exact ⟨t, t', ht, ht', ne_of_same hempty hsection⟩
  · -- both are answered by the cache
    obtain ⟨t, ht, hthree⟩ : ∃ t, Nests { default with cache := some ⟨"/cache"⟩ } [⟨"a.yml"⟩]
          (freely.storing (some "src")) foreignSections t ∧
        (t.strip "src").same (.map [(.str "x", .int 3)]) := by decide +kernel
    obtain ⟨t', ht', htwo⟩ : ∃ t, Nests { default with cache := some ⟨"/cache"⟩ } [⟨"a.yml"⟩]
          (freely.storing none) foreignSections t ∧
        !t.same (.map [(.str "x", .int 3)]) := by decide +kernel
    exact ⟨t, t', ht, ht', ne_of_same hthree htwo⟩

end Settings

end LayeredConfig
