import LayeredConfig.Nested
import Mathlib.Data.List.Basic

/-!
# What the keys of the cache tell apart

The keys of a request are one list of texts: the mode, then each setting behind a beginning that
says what it is, then what the caller adds. The settings can be read back from such a list by their
beginnings. This needs two things: no name of a package has the sign that ends it, and the caller
adds nothing that begins as a setting does. Then loads with the same keys have the same settings.
-/

namespace LayeredConfig

namespace Settings

/-! ## Beginnings -/

/-- How the keys of settings begin, other than that of the mode. -/
def beginnings : List String :=
  ["include-root=", "package=", "package-root=", "include-path-field=", "name=", "schema strict="]

/-- What stands in a key behind a beginning that it has. -/
def behind (beginning key : String) : Option String :=
  if beginning.toList <+: key.toList then
    some (String.ofList (key.toList.drop beginning.toList.length))
  else none

/-- What stands behind a beginning in each of the keys that have it. -/
def allBehind (beginning : String) (keys : List String) : List String :=
  keys.filterMap (behind beginning)

/-- The key begins as that of a setting does. -/
def isSetting (key : String) : Bool := beginnings.any fun b => (behind b key).isSome

theorem behind_append (beginning text : String) :
    behind beginning (beginning ++ text) = some text := by
  simp [behind]

/-- Neither of two different beginnings begins with the other. -/
theorem beginnings_differ : ∀ b ∈ beginnings, ∀ b' ∈ beginnings, b ≠ b' →
    ¬ b.toList <+: b'.toList := by
  decide

theorem behind_append_of_ne {b b' : String} (hb : b ∈ beginnings) (hb' : b' ∈ beginnings)
    (hne : b ≠ b') (text : String) : behind b (b' ++ text) = none := by
  unfold behind
  rw [if_neg]
  intro hbegins
  rw [String.toList_append] at hbegins
  rcases List.prefix_or_prefix_of_prefix hbegins (List.prefix_append _ _) with h | h
  · exact beginnings_differ b hb b' hb' hne h
  · exact beginnings_differ b' hb' b hb hne.symm h

theorem isSetting_append {b : String} (hb : b ∈ beginnings) (text : String) :
    isSetting (b ++ text) = true :=
  List.any_eq_true.2 ⟨b, hb, by rw [behind_append]; rfl⟩

/-! ## Labelled texts -/

/-- Texts with their labels, each behind its label. -/
def labelled (labels : List (String × String)) : List String := labels.map fun e => e.1 ++ e.2

/-- The texts with a label. -/
def textsOf (labels : List (String × String)) (b : String) : List String :=
  (labels.filter fun e => e.1 == b).map Prod.snd

theorem textsOf_append (labels labels' : List (String × String)) (b : String) :
    textsOf (labels ++ labels') b = textsOf labels b ++ textsOf labels' b := by
  simp [textsOf]

theorem textsOf_nil (b : String) : textsOf [] b = [] := rfl

theorem textsOf_cons (label text : String) (rest : List (String × String)) (b : String) :
    textsOf ((label, text) :: rest) b =
      if label = b then text :: textsOf rest b else textsOf rest b := by
  by_cases h : label = b <;> simp [textsOf, h]

theorem textsOf_map {α : Type} (label : String) (text : α → String) (xs : List α) (b : String) :
    textsOf (xs.map fun x => (label, text x)) b = if label = b then xs.map text else [] := by
  by_cases h : label = b <;> simp [textsOf, List.filter_map, Function.comp_def, h]

theorem allBehind_append (b : String) (keys keys' : List String) :
    allBehind b (keys ++ keys') = allBehind b keys ++ allBehind b keys' := List.filterMap_append

section Labels

variable {labels labels' : List (String × String)} {keys keys' : List String}

/-- What stands behind a beginning are the texts that were put there. -/
theorem allBehind_labelled {b : String} (hb : b ∈ beginnings)
    (hlabels : ∀ e ∈ labels, e.1 ∈ beginnings) :
    allBehind b (labelled labels) = textsOf labels b := by
  induction labels with
  | nil => rfl
  | cons e rest ih =>
    obtain ⟨hfirst, hrest⟩ := List.forall_mem_cons.1 hlabels
    have htail := ih hrest
    by_cases heq : e.1 = b
    · subst heq
      simpa [allBehind, labelled, textsOf, behind_append] using htail
    · have hnone := behind_append_of_ne hb hfirst (Ne.symm heq) e.2
      simpa [allBehind, labelled, textsOf, hnone, heq] using htail

theorem allBehind_of_foreign {b : String} (hb : b ∈ beginnings)
    (hkeys : ∀ key ∈ keys, isSetting key = false) : allBehind b keys = [] := by
  refine List.filterMap_eq_nil_iff.2 fun key hkey => ?_
  have hnone := List.any_eq_false.1 (hkeys key hkey) b hb
  simpa using hnone

theorem filter_labelled (hlabels : ∀ e ∈ labels, e.1 ∈ beginnings) :
    (labelled labels).filter (fun key => !isSetting key) = [] := by
  simp only [labelled, List.filter_eq_nil_iff, List.mem_map]
  rintro key ⟨e, he, rfl⟩
  simp [isSetting_append (hlabels e he)]

theorem filter_of_foreign (hkeys : ∀ key ∈ keys, isSetting key = false) :
    keys.filter (fun key => !isSetting key) = keys :=
  List.filter_eq_self.2 fun key hkey => by simp [hkeys key hkey]

/-- Texts behind beginnings are told apart from each other, and from texts that have none. -/
theorem labelled_append_inj (hlabels : ∀ e ∈ labels, e.1 ∈ beginnings)
    (hlabels' : ∀ e ∈ labels', e.1 ∈ beginnings)
    (hkeys : ∀ key ∈ keys, isSetting key = false) (hkeys' : ∀ key ∈ keys', isSetting key = false)
    (h : labelled labels ++ keys = labelled labels' ++ keys') :
    (∀ b ∈ beginnings, textsOf labels b = textsOf labels' b) ∧ keys = keys' := by
  constructor
  · intro b hb
    have hbehind := congrArg (allBehind b) h
    rwa [allBehind_append, allBehind_append, allBehind_of_foreign hb hkeys,
      allBehind_of_foreign hb hkeys', List.append_nil, List.append_nil,
      allBehind_labelled hb hlabels, allBehind_labelled hb hlabels'] at hbehind
  · have hforeign := congrArg (List.filter fun key => !isSetting key) h
    rwa [List.filter_append, List.filter_append, filter_labelled hlabels, filter_labelled hlabels',
      filter_of_foreign hkeys, filter_of_foreign hkeys', List.nil_append, List.nil_append]
      at hforeign

end Labels

/-! ## The labels of settings -/

/-- The settings that a result depends on, each with its label. -/
def labels (s : Settings) (pathField : Option String) : List (String × String) :=
  s.includeRoots.map (fun root => ("include-root=", root.text))
    ++ s.packages.registered.map (fun e => ("package=", e.1 ++ "=" ++ e.2.text))
    ++ s.packages.roots.map (fun root => ("package-root=", root.text))
    ++ pathField.toList.map (fun field => ("include-path-field=", field))

/-- The naming of sections with its label, if it has one. -/
def namingLabels (naming : SectionName) : List (String × String) :=
  match naming with
  | .stem => [("name=", "stem")]
  | .field name => [("name=", "field:" ++ name)]
  | .custom _ => []

/-- The text of a schema: whether it is strict, and its defaults as they are written. -/
def schemaText (schema : Schema) : String :=
  flag schema.strict ++ " " ++ (Yaml.render schema.defaults).toOption.getD ""

/-- The schema with its label. -/
def schemaLabels (schema : Option Schema) : List (String × String) :=
  schema.toList.map fun x => ("schema strict=", schemaText x)

/-- What a nested load adds to the labels of the settings. -/
def sectionLabels (o : NestedOptions) : List (String × String) :=
  namingLabels o.naming ++ schemaLabels o.schema

theorem keys_eq_labelled (s : Settings) (mode : String) (pathField : Option String) :
    s.keys mode pathField = ("mode=" ++ mode) :: labelled (s.labels pathField) := by
  cases pathField <;>
    simp [keys, labelled, labels, Function.comp_def, String.append_assoc]

theorem labels_beginnings (s : Settings) (pathField : Option String) :
    ∀ e ∈ s.labels pathField, e.1 ∈ beginnings := by
  intro e he
  simp only [labels, List.mem_append, List.mem_map] at he
  rcases he with ((⟨_, -, rfl⟩ | ⟨_, -, rfl⟩) | ⟨_, -, rfl⟩) | ⟨_, -, rfl⟩ <;> simp [beginnings]

theorem textsOf_labels (s : Settings) (pathField : Option String) :
    textsOf (s.labels pathField) "include-root=" = s.includeRoots.map FilePath.text ∧
      textsOf (s.labels pathField) "package=" =
        s.packages.registered.map (fun e => e.1 ++ "=" ++ e.2.text) ∧
      textsOf (s.labels pathField) "package-root=" = s.packages.roots.map FilePath.text ∧
      textsOf (s.labels pathField) "include-path-field=" = pathField.toList := by
  cases pathField <;> simp [labels, textsOf_append, textsOf_map, textsOf_nil, textsOf_cons]

theorem textsOf_labels_eq_nil (s : Settings) (pathField : Option String) {b : String}
    (hb : b ∈ ["name=", "schema strict="]) : textsOf (s.labels pathField) b = [] := by
  simp only [List.mem_cons, List.not_mem_nil, or_false] at hb
  rcases hb with rfl | rfl <;> cases pathField <;>
    simp [labels, textsOf_append, textsOf_map, textsOf_nil, textsOf_cons]

/-- The labels are those of a nested load, not of settings. -/
def AreSectional (labels : List (String × String)) : Prop :=
  ∀ e ∈ labels, e.1 ∈ ["name=", "schema strict="]

theorem sectionLabels_areSectional (o : NestedOptions) : AreSectional (sectionLabels o) := by
  cases hnaming : o.naming <;> cases hschema : o.schema <;>
    simp [AreSectional, sectionLabels, namingLabels, schemaLabels, hnaming, hschema]

theorem AreSectional.beginnings {labels : List (String × String)} (h : AreSectional labels) :
    ∀ e ∈ labels, e.1 ∈ beginnings := by
  intro e he
  have hlabel := h e he
  simp only [Settings.beginnings, List.mem_cons] at hlabel ⊢
  grind

theorem AreSectional.textsOf_eq_nil {labels : List (String × String)} (h : AreSectional labels)
    {b : String} (hb : b ∉ ["name=", "schema strict="]) : textsOf labels b = [] := by
  refine List.map_eq_nil_iff.2 (List.filter_eq_nil_iff.2 fun e he heq => hb ?_)
  rw [← beq_iff_eq.1 heq]
  exact h e he

theorem textsOf_sectionLabels (o : NestedOptions) :
    textsOf (sectionLabels o) "name=" = (namingLabels o.naming).map Prod.snd ∧
      textsOf (sectionLabels o) "schema strict=" = o.schema.toList.map schemaText := by
  cases hnaming : o.naming <;> cases hschema : o.schema <;>
    simp [sectionLabels, namingLabels, schemaLabels, hnaming, hschema, textsOf_nil, textsOf_cons]

/-! ## Settings that are told apart -/

/-- Nothing that the caller adds begins as a setting does, and no package has an equals sign in its
name. -/
structure Unmistakable (s : Settings) (cacheKeys : List String) : Prop where
  caller : ∀ key ∈ cacheKeys, isSetting key = false
  names : ∀ e ∈ s.packages.registered, '=' ∉ e.1.toList

theorem text_injective : Function.Injective FilePath.text := by
  rintro ⟨_⟩ ⟨_⟩ rfl
  rfl

/-- The name and the directory of a package are told apart. -/
theorem package_inj {name name' : String} {dir dir' : FilePath} (hname : '=' ∉ name.toList)
    (hname' : '=' ∉ name'.toList) (h : name ++ "=" ++ dir.text = name' ++ "=" ++ dir'.text) :
    name = name' ∧ dir = dir' := by
  have hlists := congrArg String.toList h
  simp only [String.toList_append, List.append_assoc] at hlists
  change name.toList ++ '=' :: dir.text.toList = name'.toList ++ '=' :: dir'.text.toList at hlists
  have hcut : ∀ {n : List Char} (d : List Char), '=' ∉ n →
      (n ++ '=' :: d).takeWhile (· != '=') = n := by
    intro n d hn
    have hall : ∀ c ∈ n, (c != '=') = true := fun c hc => by
      rw [bne_iff_ne]
      rintro rfl
      exact hn hc
    rw [List.takeWhile_append_of_pos hall]
    simp
  have hnames : name.toList = name'.toList := by
    rw [← hcut dir.text.toList hname, hlists, hcut dir'.text.toList hname']
  rw [hnames, List.append_cancel_left_eq, List.cons_inj_right] at hlists
  exact ⟨String.toList_inj.1 hnames, text_injective (String.toList_inj.1 hlists)⟩

theorem registered_inj {es es' : Named FilePath} (hes : ∀ e ∈ es, '=' ∉ e.1.toList)
    (hes' : ∀ e ∈ es', '=' ∉ e.1.toList)
    (h : es.map (fun e => e.1 ++ "=" ++ e.2.text) = es'.map fun e => e.1 ++ "=" ++ e.2.text) :
    es = es' := by
  induction es generalizing es' with
  | nil => exact (List.map_eq_nil_iff.1 h.symm).symm
  | cons e rest ih =>
    cases es' with
    | nil => cases h
    | cons e' rest' =>
      obtain ⟨hfirst, hrest⟩ := List.forall_mem_cons.1 hes
      obtain ⟨hfirst', hrest'⟩ := List.forall_mem_cons.1 hes'
      rw [List.map_cons, List.map_cons, List.cons.injEq] at h
      obtain ⟨hname, hdir⟩ := package_inj hfirst hfirst' h.1
      exact congrArg₂ List.cons (Prod.ext hname hdir) (ih hrest hrest' h.2)

theorem packages_ext {p p' : Packages} (hregistered : p.registered = p'.registered)
    (hroots : p.roots = p'.roots) : p = p' := by
  cases p
  cases p'
  exact congrArg₂ Packages.mk hregistered hroots

section Reading

variable {s s' : Settings} {mode mode' : String} {pathField pathField' : Option String}
  {caller caller' : List String}

/-- Settings are read back from the keys that they give, together with what else is in the keys. -/
theorem settings_of_keys {extra extra' : List (String × String)} (hs : s.Unmistakable caller)
    (hs' : s'.Unmistakable caller') (hextra : AreSectional extra) (hextra' : AreSectional extra')
    (h : s.keys mode pathField ++ labelled extra ++ caller =
      s'.keys mode' pathField' ++ labelled extra' ++ caller') :
    "mode=" ++ mode = "mode=" ++ mode' ∧ s.includeRoots = s'.includeRoots ∧
      s.packages = s'.packages ∧ pathField = pathField' ∧ caller = caller' ∧
      textsOf extra "name=" = textsOf extra' "name=" ∧
      textsOf extra "schema strict=" = textsOf extra' "schema strict=" := by
  have hjoined : ∀ labels extra : List (String × String),
      labelled labels ++ labelled extra = labelled (labels ++ extra) := fun labels extra =>
    List.map_append.symm
  have hall : ∀ {s : Settings} {pathField : Option String} {extra : List (String × String)},
      AreSectional extra → ∀ e ∈ s.labels pathField ++ extra, e.1 ∈ beginnings :=
    fun hextra => List.forall_mem_append.2 ⟨labels_beginnings _ _, hextra.beginnings⟩
  simp only [keys_eq_labelled, List.cons_append, List.cons.injEq, hjoined] at h
  obtain ⟨hmode, htexts⟩ := h
  obtain ⟨htexts, hcaller⟩ := labelled_append_inj (hall hextra) (hall hextra') hs.caller hs'.caller
    htexts
  simp only [textsOf_append] at htexts
  obtain ⟨hroots, hregistered, hsearch, hfield⟩ := textsOf_labels s pathField
  obtain ⟨hroots', hregistered', hsearch', hfield'⟩ := textsOf_labels s' pathField'
  have hown : ∀ b ∈ beginnings, b ∉ ["name=", "schema strict="] →
      textsOf (s.labels pathField) b = textsOf (s'.labels pathField') b := by
    intro b hb hsetting
    simpa only [hextra.textsOf_eq_nil hsetting, hextra'.textsOf_eq_nil hsetting, List.append_nil]
      using htexts b hb
  have hroot := hown "include-root=" (by decide) (by decide)
  have hpackage := hown "package=" (by decide) (by decide)
  have hsearched := hown "package-root=" (by decide) (by decide)
  have hpath := hown "include-path-field=" (by decide) (by decide)
  rw [hroots, hroots'] at hroot
  rw [hregistered, hregistered'] at hpackage
  rw [hsearch, hsearch'] at hsearched
  have hsame : pathField = pathField' := by
    rw [hfield, hfield'] at hpath
    cases pathField <;> cases pathField' <;> simp_all
  have hextras : ∀ b ∈ ["name=", "schema strict="], textsOf extra b = textsOf extra' b := by
    intro b hb
    have htext := htexts b (by simp only [beginnings, List.mem_cons] at hb ⊢; grind)
    rwa [textsOf_labels_eq_nil s pathField hb, textsOf_labels_eq_nil s' pathField' hb,
      List.nil_append, List.nil_append] at htext
  refine ⟨hmode, List.map_injective_iff.2 text_injective hroot, ?_, hsame, hcaller,
    hextras _ (by decide), hextras _ (by decide)⟩
  exact packages_ext (registered_inj hs.names hs'.names hpackage)
    (List.map_injective_iff.2 text_injective hsearched)

/-- The settings of two loads are the same. So are the directories that files are searched in, if
the loads have the same working directory or none of them is relative. -/
structure SameSettings (s s' : Settings) : Prop where
  includeRoots : s.includeRoots = s'.includeRoots
  packages : s.packages = s'.packages
  directories : ∀ here here', (here = here' ∨ ∀ root ∈ s.includeRoots, root.isAbsolute = true) →
    s.includeRoots.map (FilePath.normalize here) = s'.includeRoots.map (FilePath.normalize here')

theorem sameSettings (hroots : s.includeRoots = s'.includeRoots)
    (hpackages : s.packages = s'.packages) : SameSettings s s' where
  includeRoots := hroots
  packages := hpackages
  directories here here' h := by
    rw [← hroots]
    refine List.map_congr_left fun root hroot => ?_
    rcases h with rfl | habsolute
    · rfl
    · simp [FilePath.normalize, FilePath.absolute, FilePath.join, habsolute root hroot]

end Reading

/-- The namings are the same as far as a text can tell: all functions of a caller count as one. -/
inductive SameNaming : SectionName → SectionName → Prop where
  | stem : SameNaming .stem .stem
  | field (name : String) : SameNaming (.field name) (.field name)
  | custom (f f' : FilePath → Tree → String) : SameNaming (.custom f) (.custom f')

theorem sameNaming_of_labels {naming naming' : SectionName}
    (h : (namingLabels naming).map Prod.snd = (namingLabels naming').map Prod.snd) :
    SameNaming naming naming' := by
  have hfield : ∀ name : String, "stem" ≠ "field:" ++ name := fun name heq => by
    have hlists := congrArg String.toList heq
    rw [String.toList_append] at hlists
    cases hlists
  cases naming <;> cases naming' <;> simp only [namingLabels, List.map_cons, List.map_nil,
    List.cons.injEq, and_true, reduceCtorEq] at h
  · exact .stem
  · exact absurd h (hfield _)
  · exact absurd h.symm (hfield _)
  · have hlists := congrArg String.toList h
    rw [String.toList_append, String.toList_append, List.append_cancel_left_eq] at hlists
    rw [String.toList_inj.1 hlists]
    exact .field _
  · exact .custom _ _

/-- Equal schemas have equal texts, and nothing else is written as their defaults are. -/
def WrittenApart (schema schema' : Option Schema) : Prop :=
  ∀ x x', schema = some x → schema' = some x' →
    (Yaml.render x.defaults).toOption.getD "" = (Yaml.render x'.defaults).toOption.getD "" →
    x.defaults = x'.defaults

theorem schemaText_inj {x x' : Schema} (h : schemaText x = schemaText x') :
    x.strict = x'.strict ∧
      (Yaml.render x.defaults).toOption.getD "" = (Yaml.render x'.defaults).toOption.getD "" := by
  have hlists := congrArg String.toList h
  simp only [schemaText, String.toList_append, List.append_assoc] at hlists
  cases hstrict : x.strict <;> cases hstrict' : x'.strict <;> rw [hstrict, hstrict'] at hlists
  · exact ⟨rfl, String.toList_inj.1 (List.append_cancel_left (List.append_cancel_left hlists))⟩
  · cases hlists
  · cases hlists
  · exact ⟨rfl, String.toList_inj.1 (List.append_cancel_left (List.append_cancel_left hlists))⟩

theorem schema_of_texts {schema schema' : Option Schema} (hwritten : WrittenApart schema schema')
    (h : schema.toList.map schemaText = schema'.toList.map schemaText) : schema = schema' := by
  cases schema with
  | none => cases schema' <;> simp_all
  | some x =>
    cases schema' with
    | none => simp at h
    | some x' =>
      have htexts : schemaText x = schemaText x' := by simpa using h
      obtain ⟨hstrict, hrendered⟩ := schemaText_inj htexts
      have hdefaults := hwritten x x' rfl rfl hrendered
      cases x
      cases x'
      exact congrArg some (congrArg₂ Schema.mk hdefaults hstrict)

/-! ## Loads that are told apart -/

theorem loadKeys?_eq_some {s : Settings} {o : LoadOptions} {keys : List String}
    (h : s.loadKeys? o = some keys) :
    keys = s.keys ("load includes=" ++ flag o.includes ++ " self-refs=" ++ flag o.selfReferences)
      o.pathField ++ labelled [] ++ o.cacheKeys := by
  unfold loadKeys? at h
  split at h
  · cases h
  · simpa [labelled] using h.symm

theorem nestedKeys?_eq_some {s : Settings} {o : NestedOptions} {keys : List String}
    (h : s.nestedKeys? o = some keys) :
    keys = s.keys "nested" o.pathField ++ labelled (sectionLabels o) ++ o.cacheKeys := by
  have hnaming : o.naming.key?.toList = labelled (namingLabels o.naming) := by
    cases o.naming <;> rfl
  have hschema : (o.schema.map Schema.key).toList = labelled (schemaLabels o.schema) := by
    cases o.schema with
    | none => rfl
    | some x => simp [labelled, schemaLabels, Schema.key, schemaText, String.append_assoc]
  unfold nestedKeys? at h
  split at h
  · cases h
  · split at h
    · cases h
    · rw [← Option.some_inj.1 h, hnaming, hschema, sectionLabels, labelled, labelled, labelled,
        List.map_append]
      simp only [List.append_assoc]

/-- Both modes of a load are told apart from each other and from that of nested loads. -/
theorem loadMode_inj {a b a' b' : Bool}
    (h : "mode=" ++ ("load includes=" ++ flag a ++ " self-refs=" ++ flag b) =
      "mode=" ++ ("load includes=" ++ flag a' ++ " self-refs=" ++ flag b')) : a = a' ∧ b = b' := by
  revert h
  revert a b a' b'
  decide

/-- Loads that have the same keys have the same settings and options, in all that their results
depend on, and so have nested loads; and a load and a nested load never have the same keys. This
holds if nothing that a caller adds begins as a setting does, no name of a package has an equals
sign in it, and schemas that differ are written differently. -/
theorem keys_tell_settings_apart (s s' : Settings) :
    (∀ (o o' : LoadOptions) keys, s.Unmistakable o.cacheKeys → s'.Unmistakable o'.cacheKeys →
      s.loadKeys? o = some keys → s'.loadKeys? o' = some keys →
      SameSettings s s' ∧ o.includes = o'.includes ∧ o.selfReferences = o'.selfReferences ∧
        o.pathField = o'.pathField ∧ o.cacheKeys = o'.cacheKeys) ∧
    (∀ (o o' : NestedOptions) keys, s.Unmistakable o.cacheKeys → s'.Unmistakable o'.cacheKeys →
      WrittenApart o.schema o'.schema →
      s.nestedKeys? o = some keys → s'.nestedKeys? o' = some keys →
      SameSettings s s' ∧ SameNaming o.naming o'.naming ∧ o.schema = o'.schema ∧
        o.pathField = o'.pathField ∧ o.cacheKeys = o'.cacheKeys) ∧
    ∀ (o : LoadOptions) (o' : NestedOptions) keys, s.loadKeys? o = some keys →
      s'.nestedKeys? o' ≠ some keys := by
  refine ⟨fun o o' keys hs hs' h h' => ?_, fun o o' keys hs hs' hwritten h h' => ?_,
    fun o o' keys h h' => ?_⟩
  · have hkeys := (loadKeys?_eq_some h).symm.trans (loadKeys?_eq_some h')
    have hnone : AreSectional [] := fun e he => by cases he
    obtain ⟨hmode, hroots, hpackages, hfield, hcaller, -, -⟩ :=
      settings_of_keys hs hs' hnone hnone hkeys
    obtain ⟨hincludes, hself⟩ := loadMode_inj hmode
    exact ⟨sameSettings hroots hpackages, hincludes, hself, hfield, hcaller⟩
  · have hkeys := (nestedKeys?_eq_some h).symm.trans (nestedKeys?_eq_some h')
    obtain ⟨-, hroots, hpackages, hfield, hcaller, hnaming, hschema⟩ := settings_of_keys hs hs'
      (sectionLabels_areSectional o) (sectionLabels_areSectional o') hkeys
    obtain ⟨hname, htext⟩ := textsOf_sectionLabels o
    obtain ⟨hname', htext'⟩ := textsOf_sectionLabels o'
    rw [hname, hname'] at hnaming
    rw [htext, htext'] at hschema
    exact ⟨sameSettings hroots hpackages, sameNaming_of_labels hnaming,
      schema_of_texts hwritten hschema, hfield, hcaller⟩
  · have hkeys := (loadKeys?_eq_some h).symm.trans (nestedKeys?_eq_some h')
    simp only [keys_eq_labelled, List.cons_append, List.cons.injEq] at hkeys
    have hlists := congrArg String.toList hkeys.1
    simp only [String.toList_append] at hlists
    cases hlists

/-- Settings with a package and more than one directory. -/
def packaged (cache : FilePath) : Settings :=
  { includeRoots := [⟨"."⟩, ⟨"lib"⟩]
    cache := some cache
    packages := ⟨[("tools", ⟨"/opt/tools"⟩)], [⟨"/opt"⟩]⟩ }

/-- Two loads with the same keys, of settings with different caches. -/
theorem packaged_keys_agree :
    (packaged ⟨"/a"⟩).Unmistakable ["v1"] ∧ (packaged ⟨"/b"⟩).Unmistakable ["v1"] ∧
    ∃ o : LoadOptions, o.cacheKeys = ["v1"] ∧ o.pathField = some "source" ∧
      (packaged ⟨"/a"⟩).loadKeys? o = some ["mode=load includes=true self-refs=true",
        "include-root=.", "include-root=lib", "package=tools=/opt/tools", "package-root=/opt",
        "include-path-field=source", "v1"] ∧
      SameSettings (packaged ⟨"/a"⟩) (packaged ⟨"/b"⟩) := by
  have hplain : ∀ cache, (packaged cache).Unmistakable ["v1"] := fun cache =>
    ⟨by decide, by simp [packaged]⟩
  let o : LoadOptions := { LoadOptions.default with
    pathField := some "source"
    cacheKeys := ["v1"] }
  have hkeys : ∀ cache, (packaged cache).loadKeys? o = some
      ["mode=load includes=true self-refs=true", "include-root=.", "include-root=lib",
        "package=tools=/opt/tools", "package-root=/opt", "include-path-field=source", "v1"] :=
    fun cache => by rfl
  obtain ⟨hloads, -⟩ := keys_tell_settings_apart (packaged ⟨"/a"⟩) (packaged ⟨"/b"⟩)
  exact ⟨hplain _, hplain _, o, rfl, rfl, hkeys _,
    (hloads o o _ (hplain _) (hplain _) (hkeys _) (hkeys _)).1⟩

/-- What a caller adds can stand for a setting: the key under which paths are stored. -/
theorem caller_key_stands_for_pathField :
    default.loadKeys? { LoadOptions.default with pathField := some "source" } =
      default.loadKeys?
        { LoadOptions.default with cacheKeys := ["include-path-field=source"] } := by
  rfl

end Settings

end LayeredConfig
