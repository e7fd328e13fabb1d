import LayeredConfig.Proofs.Collapsing
import LayeredConfig.Proofs.Memory

/-!
# Files assembled to one mapping

A nested load has a result if and only if every file loads and fits the schema, one after the other
(`nested_load_assembles`). The names of the sections come in the order in which they occur first,
and each stands for the last section of that name; of the ledgers the first entries count. There is
a warning for each section whose name an earlier one has, about the one it replaces.

Without a cache the files may as well be loaded each by itself, since nothing that a load leaves
matters to the next.
-/

namespace LayeredConfig

variable {w w' : World}

/-! ## Sections that replace others -/

/-- The last of some sections that has a name. -/
def lastNamed (sections : List FileSection) (name : String) : Option FileSection :=
  sections.reverse.find? (·.name == name)

/-- The last section of each name, in the order in which the names occur first. -/
def latest (sections : List FileSection) : List FileSection :=
  (sections.map (·.name)).eraseDups.filterMap (lastNamed sections)

/-- The warning about a section that comes after others, if the last of its name is replaced. -/
def replacement (earlier : List FileSection) (x : FileSection) : List String :=
  match lastNamed earlier x.name with
  | none => []
  | some old => ["section '" ++ x.name ++ "' from " ++ x.file.text ++ " replaces the one from "
      ++ old.file.text]

section Sections

variable {sections : List FileSection} {x : FileSection} {name : String}

theorem lastNamed_append (sections : List FileSection) (x : FileSection) (name : String) :
    lastNamed (sections ++ [x]) name =
      if x.name == name then some x else lastNamed sections name := by
  rw [lastNamed, List.reverse_append, List.reverse_singleton, List.singleton_append,
    List.find?_cons, lastNamed]
  cases x.name == name <;> rfl

theorem name_of_lastNamed (h : lastNamed sections name = some x) : x.name = name := by
  simpa using List.find?_some h

theorem isSome_lastNamed : (lastNamed sections name).isSome = true ↔
    name ∈ sections.map (·.name) := by
  simp [lastNamed]

/-- Of sections chosen by name, the one of a name is the one chosen for it. -/
theorem find?_filterMap {choose : String → Option FileSection}
    (hchoose : ∀ n y, choose n = some y → y.name = n) (names : List String) (name : String) :
    (names.filterMap choose).find? (·.name == name) =
      if name ∈ names then choose name else none := by
  induction names with
  | nil => rfl
  | cons n rest ih =>
    rw [List.filterMap_cons]
    cases hn : choose n with
    | none =>
      dsimp only
      rw [ih]
      by_cases hname : name = n
      · simp [hname, hn]
      · simp [hname]
    | some y =>
      dsimp only
      rw [List.find?_cons, hchoose n y hn, ih]
      by_cases hname : n = name
      · simp [← hname, hn]
      · have hbeq : (n == name) = false := beq_eq_false_iff_ne.2 hname
        simp [hbeq, Ne.symm hname]

theorem find?_latest (sections : List FileSection) (name : String) :
    (latest sections).find? (·.name == name) = lastNamed sections name := by
  rw [latest, find?_filterMap (fun _ _ => name_of_lastNamed)]
  split
  · rfl
  next hname =>
    rw [List.mem_eraseDups, ← isSome_lastNamed, Option.not_isSome_iff_eq_none] at hname
    exact hname.symm

theorem names_latest (sections : List FileSection) :
    (latest sections).map (·.name) = (sections.map (·.name)).eraseDups := by
  have hchosen : ∀ n ∈ (sections.map (·.name)).eraseDups,
      (lastNamed sections n).map (·.name) = some n := by
    intro n hn
    obtain ⟨y, hy⟩ := Option.isSome_iff_exists.1
      (isSome_lastNamed.2 (List.mem_eraseDups.1 hn))
    rw [hy, Option.map_some, name_of_lastNamed hy]
  rw [latest, List.map_filterMap, List.filterMap_congr hchosen, List.filterMap_some]

theorem nodup_eraseDups (names : List String) : names.eraseDups.Nodup := by
  induction hn : names.length using Nat.strongRecOn generalizing names with
  | ind n ih =>
    cases names with
    | nil => exact List.nodup_nil
    | cons name rest =>
      have hlength : (rest.filter fun m => !m == name).length < n := by
        have := List.length_filter_le (fun m => !m == name) rest
        rw [← hn, List.length_cons]
        omega
      rw [List.eraseDups_cons, List.nodup_cons, List.mem_eraseDups]
      exact ⟨by simp, ih _ hlength _ rfl⟩

open Settings (putSection)

/-- A section takes the place of the one chosen for its name. -/
theorem putSection_filterMap {choose : String → Option FileSection}
    (hchoose : ∀ n y, choose n = some y → y.name = n) {names : List String} (hnodup : names.Nodup)
    (hmem : x.name ∈ names) (hsome : (choose x.name).isSome = true) :
    putSection (names.filterMap choose) x =
      names.filterMap fun n => if x.name == n then some x else choose n := by
  induction names with
  | nil => cases hmem
  | cons n rest ih =>
    obtain ⟨hn, hrest⟩ := List.nodup_cons.1 hnodup
    rw [List.filterMap_cons, List.filterMap_cons]
    by_cases hname : x.name = n
    · obtain ⟨y, hy⟩ := Option.isSome_iff_exists.1 hsome
      have hothers : (rest.filterMap fun n => if x.name == n then some x else choose n) =
          rest.filterMap choose := by
        refine List.filterMap_congr fun m hm => if_neg ?_
        rw [beq_iff_eq, hname]
        rintro rfl
        exact hn hm
      rw [← hname, hy, if_pos BEq.rfl, hothers]
      dsimp only
      rw [putSection, hchoose _ y hy, if_pos BEq.rfl]
    · have hbeq : (x.name == n) = false := beq_eq_false_iff_ne.2 hname
      have hput := ih hrest (List.mem_of_ne_of_mem hname hmem)
      rw [hbeq, if_neg Bool.false_ne_true]
      cases hy : choose n with
      | none => exact hput
      | some y =>
        dsimp only
        rw [putSection, hchoose n y hy, if_neg (by simpa using Ne.symm hname), hput]

theorem putSection_of_new {sections : List FileSection}
    (h : sections.find? (·.name == x.name) = none) : putSection sections x = sections ++ [x] := by
  induction sections with
  | nil => rfl
  | cons y rest ih =>
    rw [List.find?_cons] at h
    cases hname : y.name == x.name with
    | true =>
      rw [hname] at h
      cases h
    | false =>
      rw [hname] at h
      rw [putSection, hname, if_neg Bool.false_ne_true, ih h, List.cons_append]

/-- One section more takes the place of the last of its name. -/
theorem putSection_latest (sections : List FileSection) (x : FileSection) :
    putSection (latest sections) x = latest (sections ++ [x]) := by
  have hlatest : latest (sections ++ [x]) = (sections.map (·.name) ++ [x.name]).eraseDups.filterMap
      fun n => if x.name == n then some x else lastNamed sections n := by
    rw [latest, List.map_append, List.map_singleton]
    exact List.filterMap_congr fun n _ => lastNamed_append sections x n
  rw [hlatest, List.eraseDups_append]
  by_cases hname : x.name ∈ sections.map (·.name)
  · have hnone : List.removeAll [x.name] (sections.map (·.name)) = [] := by
      simpa [List.removeAll] using hname
    rw [hnone, List.eraseDups_nil, List.append_nil]
    exact putSection_filterMap (fun _ _ => name_of_lastNamed) (nodup_eraseDups _)
      (List.mem_eraseDups.2 hname) (isSome_lastNamed.2 hname)
  · have hnone : lastNamed sections x.name = none := by
      rwa [← Option.not_isSome_iff_eq_none, isSome_lastNamed]
    have hone : List.removeAll [x.name] (sections.map (·.name)) = [x.name] := by
      simpa [List.removeAll] using hname
    rw [putSection_of_new ((find?_latest sections x.name).trans hnone), hone]
    have hothers : ((sections.map (·.name)).eraseDups.filterMap fun n =>
        if x.name == n then some x else lastNamed sections n) = latest sections := by
      refine List.filterMap_congr fun n hn => if_neg ?_
      rw [beq_iff_eq]
      rintro rfl
      exact hname (List.mem_eraseDups.1 hn)
    rw [List.filterMap_append, hothers]
    simp [List.eraseDups_cons]

end Sections

/-! ## Loading in turn -/

/-- The file loads as a section that fits the schema, if there is one. The section is named by what
is loaded. -/
structure MakesSection (s : Settings) (o : NestedOptions) (w : World) (file : FilePath)
    (x : FileSection) (l : Ledger) (w' : World) : Prop where
  loads : ∃ t, outcome (s.load file o.forFile) w = (.ok (t, l), w') ∧
    x.name = o.naming.nameOf file t ∧
    match o.schema with
    | none => x.content = t
    | some schema => schema.apply t = .ok x.content
  file : x.file = file

/-- A file leaves one world. -/
theorem MakesSection.world_eq {s : Settings} {o : NestedOptions} {w₁ w₂ : World} {file : FilePath}
    {x y : FileSection} {l m : Ledger} (h : MakesSection s o w file x l w₁)
    (h' : MakesSection s o w file y m w₂) : w₁ = w₂ := by
  obtain ⟨t, hload, -⟩ := h.loads
  obtain ⟨t', hload', -⟩ := h'.loads
  cases hload.symm.trans hload'
  rfl

/-- A file makes one content. -/
theorem MakesSection.content_eq {s : Settings} {o : NestedOptions} {w w₁ w₂ : World}
    {file : FilePath} {x y : FileSection} {l m : Ledger} (h : MakesSection s o w file x l w₁)
    (h' : MakesSection s o w file y m w₂) : x.content = y.content := by
  obtain ⟨t, hload, -, hx⟩ := h.loads
  obtain ⟨t', hload', -, hy⟩ := h'.loads
  cases hload.symm.trans hload'
  cases hschema : o.schema with
  | none =>
    rw [hschema] at hx hy
    exact hx.trans hy.symm
  | some schema =>
    rw [hschema] at hx hy
    exact Except.ok.inj (hx.symm.trans hy)

/-- The world with one more warning, if the section replaces one. -/
def World.replacing (w : World) (earlier : List FileSection) (x : FileSection) : World :=
  { w with warnings := w.warnings ++ replacement earlier x }

/-- The files make sections one after the other, each in the world that the files before it have
left, with a warning about the section that is replaced. -/
inductive InTurn (s : Settings) (o : NestedOptions) : (earlier : List FileSection) → World →
    List FilePath → List (FileSection × Ledger) → World → Prop
  | nil (earlier : List FileSection) (w : World) : InTurn s o earlier w [] [] w
  | cons {earlier : List FileSection} {w w₁ w' : World} {file : FilePath} {rest : List FilePath}
      {x : FileSection} {l : Ledger} {made : List (FileSection × Ledger)}
      (hmakes : MakesSection s o w file x l w₁)
      (hrest : InTurn s o (earlier ++ [x]) (w₁.replacing earlier x) rest made w') :
      InTurn s o earlier w (file :: rest) ((x, l) :: made) w'

/-- The entries of some ledgers, the first of each path. -/
def union (ledgers : List Ledger) : Ledger :=
  ⟨Ledger.firsts (ledgers.flatMap (·.records)), Ledger.firsts (ledgers.flatMap (·.missed))⟩

theorem foldl_update (l : Ledger) (ledgers : List Ledger) :
    ledgers.foldl Ledger.update l =
      ⟨Ledger.notes l.records (ledgers.flatMap (·.records)),
        Ledger.notes l.missed (ledgers.flatMap (·.missed))⟩ := by
  induction ledgers generalizing l with
  | nil => rfl
  | cons m rest ih =>
    rw [List.foldl_cons, ih, Ledger.update_eq, List.flatMap_cons, List.flatMap_cons,
      Ledger.notes_append, Ledger.notes_append]

theorem union_eq_foldl (ledgers : List Ledger) :
    union ledgers = ledgers.foldl Ledger.update Ledger.empty := by
  rw [foldl_update, union, ← Ledger.notes_empty, ← Ledger.notes_empty]
  rfl

namespace Settings

variable {s : Settings} {o : NestedOptions}

theorem loadSection_iff {file : FilePath} {x : FileSection} {l : Ledger} :
    outcome (s.loadSection o file) w = (.ok (x, l), w') ↔ MakesSection s o w file x l w' := by
  constructor
  · intro h
    obtain ⟨⟨t, ledger⟩, w₁, hload, h⟩ := outcome_bind_ok h
    dsimp only at h
    split at h
    next hschema =>
      cases h
      exact ⟨⟨t, hload, rfl, by rw [hschema]⟩, rfl⟩
    next schema hschema =>
      split at h
      next content hcontent =>
        cases h
        exact ⟨⟨t, hload, rfl, by rw [hschema]; exact hcontent⟩, rfl⟩
      · cases h
  · obtain ⟨name, file', content⟩ := x
    rintro ⟨⟨t, hload, rfl, hcontent⟩, hfile⟩
    obtain rfl : file' = file := hfile
    rw [loadSection, outcome_bind_of_ok hload]
    dsimp only at hcontent ⊢
    split
    next hschema =>
      rw [hschema] at hcontent
      rw [hcontent]
      rfl
    next schema hschema =>
      rw [hschema] at hcontent
      dsimp only at hcontent
      rw [hcontent]
      rfl

/-- The assembly goes on from the sections and the ledger of earlier files if and only if the
other files make sections in turn. -/
theorem assembleFrom_iff {earlier : List FileSection} {l : Ledger} {files : List FilePath}
    {sections : List FileSection} {l' : Ledger} :
    outcome (s.assembleFrom o (latest earlier) l files) w = (.ok (sections, l'), w') ↔
      ∃ made, InTurn s o earlier w files made w' ∧
        sections = latest (earlier ++ made.map Prod.fst) ∧
        l' = (made.map Prod.snd).foldl Ledger.update l := by
  induction files generalizing earlier l w with
  | nil =>
    constructor
    · intro h
      cases h
      exact ⟨[], .nil earlier _, by simp, rfl⟩
    · rintro ⟨made, hturn, rfl, rfl⟩
      cases hturn
      rw [List.map_nil, List.append_nil]
      rfl
  | cons file rest ih =>
    -- One file more: its section replaces the last of its name, with a warning.
    have hstep : ∀ (x : FileSection) (consulted : Ledger) (w₁ : World),
        outcome (s.loadSection o file) w = (.ok (x, consulted), w₁) →
        outcome (s.assembleFrom o (latest earlier) l (file :: rest)) w =
          outcome (s.assembleFrom o (latest (earlier ++ [x])) (l.update consulted) rest)
            (w₁.replacing earlier x) := by
      intro x consulted w₁ hsection
      have hfile : x.file = file := (loadSection_iff.1 hsection).file
      rw [assembleFrom, outcome_bind_of_ok hsection]
      dsimp only
      rw [find?_latest, putSection_latest, World.replacing, replacement, hfile]
      cases lastNamed earlier x.name with
      | none =>
        dsimp only
        rw [List.append_nil]
      | some old => rfl
    constructor
    · intro h
      obtain ⟨⟨x, consulted⟩, w₁, hsection, -⟩ := outcome_bind_ok h
      rw [hstep x consulted w₁ hsection] at h
      obtain ⟨made, hturn, rfl, rfl⟩ := ih.1 h
      refine ⟨(x, consulted) :: made, .cons (loadSection_iff.1 hsection) hturn, ?_, rfl⟩
      rw [List.map_cons, List.append_assoc]
      rfl
    · rintro ⟨made, hturn, rfl, rfl⟩
      cases hturn with
      | @cons _ _ w₁ _ _ _ x consulted made hmakes hrest =>
        rw [hstep x consulted w₁ (loadSection_iff.2 hmakes)]
        refine ih.2 ⟨made, hrest, ?_, rfl⟩
        rw [List.map_cons, List.append_assoc]
        rfl

/-- A nested load without a cache is the assembly of the files. -/
theorem loadNested_iff (hcache : s.cache = none ∨ o.useCache = false) {files : List FilePath}
    {t : Tree} {l : Ledger} :
    outcome (s.loadNested files o) w = (.ok (t, l), w') ↔
      ∃ made, InTurn s o [] w (files.map (FilePath.normalize w.directory)) made w' ∧
        t = sectionsTree (latest (made.map Prod.fst)) ∧ l = union (made.map Prod.snd) := by
  have hkeys : s.cache = none ∨ s.nestedKeys? o = none := by
    refine hcache.imp_right fun huse => ?_
    rw [nestedKeys?, huse]
    rfl
  have hassemble : outcome (s.loadNested files o) w =
      outcome (s.assembleFrom o (latest []) Ledger.empty
        (files.map (FilePath.normalize w.directory)) >>= fun r =>
          pure (sectionsTree r.1, r.2)) w := by
    have hnone : outcome (cached none (files.map (FilePath.normalize w.directory)) :
        ExceptT Error InWorld (Option (Tree × Ledger))) w = (.ok none, w) := rfl
    rw [loadNested, outcome_bind_of_ok (mapM_normalize_run files w)]
    dsimp only
    rw [storeFor?_eq_none hkeys, outcome_bind_of_ok hnone]
    rfl
  rw [hassemble]
  constructor
  · intro h
    obtain ⟨⟨sections, ledger⟩, w₁, hrun, h⟩ := outcome_bind_ok h
    cases h
    obtain ⟨made, hturn, rfl, rfl⟩ := assembleFrom_iff.1 hrun
    exact ⟨made, hturn, rfl, (union_eq_foldl _).symm⟩
  · rintro ⟨made, hturn, rfl, rfl⟩
    have hrun := assembleFrom_iff (l := .empty).2 ⟨made, hturn, rfl, rfl⟩
    rw [outcome_bind_of_ok hrun, union_eq_foldl]
    rfl

/-! ## Loading each file by itself -/

/-- What is warned of when a file is loaded by itself. -/
def warnedBy (s : Settings) (o : NestedOptions) (w : World) (file : FilePath) : List String :=
  (outcome (s.load file o.forFile) w).2.warnings.drop w.warnings.length

/-- The warnings about sections that come after others: those of each load, and then the one about
the section that is replaced. -/
def notices (own : FilePath → List String) : (earlier : List FileSection) → List FileSection →
    List String
  | _, [] => []
  | earlier, x :: rest =>
    own x.file ++ replacement earlier x ++ notices own (earlier ++ [x]) rest

section Alone

variable (hs : s.cache = none) {v v' : World} (hkin : Kin w v)
include hs hkin

/-- Nothing that was loaded before matters to a section. -/
theorem makesSection_of_kin {file : FilePath} {x : FileSection} {l : Ledger}
    (h : MakesSection s o w file x l w') :
    ∃ v', MakesSection s o v file x l v' ∧ Kin w v' ∧
      v'.warnings = v.warnings ++ s.warnedBy o w x.file := by
  obtain ⟨⟨t, hload, hname, hcontent⟩, rfl⟩ := h
  obtain ⟨warned, read, hsame, hw, hv⟩ := blind_load hs x.file o.forFile hkin
  have hwarned : s.warnedBy o w x.file = warned := by
    rw [warnedBy, hw.warnings, List.drop_left]
  have hload' : outcome (s.load x.file o.forFile) v =
      (.ok (t, l), (outcome (s.load x.file o.forFile) v).2) := by
    rw [hload] at hsame
    exact Prod.ext hsame rfl
  refine ⟨_, ⟨⟨t, hload', hname, hcontent⟩, rfl⟩, hkin.trans hv.toKin, ?_⟩
  rw [hwarned]
  exact hv.warnings

theorem alone_of_inTurn {earlier : List FileSection} {files : List FilePath}
    {made : List (FileSection × Ledger)} (h : InTurn s o earlier v files made v') :
    List.Forall₂ (fun file r => ∃ w₁, MakesSection s o w file r.1 r.2 w₁) files made ∧
      v'.warnings = v.warnings ++ notices (s.warnedBy o w) earlier (made.map Prod.fst) := by
  induction h with
  | nil earlier v => exact ⟨.nil, by simp [notices]⟩
  | @cons earlier v v₁ v' file rest x l made hmakes hrest ih =>
    obtain ⟨w₁, halone, -⟩ := makesSection_of_kin hs hkin.symm hmakes
    obtain ⟨v₂, hagain, hkin', hwarned⟩ := makesSection_of_kin hs hkin halone
    obtain rfl := hagain.world_eq hmakes
    have hreplaced : Kin w (v₂.replacing earlier x) :=
      hkin'.trans ⟨⟨rfl, rfl, rfl⟩, rfl, fun _ _ => rfl⟩
    obtain ⟨hrest, hnotices⟩ := ih hreplaced
    refine ⟨.cons ⟨w₁, halone⟩ hrest, ?_⟩
    rw [hnotices, World.replacing, hwarned, List.map_cons, notices]
    simp only [List.append_assoc]

theorem inTurn_of_alone {files : List FilePath}
    (h : ∀ file ∈ files, ∃ x l w₁, MakesSection s o w file x l w₁) (earlier : List FileSection) :
    ∃ made v', InTurn s o earlier v files made v' := by
  induction files generalizing v earlier with
  | nil => exact ⟨[], v, .nil earlier v⟩
  | cons file rest ih =>
    obtain ⟨⟨x, l, w₁, halone⟩, hrest⟩ := List.forall_mem_cons.1 h
    obtain ⟨v₁, hmakes, hkin', -⟩ := makesSection_of_kin hs hkin halone
    have hreplaced : Kin w (v₁.replacing earlier x) :=
      hkin'.trans ⟨⟨rfl, rfl, rfl⟩, rfl, fun _ _ => rfl⟩
    obtain ⟨made, v', hturn⟩ := ih hreplaced hrest (earlier ++ [x])
    exact ⟨(x, l) :: made, v', .cons hmakes hturn⟩

end Alone

/-- **Assembly.** Without a cache, a nested load has a result if and only if the files load and fit
the schema in turn; the sections are the last of each name, in the order in which the names occur
first, and of the ledgers the first entries count. If the loader has no cache at all, the files may
be loaded each by itself, and the warnings are those of the files and one for each section that
replaces another. -/
theorem nested_load_assembles (hcache : s.cache = none ∨ o.useCache = false)
    (files : List FilePath) (w : World) :
    (∀ t l w', outcome (s.loadNested files o) w = (.ok (t, l), w') ↔
      ∃ made, InTurn s o [] w (files.map (FilePath.normalize w.directory)) made w' ∧
        t = sectionsTree (latest (made.map Prod.fst)) ∧
        (latest (made.map Prod.fst)).map (·.name) = (made.map (·.1.name)).eraseDups ∧
        l = union (made.map Prod.snd)) ∧
    (s.cache = none →
      ((∃ r w', outcome (s.loadNested files o) w = (.ok r, w')) ↔
        ∀ file ∈ files.map (FilePath.normalize w.directory),
          ∃ x l w₁, MakesSection s o w file x l w₁) ∧
      ∀ made w', InTurn s o [] w (files.map (FilePath.normalize w.directory)) made w' →
        List.Forall₂ (fun file r => ∃ w₁, MakesSection s o w file r.1 r.2 w₁)
          (files.map (FilePath.normalize w.directory)) made ∧
        w'.warnings = w.warnings ++ notices (s.warnedBy o w) [] (made.map Prod.fst)) := by
  refine ⟨fun t l w' => ?_, fun hs => ⟨?_, fun made w' => alone_of_inTurn hs (.refl w)⟩⟩
  · rw [loadNested_iff hcache]
    refine exists_congr fun made => and_congr_right fun _ => and_congr_right fun _ => ?_
    rw [names_latest, List.map_map]
    exact (and_iff_right rfl).symm
  · constructor
    · rintro ⟨⟨t, l⟩, w', hrun⟩ file hfile
      obtain ⟨made, hturn, -⟩ := (loadNested_iff hcache).1 hrun
      obtain ⟨halone, -⟩ := alone_of_inTurn hs (.refl w) hturn
      obtain ⟨⟨x, l⟩, -, w₁, hmakes⟩ := exists_of_mem_forall₂ halone.flip hfile
      exact ⟨x, l, w₁, hmakes⟩
    · intro hall
      obtain ⟨made, w', hturn⟩ := inTurn_of_alone hs (.refl w) hall []
      exact ⟨_, w', (loadNested_iff hcache).2 ⟨made, hturn, rfl, rfl⟩⟩

/-! Two files of the same name in different directories, and one that takes that name in a field. -/

/-- A world with the files, the middle one by another name. -/
def namesakes : World := .holding
  [(["a"], .directory ⟨0⟩), (["a", "x.yml"], .file "k: 1\n".toUTF8 ⟨5⟩),
    (["y.yml"], .file "k: 2\n".toUTF8 ⟨5⟩), (["z.yml"], .file "name: x\nk: 3\n".toUTF8 ⟨5⟩)]

/-- Sections are named by a field, and have a default. -/
def naming : NestedOptions :=
  { NestedOptions.default with
    naming := .field "name"
    schema := some ⟨.map [(.str "k", .int 0), (.str "m", .int 9)], false⟩ }

theorem namesakes_are_assembled :
    ∃ t l w' made,
      outcome (default.loadNested [⟨"a/x.yml"⟩, ⟨"y.yml"⟩, ⟨"z.yml"⟩] naming) namesakes =
        (.ok (t, l), w') ∧
      InTurn default naming [] namesakes [⟨"/a/x.yml"⟩, ⟨"/y.yml"⟩, ⟨"/z.yml"⟩] made w' ∧
      t = sectionsTree (latest (made.map Prod.fst)) ∧
      t.same (.map [(.str "x", .map [(.str "k", .int 3), (.str "m", .int 9),
        (.str "name", .str "x")]), (.str "y", .map [(.str "k", .int 2), (.str "m", .int 9)])]) ∧
      l = union (made.map Prod.snd) ∧
      w'.warnings = namesakes.warnings ++
        notices (default.warnedBy naming namesakes) [] (made.map Prod.fst) ∧
      w'.warnings = ["section 'x' from /z.yml replaces the one from /a/x.yml"] := by
  have hnormal : [⟨"a/x.yml"⟩, ⟨"y.yml"⟩, ⟨"z.yml"⟩].map
      (FilePath.normalize namesakes.directory) = [⟨"/a/x.yml"⟩, ⟨"/y.yml"⟩, ⟨"/z.yml"⟩] := by
    decide +kernel
  obtain ⟨⟨t, l⟩, w', hrun, htest⟩ := succeeds_iff.1 (show succeeds
      (default.loadNested [⟨"a/x.yml"⟩, ⟨"y.yml"⟩, ⟨"z.yml"⟩] naming) namesakes (fun r w' =>
        r.1.same (.map [(.str "x", .map [(.str "k", .int 3), (.str "m", .int 9),
          (.str "name", .str "x")]), (.str "y", .map [(.str "k", .int 2), (.str "m", .int 9)])]) &&
        w'.warnings == ["section 'x' from /z.yml replaces the one from /a/x.yml"]) by
      decide +kernel)
  obtain ⟨hiff, halone⟩ := nested_load_assembles (s := default) (o := naming) (.inl rfl)
    [⟨"a/x.yml"⟩, ⟨"y.yml"⟩, ⟨"z.yml"⟩] namesakes
  rw [hnormal] at hiff halone
  obtain ⟨made, hturn, rfl, -, rfl⟩ := (hiff t l w').1 hrun
  obtain ⟨-, hwarned⟩ := (halone rfl).2 made w' hturn
  rw [Bool.and_eq_true, beq_iff_eq] at htest
  exact ⟨_, _, w', made, hrun, hturn, rfl, htest.1, rfl, hwarned, htest.2⟩

end Settings

end LayeredConfig
