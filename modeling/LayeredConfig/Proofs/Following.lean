import LayeredConfig.Nested
import LayeredConfig.Proofs.Accounting

/-!
# Following a loader at its tasks

A loader has four tasks: to load a file, to resolve a document, and to load files as sections, which
are listed or given by a pattern. Each is written once more so that it tells which entries of
`_include` are met.

What the cache answers is not resolved, so nothing is met in it. But its ledger has notes of entries
that an earlier load has missed. Of entries one wants to know of, those that an answer notes count
as met there (`noted`).
-/

namespace LayeredConfig

/-- What a loader can be asked to do. -/
inductive Task where
  | load (path : FilePath) (o : LoadOptions)
  | resolve (document : Tree) (owner : FilePath) (o : LoadOptions)
  | nested (files : List FilePath) (o : NestedOptions)
  | pattern (pattern : String) (o : NestedOptions)

namespace Settings

/-- Do what is asked. -/
def perform (s : Settings) : Task → ExceptT Error InWorld (Tree × Ledger)
  | .load path o => s.load path o
  | .resolve document owner o => s.resolve document owner o
  | .nested files o => s.loadNested files o
  | .pattern pattern o => s.loadNestedPattern pattern o

section Following

variable (s : Settings) (wanted : List (FilePath × String))

/-- The wanted entries that are optional and still name no file, and are all noted in a ledger. -/
def noted (w : World) (l : Ledger) : List Meeting :=
  wanted.filterMap fun (owner, raw) =>
    match IncludeEntry.parse raw with
    | .error _ => none
    | .ok entry =>
      let m := s.meeting w owner raw entry
      if entry.optional && m.found.isNone &&
          (m.misses w.directory).all fun e => Ledger.covers l.missed e.1
      then some m else none

/-- Ask the cache. -/
def followCached (store : Option (Store × List String)) (paths : List FilePath) :
    Telling (Option (Tree × Ledger)) where
  run := cached store paths
  meets := Telling.after (cached store paths) fun hit w =>
    match hit with
    | some (_, l) => s.noted wanted w l
    | none => []

/-- Load a file. -/
def followFile : (budget : Nat) → Request → Telling (Tree × Ledger)
  | 0, request => Telling.quiet (throw (.unresolved request.path request.location .unbounded))
  | budget + 1, request => do
    let store := s.storeFor? request.cacheKeys
    match ← s.followCached wanted store [request.path] with
    | some hit => return hit
    | none =>
      match ← Telling.quiet (Host.document request.path) with
      | none => Telling.quiet (throw (.unreadable request.path))
      | some document =>
        let ledger ← Telling.quiet (Ledger.empty.add request.path)
        let next := s.includedRequest request.pathField
        let (tree, consulted) ← s.tellResolve
          (fun path chain location => s.loadFile budget (next path chain location))
          (fun path chain location => (followFile budget (next path chain location)).meets)
          request document
        Telling.quiet (keep store [request.path] request.path.text
          (withPath request.pathField request.path tree) (ledger.update consulted))

/-- Load one file. -/
def followLoad (path : FilePath) (o : LoadOptions) : Telling (Tree × Ledger) := do
  let path ← Telling.quiet (Host.normalize path)
  s.followFile wanted ((← Telling.quiet Host.fileBound) + 1) (o.request path (s.loadKeys? o))

/-- Resolve a tree as if it were the document in a file. -/
def followResolve (document : Tree) (owner : FilePath) (o : LoadOptions) :
    Telling (Tree × Ledger) := do
  let owner ← Telling.quiet (Host.normalize owner)
  let budget ← Telling.quiet Host.fileBound
  let next := s.includedRequest o.pathField
  s.tellResolve
    (fun path chain location => s.loadFile budget (next path chain location))
    (fun path chain location => (s.followFile wanted budget (next path chain location)).meets)
    (o.request owner none) document

/-- Load a file as a section. -/
def followSection (o : NestedOptions) (file : FilePath) : Telling (FileSection × Ledger) := do
  let (tree, ledger) ← s.followLoad wanted file o.forFile
  let name := o.naming.nameOf file tree
  match o.schema with
  | none => return (⟨name, file, tree⟩, ledger)
  | some schema =>
    match schema.apply tree with
    | .ok tree => return (⟨name, file, tree⟩, ledger)
    | .error mismatch => Telling.quiet (throw (.unfit file mismatch.message))

/-- Load more files as sections. -/
def followAssembly (o : NestedOptions) :
    List FileSection → Ledger → List FilePath → Telling (List FileSection × Ledger)
  | sections, ledger, [] => return (sections, ledger)
  | sections, ledger, file :: rest => do
    let (new, consulted) ← s.followSection wanted o file
    match sections.find? (·.name == new.name) with
    | some old =>
      Telling.quiet (Host.warn ("section '" ++ new.name ++ "' from " ++ file.text
        ++ " replaces the one from " ++ old.file.text))
    | none => pure ()
    followAssembly o (putSection sections new) (ledger.update consulted) rest

/-- Load files as sections of one mapping. -/
def followNested (files : List FilePath) (o : NestedOptions) : Telling (Tree × Ledger) := do
  let files ← Telling.quiet (files.mapM fun p => Host.normalize p)
  let store := s.storeFor? (s.nestedKeys? o)
  match ← s.followCached wanted store files with
  | some hit => return hit
  | none =>
    let (sections, ledger) ← s.followAssembly wanted o [] Ledger.empty files
    Telling.quiet (keep store files ("nested load of " ++ toString files.length ++ " file(s)")
      (sectionsTree sections) ledger)

/-- Load the files of a pattern as sections of one mapping. -/
def followPattern (pattern : String) (o : NestedOptions) : Telling (Tree × Ledger) := do
  let here ← Telling.quiet (Host.normalize ⟨"."⟩)
  let pattern := (FilePath.absolute here ⟨pattern⟩).text
  match ← Telling.quiet (Glob.files pattern) with
  | .error fault => Telling.quiet (throw (.pattern fault))
  | .ok files =>
    let (tree, ledger) ← s.followNested wanted files o
    match ← Telling.quiet (ledger.collapse [pattern] (FilePath.patternBase ⟨pattern⟩) []) with
    | .error fault => Telling.quiet (throw (.pattern fault))
    | .ok ledger => return (tree, ledger)

/-- Do what is asked. -/
def follow : Task → Telling (Tree × Ledger)
  | .load path o => s.followLoad wanted path o
  | .resolve document owner o => s.followResolve wanted document owner o
  | .nested files o => s.followNested wanted files o
  | .pattern pattern o => s.followPattern wanted pattern o

end Following

/-! ## Leaving out what is told -/

variable {s : Settings} {wanted : List (FilePath × String)}

theorem followFile_run (budget : Nat) (request : Request) :
    (s.followFile wanted budget request).run = s.loadFile budget request := by
  cases budget with
  | zero => rfl
  | succ budget =>
    rw [followFile, loadFile, Telling.run_bind]
    refine bind_congr fun hit => ?_
    cases hit with
    | some hit => rfl
    | none =>
      dsimp only
      rw [Telling.run_bind]
      refine bind_congr fun document => ?_
      cases document with
      | none => rfl
      | some document =>
        dsimp only
        rw [Telling.run_bind]
        refine bind_congr fun ledger => ?_
        rw [Telling.run_bind, tellResolve_run]
        rfl

theorem followLoad_run (path : FilePath) (o : LoadOptions) :
    (s.followLoad wanted path o).run = s.load path o := by
  unfold followLoad load
  rw [Telling.run_bind]
  refine bind_congr fun path => ?_
  rw [Telling.run_bind]
  exact bind_congr fun bound => followFile_run _ _

theorem followResolve_run (document : Tree) (owner : FilePath) (o : LoadOptions) :
    (s.followResolve wanted document owner o).run = s.resolve document owner o := by
  unfold followResolve resolve
  rw [Telling.run_bind]
  refine bind_congr fun owner => ?_
  rw [Telling.run_bind]
  exact bind_congr fun budget => tellResolve_run _ _ _ _

theorem followSection_run (o : NestedOptions) (file : FilePath) :
    (s.followSection wanted o file).run = s.loadSection o file := by
  unfold followSection loadSection
  rw [Telling.run_bind, followLoad_run]
  refine bind_congr fun result => ?_
  dsimp only
  cases o.schema with
  | none => rfl
  | some schema =>
    dsimp only
    cases schema.apply result.1 <;> rfl

theorem followAssembly_run (o : NestedOptions) (sections : List FileSection) (ledger : Ledger)
    (files : List FilePath) :
    (s.followAssembly wanted o sections ledger files).run =
      s.assembleFrom o sections ledger files := by
  induction files generalizing sections ledger with
  | nil => rfl
  | cons file rest ih =>
    rw [followAssembly, assembleFrom, Telling.run_bind, followSection_run]
    refine bind_congr fun result => ?_
    dsimp only
    cases sections.find? (·.name == result.1.name) with
    | none => exact ih _ _
    | some old => exact bind_congr fun _ => ih _ _

theorem followNested_run (files : List FilePath) (o : NestedOptions) :
    (s.followNested wanted files o).run = s.loadNested files o := by
  unfold followNested loadNested
  rw [Telling.run_bind]
  refine bind_congr fun files => ?_
  rw [Telling.run_bind]
  refine bind_congr fun hit => ?_
  cases hit with
  | some hit => rfl
  | none =>
    dsimp only
    rw [Telling.run_bind, followAssembly_run]
    rfl

theorem followPattern_run (pattern : String) (o : NestedOptions) :
    (s.followPattern wanted pattern o).run = s.loadNestedPattern pattern o := by
  unfold followPattern loadNestedPattern
  rw [Telling.run_bind]
  refine bind_congr fun here => ?_
  rw [Telling.run_bind]
  refine bind_congr fun files => ?_
  cases files with
  | error fault => rfl
  | ok files =>
    dsimp only
    rw [Telling.run_bind, followNested_run]
    refine bind_congr fun result => ?_
    rw [Telling.run_bind]
    refine bind_congr fun collapsed => ?_
    cases collapsed <;> rfl

/-- A loader that is followed does what is asked of it. -/
theorem follow_run (task : Task) : (s.follow wanted task).run = s.perform task := by
  cases task with
  | load path o => exact followLoad_run path o
  | resolve document owner o => exact followResolve_run document owner o
  | nested files o => exact followNested_run files o
  | pattern pattern o => exact followPattern_run pattern o

end Settings

end LayeredConfig
