import LayeredConfig.Glob.Walk
import LayeredConfig.Load

/-!
# Loading files as sections

A nested load reads a list of files and makes each a named section of one mapping, in the order of
the files. A section is named for its file, or by one of its own fields, or as the caller says; a
later section of the same name takes the place of an earlier one, with a warning. A schema may check
the sections and fill in what they leave out.

The files may also be given by a pattern. They are then loaded in the order of their paths, and in
the ledger the directory the pattern starts from stands for all of them.
-/

namespace LayeredConfig

/-- How sections are named. -/
inductive SectionName where
  /-- By the file name without its ending. -/
  | stem
  /-- By a text in a field of the section, or else as with `stem`. -/
  | field (name : String)
  | custom (name : FilePath → Tree → String)

namespace SectionName

/-- The name of the section a file holds. -/
def nameOf (naming : SectionName) (file : FilePath) (content : Tree) : String :=
  let stem := file.stem?.getD ""
  match naming with
  | .stem => stem
  | .field name => ((content.field? name).bind Tree.asText?).getD stem
  | .custom f => f file content

/-- What the naming adds to a key of the cache; none if it cannot be told from others. -/
def key? : SectionName → Option String
  | .stem => some "name=stem"
  | .field name => some ("name=field:" ++ name)
  | .custom _ => none

end SectionName

/-- What the schema adds to a key of the cache. -/
def Schema.key (s : Schema) : String :=
  "schema strict=" ++ Settings.flag s.strict ++ " " ++ ((Yaml.render s.defaults).toOption.getD "")

/-- What is asked of a nested load. -/
structure NestedOptions where
  schema : Option Schema
  sources : Option (List Tree)
  /-- The label of the documents in messages. -/
  location : Option String
  naming : SectionName
  pathField : Option String
  useCache : Bool
  cacheKeys : List String

namespace NestedOptions

/-- Sections named for their files, no schema, use of the cache. -/
def default : NestedOptions := ⟨none, none, none, .stem, none, true, []⟩

/-- What is asked of the load of each file. -/
def forFile (o : NestedOptions) : LoadOptions :=
  { LoadOptions.default with
    sources := o.sources
    location := o.location
    pathField := o.pathField
    useCache := o.useCache
    cacheKeys := o.cacheKeys }

end NestedOptions

/-- A section with the file it comes from. -/
structure FileSection where
  name : String
  file : FilePath
  content : Tree

namespace Settings

/-- The keys of a nested load, unless it must not be kept. -/
def nestedKeys? (s : Settings) (o : NestedOptions) : Option (List String) :=
  if !o.useCache || LoadOptions.isUnkeyed o.sources o.cacheKeys then none
  else if o.naming.key?.isNone && o.cacheKeys.isEmpty then none
  else
    some (s.keys "nested" o.pathField ++ o.naming.key?.toList
      ++ (o.schema.map Schema.key).toList ++ o.cacheKeys)

variable {m : Type → Type} [Monad m] [Host m]

/-- Put a section in the place of one of the same name, or at the end. -/
def putSection : List FileSection → FileSection → List FileSection
  | [], new => [new]
  | old :: rest, new => if old.name == new.name then new :: rest else old :: putSection rest new

/-- Load a file as a section. -/
def loadSection (s : Settings) (o : NestedOptions) (file : FilePath) :
    ExceptT Error m (FileSection × Ledger) := do
  let (tree, ledger) ← s.load file o.forFile
  let name := o.naming.nameOf file tree
  match o.schema with
  | none => return (⟨name, file, tree⟩, ledger)
  | some schema =>
    match schema.apply tree with
    | .ok tree => return (⟨name, file, tree⟩, ledger)
    | .error mismatch => throw (.unfit file mismatch.message)

/-- Load more files as sections. -/
def assembleFrom (s : Settings) (o : NestedOptions) :
    List FileSection → Ledger → List FilePath → ExceptT Error m (List FileSection × Ledger)
  | sections, ledger, [] => return (sections, ledger)
  | sections, ledger, file :: rest => do
    let (new, consulted) ← s.loadSection o file
    match sections.find? (·.name == new.name) with
    | some old =>
      Host.warn ("section '" ++ new.name ++ "' from " ++ file.text ++ " replaces the one from "
        ++ old.file.text)
    | none => pure ()
    assembleFrom s o (putSection sections new) (ledger.update consulted) rest

/-- Load files as sections. -/
def assemble (s : Settings) (o : NestedOptions) (files : List FilePath) :
    ExceptT Error m (List FileSection × Ledger) := s.assembleFrom o [] Ledger.empty files

/-- The mapping of some sections. -/
def sectionsTree (sections : List FileSection) : Tree :=
  .map (sections.map fun x => (.str x.name, x.content))

/-- Load files as sections of one mapping. -/
def loadNested (s : Settings) (files : List FilePath) (o : NestedOptions) :
    ExceptT Error m (Tree × Ledger) := do
  let files ← files.mapM fun p => Host.normalize p
  let store := s.storeFor? (s.nestedKeys? o)
  match ← cached store files with
  | some hit => return hit
  | none =>
    let (sections, ledger) ← s.assemble o files
    keep store files ("nested load of " ++ toString files.length ++ " file(s)")
      (sectionsTree sections) ledger

/-- Read the content of each section as a value of a known type. -/
def readSections {α : Type} (read : Tree → Except String α) : List FileSection →
    Except Error (List (String × α))
  | [] => .ok []
  | x :: rest =>
    match read x.content with
    | .ok a => do return (x.name, a) :: (← readSections read rest)
    | .error message => .error (.unfit x.file ("section '" ++ x.name ++ "': " ++ message))

/-- Load files as sections of a known type. The cache is used for each file, but not for the whole
load. -/
def loadNestedAs {α : Type} (s : Settings) (read : Tree → Except String α) (files : List FilePath)
    (o : NestedOptions) : ExceptT Error m (List (String × α) × Ledger) := do
  let files ← files.mapM fun p => Host.normalize p
  let (sections, ledger) ← s.assemble o files
  match readSections read sections with
  | .ok values => return (values, ledger)
  | .error e => throw e

/-- Load the files of a pattern as sections of one mapping. -/
def loadNestedPattern (s : Settings) (pattern : String) (o : NestedOptions) :
    ExceptT Error m (Tree × Ledger) := do
  let here ← Host.normalize ⟨"."⟩
  let pattern := (FilePath.absolute here ⟨pattern⟩).text
  match ← Glob.files pattern with
  | .error fault => throw (.pattern fault)
  | .ok files =>
    let (tree, ledger) ← s.loadNested files o
    match ← ledger.collapse [pattern] (FilePath.patternBase ⟨pattern⟩) [] with
    | .error fault => throw (.pattern fault)
    | .ok ledger => return (tree, ledger)

end Settings

end LayeredConfig
