import LayeredConfig.Command.Arguments

/-!
# Commands

A `Command` is what the program is asked to do. `Invocation.read` takes one from the arguments of
the program, by the grammar of `Command.grammar`; the environment stands in for a cache that is not
named.
-/

namespace LayeredConfig

/-- How trees are printed. -/
inductive Format where
  | yaml
  | json
deriving DecidableEq, Repr

/-- A shell that completes words. -/
inductive Shell where
  | bash
  | elvish
  | fish
  | powershell
  | zsh
deriving DecidableEq, Repr

/-- What arguments say about settings. -/
structure LoaderFlags where
  cacheRoot : Option FilePath
  noCache : Bool
  includeRoots : List FilePath
  packages : List (String × FilePath)
deriving DecidableEq, Repr

namespace LoaderFlags

/-- The settings of the environment, changed as the arguments say. -/
def settings (f : LoaderFlags) (env : Environment) : Settings :=
  let s := Settings.ofEnvironment env
  { includeRoots := s.includeRoots ++ f.includeRoots
    cache := if f.noCache then none else f.cacheRoot.or s.cache
    packages := f.packages.foldl (fun p (name, dir) => p.register name dir) s.packages }

end LoaderFlags

/-- Where results go: the tree is printed, and the ledger written to a file if there is one. -/
structure Output where
  format : Format
  ledger : Option FilePath
deriving DecidableEq, Repr

/-- Which entries of the cache are removed, and how. -/
structure Cleaning where
  dryRun : Bool
  all : Bool
  olderThan : Option String
  /-- Do not ask. -/
  agreed : Bool
deriving DecidableEq, Repr

/-- What the program is asked to do. -/
inductive Command where
  /-- Print a resolved file. Reused sections are looked up in the sources as well. -/
  | resolve (file : FilePath) (sources : List FilePath) (pathField : Option String)
      (output : Output) (flags : LoaderFlags)
  /-- Print files as sections of one mapping. -/
  | nested (inputs : List String) (nameField : Option String) (schema : Option FilePath)
      (strict : Bool) (output : Output) (flags : LoaderFlags)
  /-- Show what the load of a file consults. -/
  | deps (file : FilePath) (depth : Option Nat) (flags : LoaderFlags)
  /-- List the entries of the cache. -/
  | entries (root : Option FilePath) (json : Bool)
  /-- Remove entries of the cache. -/
  | clean (root : Option FilePath) (cleaning : Cleaning)
  /-- Print a script that completes words in a shell. -/
  | completions (shell : Shell)
deriving DecidableEq, Repr

/-- A command, and which messages are shown beside what it prints. -/
structure Invocation where
  logLevel : String
  command : Command
deriving DecidableEq, Repr

namespace Invocation

/-- The level at which warnings are shown. -/
def warnLevel : String := "warn"

/-- Warnings are not shown. -/
def isQuiet (i : Invocation) : Bool := ["error", "off"].contains i.logLevel.toLower

end Invocation

namespace Command

open Arguments

/-! ## Values -/

/-- A count that fits into 64 bits. -/
def count? (text : String) : Option Nat :=
  let digits := match text.toList with
    | '+' :: rest => rest
    | s => s
  if digits.isEmpty || !digits.all Char.isDigit then none
  else
    let n := digits.foldl (fun n c => 10 * n + (c.toNat - '0'.toNat)) 0
    if n < twoPow 64 then some n else none

/-- A package and its directory, with an equals sign between them. -/
def binding? (text : String) : Option (String × FilePath) :=
  let s := text.toList
  let name := Text.trimBoth (s.takeWhile (· != '='))
  let dir := Text.trimBoth ((s.dropWhile (· != '=')).drop 1)
  if name.isEmpty || dir.isEmpty then none
  else some (String.ofList name, ⟨String.ofList dir⟩)

/-- The names of formats. -/
def formats : List (String × Format) := [("yaml", .yaml), ("json", .json)]

/-- The names of shells. -/
def shells : List (String × Shell) :=
  [("bash", .bash), ("elvish", .elvish), ("fish", .fish), ("powershell", .powershell),
    ("zsh", .zsh)]

/-! ## The grammar -/

/-- A flag of a name. -/
def flag (name : String) : Parameter := Parameter.plain name .flag

/-- An option that has a path for its value. -/
def pathOption (name : String) : Parameter := Parameter.plain name (.once .path)

/-- An option that has a text for its value. -/
def textOption (name : String) : Parameter := Parameter.plain name (.once .text)

/-- The options of every command. -/
def commonOptions : List Parameter :=
  [{ Parameter.plain "help" (.stop .help) with short := some 'h' }, textOption "log-level"]

/-- The directory of the cache. -/
def cacheRoot : Parameter :=
  { pathOption "cache-root" with standIn := some Environment.cacheName }

/-- The options of every command that loads files. -/
def loaderOptions : List Parameter :=
  [cacheRoot, flag "no-cache",
    { Parameter.plain "include-dir" (.often .path) with short := some 'I' },
    Parameter.plain "package" (.often (.checked fun text => (binding? text).isSome))]

/-- The options of every command that prints a tree. -/
def outputOptions : List Parameter :=
  [Parameter.plain "format" (.once (.choice (formats.map Prod.fst))), pathOption "deps-out"]

/-- The file a command works on. -/
def fileSlot : Parameter := pathOption "FILE"

/-- Print a resolved file. -/
def resolveGrammar : Grammar :=
  .leaf
    (commonOptions ++ [Parameter.plain "use" (.often .path), textOption "include-path-field"]
      ++ outputOptions ++ loaderOptions)
    (some fileSlot)

/-- Print files as sections. -/
def nestedGrammar : Grammar :=
  .leaf
    (commonOptions ++ [textOption "name-field", pathOption "schema",
        { flag "strict" with needs := some "schema" }]
      ++ outputOptions ++ loaderOptions)
    (some (Parameter.plain "FILE_OR_GLOB" (.often .text)))

/-- Show what a load consults. -/
def depsGrammar : Grammar :=
  .leaf
    (commonOptions
      ++ [Parameter.plain "depth" (.once (.checked fun text => (count? text).isSome))]
      ++ loaderOptions)
    (some fileSlot)

/-- Manage the cache. -/
def cacheGrammar : Grammar :=
  .group (commonOptions ++ [cacheRoot])
    [("list", .leaf (commonOptions ++ [flag "json"]) none),
      ("clean", .leaf
        (commonOptions ++ [flag "dry-run", { flag "all" with excludes := some "older-than" },
          textOption "older-than", flag "yes"])
        none)]

/-- Complete words. -/
def completionsGrammar : Grammar :=
  .leaf commonOptions (some (Parameter.plain "SHELL" (.once (.choice (shells.map Prod.fst)))))

/-- What the program takes. -/
def grammar : Grammar :=
  .group
    (commonOptions ++ [{ Parameter.plain "version" (.stop .version) with short := some 'V' }])
    [("resolve", resolveGrammar), ("nested", nestedGrammar), ("deps", depsGrammar),
      ("cache", cacheGrammar), ("completions", completionsGrammar)]

/-! ## Reading -/

/-- A path that may be given. -/
def pathOf? (r : Reading) (name : String) : Option FilePath := (r.last? name).map FilePath.mk

/-- The file that was given. -/
def fileOf (r : Reading) : FilePath := (pathOf? r fileSlot.name).getD ⟨""⟩

/-- What was given about settings. -/
def flagsOf (r : Reading) : LoaderFlags :=
  { cacheRoot := pathOf? r "cache-root"
    noCache := r.has "no-cache"
    includeRoots := (r.all "include-dir").map FilePath.mk
    packages := (r.all "package").filterMap binding? }

/-- What was given about results. -/
def outputOf (r : Reading) : Output :=
  { format := ((r.last? "format").bind fun name => formats.lookup name).getD .yaml
    ledger := pathOf? r "deps-out" }

/-- The command that was given. -/
def ofReading? (r : Reading) : Option Command :=
  match r.commands with
  | ["resolve"] =>
    some (.resolve (fileOf r) ((r.all "use").map FilePath.mk) (r.last? "include-path-field")
      (outputOf r) (flagsOf r))
  | ["nested"] =>
    some (.nested (r.all "FILE_OR_GLOB") (r.last? "name-field") (pathOf? r "schema")
      (r.has "strict") (outputOf r) (flagsOf r))
  | ["deps"] => some (.deps (fileOf r) ((r.last? "depth").bind count?) (flagsOf r))
  | ["cache", "list"] => some (.entries (pathOf? r "cache-root") (r.has "json"))
  | ["cache", "clean"] =>
    some (.clean (pathOf? r "cache-root")
      ⟨r.has "dry-run", r.has "all", r.last? "older-than", r.has "yes"⟩)
  | ["completions"] => ((r.last? "SHELL").bind fun name => shells.lookup name).map .completions
  | _ => none

end Command

/-- Read a command from the arguments of the program. -/
def Invocation.read (env : Environment) (arguments : List String) :
    Except Arguments.Fault Invocation := do
  let r ← Command.grammar.read env arguments
  match Command.ofReading? r with
  | some command => return ⟨(r.last? "log-level").getD warnLevel, command⟩
  | none => throw .noCommand

end LayeredConfig
