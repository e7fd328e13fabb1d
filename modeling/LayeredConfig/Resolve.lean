import LayeredConfig.Ledger.Track
import LayeredConfig.Settings
import LayeredConfig.Tree.Flatten
import LayeredConfig.Tree.Lookup

/-!
# Resolving directives

Resolving a document carries out the directives of each of its mappings. Files that `_include`
names are loaded, flattened and merged in the order listed, and go beneath the mapping's own
entries. Sections that `_use` names are looked up in the reuse sources, merged in the order listed,
resolved, flattened, and go beneath it too. What is pulled in may have directives again, so this is
done until none is left, at most `substitutionLimit` times. Then the values are resolved.

The first source that has a section wins. If the document is its own first source, the mapping being
resolved is put into it anew after every step, so that later sections see what is already resolved.
Where there are no sources, `_use` is left for the including document.

Reused sections may reuse others, `substitutionLimit` deep. Otherwise directives nest in each other
only as deep as the documents do; a bound on that (`room`) makes every resolution end, if only with
the error that the document is unbounded.
-/

namespace LayeredConfig

/-- What a resolution has reached. -/
structure Progress where
  /-- Where reused sections are looked up; none if they are left alone. -/
  sources : Option (List Tree)
  ledger : Ledger

/-- A step of a resolution. -/
abbrev Resolving (m : Type → Type) := StateT Progress (ExceptT Error m)

/-- What a resolution is told. -/
structure Scope (m : Type → Type) where
  /-- The file the document belongs to, in normal form. -/
  owner : FilePath
  /-- The files that include one another down to this one. -/
  chain : List FilePath
  /-- Files are included. -/
  includes : Bool
  settings : Settings
  /-- How deep directives may be nested beyond the nodes of a tree. -/
  room : Nat
  /-- Load a file that is included at a location by the last file of a chain. -/
  load : FilePath → List FilePath → String → ExceptT Error m (Tree × Ledger)

/-- Where a node stands in the first source, if it is part of it. -/
abbrev Position := Option (List Segment)

/-- The position of an entry's value. -/
def Position.entry (p : Position) (key : String) : Position := p.map fun at_ => at_ ++ [.key key]

/-- The position of an item. -/
def Position.item (p : Position) (i : Nat) : Position := p.map fun at_ => at_ ++ [.index i]

namespace Scope

variable {m : Type → Type} [Monad m] [Host m] (s : Scope m)

/-- An error at a location of the document. -/
def fail {α : Type} (location : String) (reason : Unresolved) : Resolving m α :=
  throw (.unresolved s.owner location reason)

/-- A value, or an error at a location. -/
def orFail {α : Type} (location : String) : Except Directive.Fault α → Resolving m α
  | .ok a => pure a
  | .error fault => s.fail location (.directive fault)

/-! ## Including files -/

/-- The places where the file of an entry is looked for. -/
def candidates (entry : IncludeEntry) : Resolving m (List FilePath) := do
  let file : FilePath := ⟨entry.path⟩
  match entry.package with
  | some package => return (← s.settings.packages.resolve package file).toList
  | none =>
    if file.isAbsolute then return [file]
    else
      let directory ← Host.directory
      return (s.owner.parent :: s.settings.includeRoots).map fun dir =>
        FilePath.normalize directory (dir.join file)

/-- The first of some paths that is a file. -/
def firstFile : List FilePath → Resolving m (Option FilePath)
  | [] => return none
  | p :: rest => do if ← Host.isFile p then return some p else firstFile rest

/-- Note the places where an optional file was looked for. -/
def noteMissed (raw : String) (entry : IncludeEntry) (searched : List FilePath) :
    Resolving m Unit := do
  let ledger := (← get).ledger
  let ledger ← match entry.package with
    | some package => ledger.miss ⟨raw⟩ s.owner (some package) (some ⟨entry.path⟩)
    | none => searched.foldlM (fun l p => l.miss p s.owner none none) ledger
  modify fun progress => { progress with ledger := ledger }

/-- The file an entry names, in normal form; none for an optional file that is missing. -/
def find (raw : String) (entry : IncludeEntry) (location : String) :
    Resolving m (Option FilePath) := do
  let searched ← s.candidates entry
  match ← firstFile searched with
  | some file => return some (← Host.normalize file)
  | none =>
    if entry.optional then
      if entry.warn then
        Host.warn (s.owner.text ++ ": optional include '" ++ raw ++ "' not found")
      s.noteMissed raw entry searched
      return none
    else if searched.isEmpty then s.fail location (.noPackage raw (entry.package.getD ""))
    else s.fail location (.notFound raw searched)

/-- Load a file and merge it, flattened, over what was included before it. -/
def includeFile (flattening : Flattening) (location : String) (merged : Tree) (file : FilePath) :
    Resolving m Tree := do
  if s.chain.contains file then s.fail location (.cycle (s.chain ++ [file]))
  let (tree, ledger) ← s.load file s.chain location
  modify fun progress => { progress with ledger := progress.ledger.update ledger }
  if !tree.isMapping then s.fail location (.notMapping file)
  return merged.merge (tree.flatten flattening.separator flattening.depth)

/-- Merge the files that entries name. -/
def includeAll (flattening : Flattening) (location : String) : (merged : Tree) → List String →
    Resolving m Tree
  | merged, [] => return merged
  | merged, raw :: rest => do
    let entry ← s.orFail location (IncludeEntry.parse raw)
    match ← s.find raw entry location with
    | none => includeAll flattening location merged rest
    | some file => do
      let merged ← s.includeFile flattening location merged file
      includeAll flattening location merged rest

/-- What a value of `_include` pulls in. -/
def included (value : Tree) (location : String) (flattening : Flattening) : Resolving m Tree := do
  let entries ← s.orFail location (Directive.names Directive.includeKey value)
  s.includeAll flattening location .empty entries

/-! ## Reusing sections -/

/-- The section of a name in the first source that has it. -/
def sectionNamed? (sources : List Tree) (name : String) : Option Tree :=
  sources.findSome? fun t => t.lookup (SectionPath.parse name)

/-- Merge the sections of some names. -/
def mergeSections (sources : List Tree) (location : String) : (merged : Tree) → List String →
    Resolving m Tree
  | merged, [] => return merged
  | merged, name :: rest =>
    match sectionNamed? sources name with
    | none => s.fail location (.unknownSection name)
    | some found =>
      if found.isMapping then mergeSections sources location (merged.merge found) rest
      else s.fail location (.sectionNotMapping name)

/-- What a value of `_use` pulls in, its sections being resolved by `resolve`. -/
def reused (resolve : Tree → String → Resolving m Tree) (sources : List Tree) (value : Tree)
    (location : String) (flattening : Flattening) : Resolving m Tree := do
  let names ← s.orFail location (Directive.names Directive.useKey value)
  let base ← s.mergeSections sources location .empty names
  return (← resolve base location).flatten flattening.separator flattening.depth

/-! ## Mappings -/

/-- Put the present form of a mapping into the first source. -/
def rebind (position : Position) (es : Entries) : Resolving m Unit :=
  match position with
  | none => return
  | some path => modify fun progress =>
    { progress with sources := progress.sources.map fun
      | [] => []
      | own :: others => (Tree.replace? (.map es) path own).getD own :: others }

/-- Carry out an `_include` of a mapping, if it has one. -/
def includeStep (flattening : Flattening) (location : String) (position : Position)
    (es : Entries) : Resolving m Entries := do
  let key : Tree := .str Directive.includeKey
  match if s.includes then Entries.get? es key else none with
  | none => return es
  | some value =>
    let base ← s.included value location flattening
    let es := Tree.underlay base (Entries.erase es key)
    rebind position es
    return es

/-- Carry out a `_use` of a mapping, if it has one and there are sources. -/
def useStep (resolve : Tree → String → Resolving m Tree) (flattening : Flattening)
    (location : String) (position : Position) (es : Entries) : Resolving m Entries := do
  let key : Tree := .str Directive.useKey
  match (← get).sources, Entries.get? es key with
  | some sources, some value =>
    let base ← s.reused resolve sources value location flattening
    let es := Tree.underlay base (Entries.erase es key)
    rebind position es
    return es
  | _, _ => return es

/-- There is something left to carry out. -/
def isPending (es : Entries) : Resolving m Bool := do
  let reuse := (← get).sources.isSome
  return (s.includes && Entries.has es (.str Directive.includeKey))
    || (reuse && Entries.has es (.str Directive.useKey))

/-- Carry out the directives of a mapping until none is left. -/
def substitute (resolve : Tree → String → Resolving m Tree) (flattening : Flattening)
    (location : String) (position : Position) : (passes : Nat) → Entries → Resolving m Entries
  | passes, es => do
    if !(← s.isPending es) then return es
    match passes with
    | 0 => s.fail location .tooManySubstitutions
    | passes + 1 =>
      let es ← s.includeStep flattening location position es
      let es ← s.useStep resolve flattening location position es
      substitute resolve flattening location position passes es

/-! ## Trees -/

/-- Resolves a mapping that has directives. -/
abbrev MappingResolver (m : Type → Type) := Entries → String → Position → Resolving m Tree

/-- The mapping has a directive of its own. -/
def isDirected (es : Entries) : Bool :=
  [Directive.flattenKey, Directive.separatorKey, Directive.includeKey, Directive.useKey].any
    fun key => Entries.has es (.str key)

mutual

/-- Resolve a tree, its mappings with directives by `onward`. -/
def resolveTree (onward : MappingResolver m) (location : String) (position : Position) :
    Tree → Resolving m Tree
  | .map es =>
    if isDirected es then onward es location position
    else do return .map (← resolveEntries onward location position es)
  | .seq items => do return .seq (← resolveItems onward location position 0 items)
  | t => return t

/-- Resolve the values of entries. -/
def resolveEntries (onward : MappingResolver m) (location : String) (position : Position) :
    List (Tree × Tree) → Resolving m (List (Tree × Tree))
  | [] => return []
  | (key, value) :: rest => do
    let name := Yaml.keyText key
    let value ← resolveTree onward (SectionPath.childLabel location name) (position.entry name)
      value
    return (key, value) :: (← resolveEntries onward location position rest)

/-- Resolve items, the first of which has an index. -/
def resolveItems (onward : MappingResolver m) (location : String) (position : Position)
    (i : Nat) : List Tree → Resolving m (List Tree)
  | [] => return []
  | item :: rest => do
    let item ← resolveTree onward (SectionPath.indexLabel location i) (position.item i) item
    return item :: (← resolveItems onward location position (i + 1) rest)

end

/-- Resolve a mapping that has directives, in which mappings with directives may be nested as deep
as `room` says. Reused sections are resolved by `resolve`. -/
def resolveMapping (resolve : Tree → String → Resolving m Tree) : (room : Nat) → MappingResolver m
  | 0 => fun _ location _ => s.fail location .unbounded
  | room + 1 => fun es location position => do
    let (es, flattening) := Flattening.take es
    let flattening ← s.orFail location flattening
    let es ← s.substitute resolve flattening location position substitutionLimit es
    return .map (← resolveEntries (resolveMapping resolve room) location position es)

/-- Resolve reused sections, which may reuse others so many levels deep. They are no part of the
first source. -/
def resolveReused : (levels : Nat) → Tree → String → Resolving m Tree
  | 0, _, location => s.fail location .tooManySubstitutions
  | levels + 1, base, location =>
    resolveTree (s.resolveMapping (resolveReused levels) (s.room + base.nodeCount)) location none
      base

/-- Resolve a document. -/
def resolveDocument (location : String) (position : Position) (document : Tree) :
    Resolving m Tree :=
  resolveTree
    (s.resolveMapping (s.resolveReused substitutionLimit) (s.room + document.nodeCount))
    location position document

end Scope

end LayeredConfig
