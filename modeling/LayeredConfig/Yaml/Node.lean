import LayeredConfig.Yaml.Lexer

/-!
# Documents as nodes

A document is a tree of nodes in which an alias stands for the node under an anchor. `parse` reads
a text that holds exactly one document.

Anchors are numbered by how many names there were when they were met, so a name that is used again
can take the number of a later anchor; of two anchors with one number the one that starts later
holds.
-/

namespace LayeredConfig.Yaml

/-- A node of a document. Tags are kept in full. -/
inductive Node where
  | alias (anchor : Nat)
  | scalar (tag : Option String) (text : String) (style : Style)
  | sequence (tag : Option String) (items : List Node)
  | mapping (tag : Option String) (entries : List (Node × Node))
deriving Inhabited

/-- A document. -/
structure Document where
  root : Node
  /-- Anchored nodes by number. -/
  anchored : List (Nat × Node)
  /-- How many aliases, scalars, and starts and ends of collections the document has. -/
  size : Nat

/-- What has been read of a document. -/
structure NodeReader where
  rest : List Token
  /-- Tag handles and what they stand for. -/
  handles : List (String × String)
  /-- Numbers of the anchor names. -/
  names : List (String × Nat)
  /-- Anchored nodes with their numbers and where they start. -/
  anchored : List (Nat × Nat × Node)
  size : Nat

namespace NodeReader

/-- Reading nodes. -/
abbrev M := StateT NodeReader (Except Fault)

/-- The next token. -/
def peek : M Token := do
  match (← get).rest with
  | t :: _ => return t
  | [] => return .streamEnd

/-- Pass a token. -/
def next : M Unit := modify fun s => { s with rest := s.rest.tail }

/-- Count a start, an end, a scalar or an alias. -/
def count : M Unit := modify fun s => { s with size := s.size + 1 }

/-- The next token is one of these. -/
def sees (ts : List Token) : M Bool := do return ts.contains (← peek)

/-- An absent node. -/
def absent (tag : Option String) : M Node := do
  count
  return .scalar tag "" .plain

/-- What a tag stands for. -/
def fullTag (handle suffix : String) : M String := do
  if handle.isEmpty then return suffix
  match (← get).handles.find? (·.1 == handle) with
  | some (_, lead) => return lead ++ suffix
  | none => throw .undefinedTagHandle

/-- An anchor and a tag, in either order, each at most once. -/
def properties : M (Option String × Option String) := do
  match ← peek with
  | .anchor name => do
    next
    match ← peek with
    | .tag h s => do
      next
      return (some name, some (← fullTag h s))
    | _ => return (some name, none)
  | .tag h s => do
    next
    match ← peek with
    | .anchor name => do
      next
      return (some name, some (← fullTag h s))
    | _ => return (none, some (← fullTag h s))
  | _ => return (none, none)

/-- Number an anchor. -/
def nameAnchor (name : String) : M Nat := do
  let s ← get
  let n := s.names.length
  let names := if s.names.any (·.1 == name) then
    s.names.map fun (k, i) => if k == name then (k, n) else (k, i)
    else s.names ++ [(name, n)]
  set { s with names := names }
  return n

mutual

/-- A node. `block` allows block collections, `bare` a sequence without indentation of its own. -/
def node (block bare : Bool) : (fuel : Nat) → M Node
  | 0 => throw .unexpectedToken
  | fuel + 1 => do
    if let .alias name ← peek then
      match (← get).names.find? (·.1 == name) with
      | some (_, n) => do
        next
        count
        return .alias n
      | none => throw .undefinedAlias
    let (anchor, tag) ← properties
    let start := (← get).size
    let number ← match anchor with
      | some name => some <$> nameAnchor name
      | none => pure none
    let result ← content block bare tag (anchor.isSome || tag.isSome) fuel
    if let some n := number then
      modify fun s => { s with anchored := (n, start, result) :: s.anchored }
    return result

/-- The content of a node behind its properties. -/
def content (block bare : Bool) (tag : Option String) (marked : Bool) : (fuel : Nat) → M Node
  | 0 => throw .unexpectedToken
  | fuel + 1 => do
    match ← peek with
    | .blockEntry =>
      if bare then do
        count
        return .sequence tag (← bareItems fuel)
      else if marked then absent tag
      else throw .unexpectedToken
    | .scalar text style => do
      next
      count
      return .scalar tag text style
    | .flowSequenceStart => do
      next
      count
      return .sequence tag (← flowItems true fuel)
    | .flowMappingStart => do
      next
      count
      return .mapping tag (← flowEntries true fuel)
    | .blockSequenceStart =>
      if block then do
        next
        count
        return .sequence tag (← blockItems fuel)
      else if marked then absent tag
      else throw .unexpectedToken
    | .blockMappingStart =>
      if block then do
        next
        count
        return .mapping tag (← blockEntries fuel)
      else if marked then absent tag
      else throw .unexpectedToken
    | _ => if marked then absent tag else throw .unexpectedToken

/-- The items of an indented sequence. -/
def blockItems : (fuel : Nat) → M (List Node)
  | 0 => throw .unexpectedToken
  | fuel + 1 => do
    match ← peek with
    | .blockEntry => do
      next
      let item ← if ← sees [.blockEntry, .blockEnd] then absent none else node true false fuel
      return item :: (← blockItems fuel)
    | .blockEnd => do
      next
      count
      return []
    | _ => throw .unexpectedToken

/-- The items of a sequence that stands at the column of its key. -/
def bareItems : (fuel : Nat) → M (List Node)
  | 0 => throw .unexpectedToken
  | fuel + 1 => do
    match ← peek with
    | .blockEntry => do
      next
      let item ← if ← sees [.blockEntry, .key, .value, .blockEnd] then absent none
        else node true false fuel
      return item :: (← bareItems fuel)
    | _ => do
      count
      return []

/-- The entries of an indented mapping. -/
def blockEntries : (fuel : Nat) → M (List (Node × Node))
  | 0 => throw .unexpectedToken
  | fuel + 1 => do
    match ← peek with
    | .key => do
      next
      let key ← if ← sees [.key, .value, .blockEnd] then absent none else node true true fuel
      let value ← if ← sees [.value] then do
          next
          if ← sees [.key, .value, .blockEnd] then absent none else node true true fuel
        else absent none
      return (key, value) :: (← blockEntries fuel)
    | .blockEnd => do
      next
      count
      return []
    | _ => throw .unexpectedToken

/-- The items of a sequence in brackets; a lone `key: value` is a mapping of one entry. -/
def flowItems (first : Bool) : (fuel : Nat) → M (List Node)
  | 0 => throw .unexpectedToken
  | fuel + 1 => do
    if ← sees [.flowSequenceEnd] then
      next
      count
      return []
    if !first then
      if ← sees [.flowEntry] then next else throw .unexpectedToken
    match ← peek with
    | .flowSequenceEnd => do
      next
      count
      return []
    | .key => do
      next
      count
      let key ← if ← sees [.value, .flowEntry, .flowSequenceEnd] then do
          next
          absent none
        else node false false fuel
      let value ← if ← sees [.value] then do
          next
          if ← sees [.flowEntry, .flowSequenceEnd] then absent none else node false false fuel
        else absent none
      count
      return .mapping none [(key, value)] :: (← flowItems false fuel)
    | _ => do
      let item ← node false false fuel
      return item :: (← flowItems false fuel)

/-- The entries of a mapping in braces; a value may be left out. -/
def flowEntries (first : Bool) : (fuel : Nat) → M (List (Node × Node))
  | 0 => throw .unexpectedToken
  | fuel + 1 => do
    if ← sees [.flowMappingEnd] then
      next
      count
      return []
    if !first then
      if ← sees [.flowEntry] then next else throw .unexpectedToken
    match ← peek with
    | .flowMappingEnd => do
      next
      count
      return []
    | .key => do
      next
      let key ← if ← sees [.value, .flowEntry, .flowMappingEnd] then absent none
        else node false false fuel
      let value ← if ← sees [.value] then do
          next
          if ← sees [.flowEntry, .flowMappingEnd] then absent none else node false false fuel
        else absent none
      return (key, value) :: (← flowEntries false fuel)
    | _ => do
      let key ← node false false fuel
      let value ← absent none
      return (key, value) :: (← flowEntries false fuel)

end

/-- Directives in front of a document. `version` says that one has been seen. -/
def directives : (fuel : Nat) → (version : Bool) → M Unit
  | 0, _ => throw .unexpectedToken
  | fuel + 1, version => do
    match ← peek with
    | .version major minor =>
      if version || major != 1 || (minor != 1 && minor != 2) then throw .badDirective
      else do
        next
        directives fuel true
    | .tagDirective handle lead => do
      if (← get).handles.any (·.1 == handle) then throw .badDirective
      next
      modify fun s => { s with handles := s.handles ++ [(handle, lead)] }
      directives fuel version
    | _ => modify fun s => { s with
        handles := s.handles ++ [("!", "!"), ("!!", "tag:yaml.org,2002:")] }

/-- The only document of a text. -/
def document (fuel : Nat) : M Node := do
  let root ←
    match ← peek with
    | .streamEnd => throw .notOneDocument
    | .version .. | .tagDirective .. | .documentStart => do
      directives fuel false
      if !(← sees [.documentStart]) then throw .unexpectedToken
      next
      match ← peek with
      | .version .. | .tagDirective .. | .documentStart | .documentEnd | .streamEnd => absent none
      | _ => node true false fuel
    | _ => do
      directives fuel false
      node true false fuel
  modify fun s => { s with rest := s.rest.dropWhile (· == .documentEnd) }
  if !(← sees [.streamEnd]) then throw .notOneDocument
  return root

end NodeReader

/-- Of all anchored nodes with one number, the one that starts last. -/
def lastAnchored (all : List (Nat × Nat × Node)) : List (Nat × Node) :=
  all.filterMap fun (n, start, node) =>
    if all.any fun (m, other, _) => m == n && start < other then none else some (n, node)

/-- Read a text that holds one document. -/
def Document.parse (text : String) : Except Fault Document := do
  let ts ← tokens text
  let (root, s) ← (NodeReader.document (4 * ts.length + 8)).run ⟨ts, [], [], [], 0⟩
  return ⟨root, lastAnchored s.anchored, s.size⟩

end LayeredConfig.Yaml
