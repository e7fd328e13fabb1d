import LayeredConfig.Yaml.Node
import LayeredConfig.Yaml.Scalar

/-!
# Reading values from a document

A `Decoder` reads a value from a node. Collections may be nested 128 deep, and aliases may be
followed at most a hundred times as often as the document has parts, so that a short text cannot
unfold into an enormous value.

`Decoder.tree` reads any value. The others read a text, a number, a record and so on where the
kind of value is known in advance: any scalar is a text, whatever it would stand for by itself.
-/

namespace LayeredConfig.Yaml

/-- The reading of one value: what document it belongs to, how much deeper collections may be, and
how often aliases have been followed. -/
abbrev Decoding := ReaderT Document (StateT Nat (Except Fault))

/-- Reads a value from a node, given how many levels of collections remain. -/
abbrev Decoder (α : Type) := (depth : Nat) → Node → Decoding α

/-- The node itself, or the one its alias stands for. -/
def Node.resolve : Node → Decoding Node
  | .alias n => do
    let doc ← read
    modify (· + 1)
    if doc.size * 100 < (← get) then throw .tooManyAliases
    match doc.anchored.find? (·.1 == n) with
    | some (_, target) => return target
    | none => throw .undefinedAlias
  | node => return node

/-- The name of a tag that belongs to the document: one that begins with an exclamation mark. -/
def localTag? (tag : Option String) : Option String :=
  match tag.map String.toList with
  | some ('!' :: rest) => some ("!" ++ (if rest.isEmpty then "!" else String.ofList rest))
  | _ => none

/-- The value of a scalar under a standard tag or none. -/
def scalarValue (tag : Option String) (text : String) (style : Style) : Except Fault Tree :=
  match tag with
  | some "tag:yaml.org,2002:bool" =>
    match boolWord? text with
    | some b => .ok (.bool b)
    | none => .error .wrongKind
  | some "tag:yaml.org,2002:int" => do
    match ← integerValue? text with
    | some i => return i
    | none => throw .wrongKind
  | some "tag:yaml.org,2002:float" =>
    match float? text with
    | some x => .ok (.float x)
    | none => .error .wrongKind
  | some "tag:yaml.org,2002:null" => if isNullWord text then .ok .null else .error .wrongKind
  | some _ => .ok (.str text)
  | none => if style == .plain then plainValue text else .ok (.str text)

/-- Put an entry into a mapping that must not have its key. -/
def addEntry (es : Entries) (key value : Tree) : Except Fault Entries :=
  if Entries.has es key then .error .duplicateKey else .ok (es ++ [(key, value)])

/-- A value under a tag of the document, if it has one. -/
def underTag (tag : Option String) (t : Tree) : Tree :=
  match localTag? tag with
  | some name => .tagged name t
  | none => t

/-- The value of a scalar under any tag or none. -/
def taggedScalar (tag : Option String) (text : String) (style : Style) : Except Fault Tree :=
  match localTag? tag with
  | some name => do return .tagged name (← scalarValue none text style)
  | none => scalarValue tag text style

namespace Decoder

/-- Any value. -/
def tree : Decoder Tree
  | 0, node => do
    match ← node.resolve with
    | .alias _ => throw .undefinedAlias
    | .scalar tag text style => taggedScalar tag text style
    | _ => throw .tooDeep
  | depth + 1, node => do
    match ← node.resolve with
    | .alias _ => throw .undefinedAlias
    | .scalar tag text style => taggedScalar tag text style
    | .sequence tag items =>
      return underTag tag (.seq (← items.mapM fun item => tree depth item))
    | .mapping tag entries =>
      let es ← entries.foldlM (fun es (k, v) => do
        let key ← tree depth k
        if Entries.has es key then throw .duplicateKey
        let value ← tree depth v
        addEntry es key value) []
      return underTag tag (.map es)

/-- The text of any scalar. -/
def text : Decoder String
  | _, node => do
    match ← node.resolve with
    | .scalar _ s _ => return s
    | _ => throw .wrongKind

/-- A scalar that is plain, or a literal block under the given standard tag. -/
def bareScalar (kind : String) : Decoder String
  | _, node => do
    match ← node.resolve with
    | .scalar tag s style =>
      if style == .plain || (style == .literal && tag == some ("tag:yaml.org,2002:" ++ kind)) then
        return s
      else throw .wrongKind
    | _ => throw .wrongKind

/-- A number. -/
def float : Decoder Binary64
  | depth, node => do
    match float? (← bareScalar "float" depth node) with
    | some x => return x
    | none => throw .wrongKind

/-- A truth value. -/
def bool : Decoder Bool
  | depth, node => do
    match boolWord? (← bareScalar "bool" depth node) with
    | some b => return b
    | none => throw .wrongKind

/-- A value that null or an empty plain scalar leaves out. -/
def optional {α : Type} (value : Decoder α) : Decoder (Option α)
  | depth, node => do
    match ← node.resolve with
    | .scalar tag s .plain =>
      match tag with
      | some "tag:yaml.org,2002:null" => if isNullWord s then return none else throw .wrongKind
      | some _ => return some (← value depth node)
      | none =>
        if s.isEmpty || isNullWord s then return none else return some (← value depth node)
    | _ => return some (← value depth node)

/-- A sequence; an empty scalar is an empty one. -/
def list {α : Type} (item : Decoder α) : Decoder (List α)
  | depth, node => do
    match ← node.resolve, depth with
    | .sequence _ _, 0 => throw .tooDeep
    | .sequence _ items, depth + 1 => items.mapM fun n => item depth n
    | .scalar _ s _, _ => if s.isEmpty then return [] else throw .wrongKind
    | _, _ => throw .wrongKind

/-- The entries of a mapping with text keys, as they stand, and the depth their values are read
at; an empty scalar is an empty mapping. -/
def entries : Decoder (Nat × List (String × Node))
  | depth, node => do
    match ← node.resolve, depth with
    | .mapping _ _, 0 => throw .tooDeep
    | .mapping _ es, depth + 1 =>
      return (depth, ← es.mapM fun (k, v) => do return (← text depth k, v))
    | .scalar _ s _, _ => if s.isEmpty then return (0, []) else throw .wrongKind
    | _, _ => throw .wrongKind

/-- A mapping from texts, in the order of the text. -/
def table {α : Type} (value : Decoder α) : Decoder (List (String × α))
  | depth, node => do
    let (depth, es) ← entries depth node
    es.mapM fun (k, v) => do return (k, ← value depth v)

/-- The fields of a record: the entries under the given names, each at most once. Others do not
count. -/
def record (names : List String) : Decoder (Nat × List (String × Node))
  | depth, node => do
    let (depth, es) ← entries depth node
    let known := es.filter fun e => names.contains e.1
    if names.any fun n => 1 < (known.filter (·.1 == n)).length then throw .duplicateKey
    return (depth, known)

/-- A field that must be there. -/
def field {α : Type} (fields : Nat × List (String × Node)) (name : String) (value : Decoder α) :
    Decoding α :=
  match fields.2.find? (·.1 == name) with
  | some (_, node) => value fields.1 node
  | none => throw .missingField

/-- A field with a default. -/
def fieldOr {α : Type} (fields : Nat × List (String × Node)) (name : String) (default : α)
    (value : Decoder α) : Decoding α :=
  match fields.2.find? (·.1 == name) with
  | some (_, node) => value fields.1 node
  | none => return default

end Decoder

/-- How deep collections may be nested. -/
def depthLimit : Nat := 128

/-- Read a text that holds one value. -/
def decode {α : Type} (value : Decoder α) (text : String) : Except Fault α := do
  let doc ← Document.parse text
  let (a, _) ← ((value depthLimit doc.root).run doc).run 0
  return a

end LayeredConfig.Yaml
