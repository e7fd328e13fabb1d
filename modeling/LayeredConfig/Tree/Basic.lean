import LayeredConfig.Number.Binary64

/-!
# Configuration trees

A `Tree` is a scalar, a sequence, a mapping whose entries keep the order of their insertion, or a
value under a tag. Keys of mappings are trees themselves.

Two trees are the `same` key when they denote the same value: numbers of different kinds differ,
mappings are compared whatever the order of their entries, and a leading exclamation mark of a tag
does not count. The operations on entries (`get?`, `put`, `erase`) find keys by `same`; putting a
key that is there keeps its place and its spelling.

A test such as `isMapping` looks through tags. The operations elsewhere that match on a tree see
the tag itself.
-/

namespace LayeredConfig

/-- A configuration value. -/
inductive Tree where
  | null
  | bool (b : Bool)
  /-- An integer between `-2 ^ 63` and `2 ^ 64 - 1`. -/
  | int (i : Int)
  | float (x : Binary64)
  | str (s : String)
  | seq (items : List Tree)
  /-- Entries in insertion order. -/
  | map (entries : List (Tree × Tree))
  | tagged (tag : String) (value : Tree)
deriving Inhabited, Repr

/-- The entries of a mapping. -/
abbrev Entries := List (Tree × Tree)

namespace Tree

/-- A tag's name without one leading exclamation mark. -/
def tagName (tag : String) : List Char :=
  match tag.toList with
  | '!' :: rest => if rest.isEmpty then ['!'] else rest
  | name => name

mutual

/-- The trees denote the same value. -/
def same : Tree → Tree → Bool
  | .null, .null => true
  | .bool a, .bool b => a == b
  | .int a, .int b => a == b
  | .float a, .float b => a.same b
  | .str a, .str b => a == b
  | .seq as, .seq bs => sameItems as bs
  | .map as, .map bs => as.length == bs.length && sameEntries as bs
  | .tagged s a, .tagged t b => tagName s == tagName t && same a b
  | _, _ => false

/-- The items agree one by one. -/
def sameItems : List Tree → List Tree → Bool
  | [], [] => true
  | a :: as, b :: bs => same a b && sameItems as bs
  | _, _ => false

/-- Every entry on the left is matched by one on the right. -/
def sameEntries : List (Tree × Tree) → List (Tree × Tree) → Bool
  | [], _ => true
  | (k, v) :: rest, bs => bs.any (fun e => same k e.1 && same v e.2) && sameEntries rest bs

end

/-! ## Looking through tags -/

/-- The value under any tags. -/
def untagged : Tree → Tree
  | .tagged _ v => v.untagged
  | t => t

/-- The tree is a mapping, possibly tagged. -/
def isMapping (t : Tree) : Bool :=
  match t.untagged with
  | .map _ => true
  | _ => false

/-- The tree is a sequence, possibly tagged. -/
def isSequence (t : Tree) : Bool :=
  match t.untagged with
  | .seq _ => true
  | _ => false

/-- The tree is null, possibly tagged. -/
def isNull (t : Tree) : Bool :=
  match t.untagged with
  | .null => true
  | _ => false

/-- The text of a string, possibly tagged. -/
def asText? (t : Tree) : Option String :=
  match t.untagged with
  | .str s => some s
  | _ => none

/-! ## Kinds -/

/-- What the tree is called in messages. -/
def kind : Tree → String
  | .null => "null"
  | .bool _ => "boolean"
  | .int _ => "integer"
  | .float _ => "float"
  | .str _ => "string"
  | .seq _ => "sequence"
  | .map _ => "mapping"
  | .tagged _ _ => "tagged value"

/-- The empty mapping. -/
def empty : Tree := .map []

end Tree

/-! ## Entries -/

namespace Entries

/-- The value under a key. -/
def get? (es : Entries) (key : Tree) : Option Tree :=
  (es.find? fun e => e.1.same key).map Prod.snd

/-- The key is there. -/
def has (es : Entries) (key : Tree) : Bool := es.any fun e => e.1.same key

/-- Put a value under a key: in the key's place if it is there, at the end otherwise. -/
def put : Entries → Tree → Tree → Entries
  | [], key, value => [(key, value)]
  | (k, v) :: rest, key, value =>
    if k.same key then (k, value) :: rest else (k, v) :: put rest key value

/-- Change the value under a key, if it is there. -/
def modify (f : Tree → Tree) : Entries → Tree → Entries
  | [], _ => []
  | (k, v) :: rest, key =>
    if k.same key then (k, f v) :: rest else (k, v) :: modify f rest key

/-- Remove a key; the other entries keep their order. -/
def erase (es : Entries) (key : Tree) : Entries := es.filter fun e => !e.1.same key

/-- The keys in order. -/
def keys (es : Entries) : List Tree := es.map Prod.fst

end Entries

namespace Tree

/-- The entry of a possibly tagged mapping under a text key. -/
def field? (t : Tree) (name : String) : Option Tree :=
  match t.untagged with
  | .map es => Entries.get? es (.str name)
  | _ => none

mutual

/-- How many nodes the tree has, keys included. -/
def nodeCount : Tree → Nat
  | .seq items => 1 + nodeCountItems items
  | .map entries => 1 + nodeCountEntries entries
  | .tagged _ v => 1 + nodeCount v
  | _ => 1

/-- The nodes of all items. -/
def nodeCountItems : List Tree → Nat
  | [] => 0
  | t :: rest => nodeCount t + nodeCountItems rest

/-- The nodes of all keys and values. -/
def nodeCountEntries : List (Tree × Tree) → Nat
  | [] => 0
  | (k, v) :: rest => nodeCount k + nodeCount v + nodeCountEntries rest

end

end Tree

end LayeredConfig
