import LayeredConfig.Tree.Basic
import LayeredConfig.Path.Section

/-!
# Looking up and replacing sections

`lookup` follows a section path into a tree. A step through a tagged value fails, an index also
names an integer key of a mapping, and a null at the end counts as absent. `replace` puts a value
where such a path leads; it never adds a key or an item, and it takes an index for the item of a
sequence only.
-/

namespace LayeredConfig.Tree

/-- One step into a tree, for reading. -/
def step? : Tree → Segment → Option Tree
  | .map es, .key name => Entries.get? es (.str name)
  | .map es, .index i => Entries.get? es (.int i)
  | .seq items, .index i => items[i]?
  | _, _ => none

/-- Follow the steps, whatever is found at the end. -/
def follow? (t : Tree) : List Segment → Option Tree
  | [] => some t
  | s :: rest => (t.step? s).bind fun next => follow? next rest

/-- The value at a section path, unless it is null. -/
def lookup (t : Tree) (path : List Segment) : Option Tree :=
  (t.follow? path).filter fun v => !v.isNull

/-- Replace the value at a path by `value`; nothing if the path does not lead anywhere. -/
def replace? (value : Tree) : List Segment → Tree → Option Tree
  | [], _ => some value
  | .key name :: rest, .map es =>
    (Entries.get? es (.str name)).bind fun slot =>
      (replace? value rest slot).map fun new => .map (Entries.modify (fun _ => new) es (.str name))
  | .index i :: rest, .seq items =>
    items[i]?.bind fun slot =>
      (replace? value rest slot).map fun new => .seq (items.set i new)
  | _, _ => none

end LayeredConfig.Tree
