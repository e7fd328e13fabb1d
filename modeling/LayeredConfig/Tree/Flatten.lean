import LayeredConfig.Tree.Basic
import LayeredConfig.Yaml.Writer

/-!
# Flattening trees

`flatten` collapses nested mappings into joined keys: with depth `d`, a value `d + 1` keys down or
nearer ends up one key down, under the texts of the keys that led to it, joined by a separator.
Mappings under a tag are values like any other.
-/

namespace LayeredConfig.Tree

/-- Put the entries of an already flattened mapping under joined keys. -/
def joinInto (flat : Entries) (lead sep : String) (inner : Entries) : Entries :=
  inner.foldl (fun flat (key, value) =>
    Entries.put flat (.str (lead ++ sep ++ Yaml.keyText key)) value) flat

mutual

/-- Collapse `depth` levels of nested mappings. -/
def flatten (sep : String) (depth : Nat) : Tree → Tree
  | .map es =>
    match depth with
    | 0 => .map es
    | depth + 1 => .map (flattenInto sep depth [] es)
  | t => t
termination_by structural t => t

/-- Add entries to a flat mapping, collapsing `depth` levels below them. -/
def flattenInto (sep : String) (depth : Nat) (flat : List (Tree × Tree)) :
    List (Tree × Tree) → List (Tree × Tree)
  | [] => flat
  | (key, value) :: rest =>
    match flatten sep depth value with
    | .map below => flattenInto sep depth (joinInto flat (Yaml.keyText key) sep below) rest
    | value => flattenInto sep depth (Entries.put flat key value) rest
termination_by structural es => es

end

end LayeredConfig.Tree
