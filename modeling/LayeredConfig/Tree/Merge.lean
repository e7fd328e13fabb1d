import LayeredConfig.Tree.Basic

/-!
# Merging trees

`merge base overlay` lays one tree over another: mappings are merged key by key, and everywhere
else the overlay replaces what is below it. The keys of the base come first, in their order, then
the new keys of the overlay in theirs.

Two mappings are merged entry by entry only if neither is tagged; a tagged mapping is replaced
whole. `underlay` is the same operation as seen by a mapping that owns its entries and has
something placed beneath it.
-/

namespace LayeredConfig.Tree

mutual

/-- Lay `overlay` over `base`. -/
def merge (base : Tree) : (overlay : Tree) → Tree
  | .map above =>
    match base with
    | .map below => .map (mergeEntries below above)
    | _ => .map above
  | overlay => overlay
termination_by structural overlay => overlay

/-- Lay the entries `above` over the entries `below`, one after the other. -/
def mergeEntries (below : List (Tree × Tree)) : (above : List (Tree × Tree)) → List (Tree × Tree)
  | [] => below
  | (key, value) :: rest =>
    match Entries.get? below key with
    | some existing => mergeEntries (Entries.put below key (merge existing value)) rest
    | none => mergeEntries (Entries.put below key value) rest
termination_by structural above => above

end

/-- Put the entries `own` on top of a base, which contributes nothing unless it is a mapping. -/
def underlay (base : Tree) (own : Entries) : Entries :=
  let below := match base with
    | .map es => es
    | _ => []
  own.foldl (fun merged (key, value) =>
    match Entries.get? merged key with
    | some existing =>
      if existing.isMapping && value.isMapping then Entries.put merged key (merge existing value)
      else Entries.put merged key value
    | none => Entries.put merged key value) below

end LayeredConfig.Tree
