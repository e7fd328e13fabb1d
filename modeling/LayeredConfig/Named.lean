/-!
# Lists in the order of names

A list of values under names, each name once, in the order of the names' characters.
-/

namespace LayeredConfig

/-- Values under names, in the order of the names. -/
abbrev Named (α : Type) := List (String × α)

namespace Named

/-- Put a value under a name, in place of one that is there. -/
def insert {α : Type} (name : String) (a : α) : Named α → Named α
  | [] => [(name, a)]
  | (n, b) :: rest =>
    if name = n then (name, a) :: rest
    else if name < n then (name, a) :: (n, b) :: rest
    else (n, b) :: insert name a rest

/-- The value under a name. -/
def get? {α : Type} (es : Named α) (name : String) : Option α :=
  (es.find? (·.1 == name)).map Prod.snd

/-- Put values under names one after the other. -/
def ofList {α : Type} (es : List (String × α)) : Named α :=
  es.foldl (fun found (name, a) => insert name a found) []

end Named

end LayeredConfig
