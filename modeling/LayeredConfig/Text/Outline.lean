/-!
# Outlines

An `Outline` is a label with others below it. `Outline.draw` draws it, a line for each label, with
branches that lead from each label to those below it.
-/

namespace LayeredConfig

/-- A label with others below it. -/
inductive Outline where
  | node (label : String) (children : List Outline)
deriving Repr

namespace Outline

/-- A label with nothing below it. -/
def leaf (label : String) : Outline := .node label []

/-- The label. -/
def label : Outline → String
  | .node label _ => label

/-- What is directly below. -/
def children : Outline → List Outline
  | .node _ children => children

mutual

/-- All labels, from top to bottom. -/
def labels : Outline → List String
  | .node label children => label :: labelsOfAll children

/-- All labels of some outlines, from top to bottom. -/
def labelsOfAll : List Outline → List String
  | [] => []
  | o :: rest => o.labels ++ labelsOfAll rest

end

mutual

/-- The lines of an outline. Those below the first begin with `margin`. -/
def lines (margin : String) : Outline → List String
  | .node label children => label :: branches margin children

/-- The lines of all that is below one label. -/
def branches (margin : String) : List Outline → List String
  | [] => []
  | o :: rest =>
    let (mark, inner) := if rest.isEmpty then ("└─ ", "   ") else ("├─ ", "│  ")
    let own := match o.lines (margin ++ inner) with
      | [] => []
      | first :: more => (margin ++ mark ++ first) :: more
    own ++ branches margin rest

end

/-- The drawing of an outline. -/
def draw (o : Outline) : String := String.join ((o.lines "").map fun line => line ++ "\n")

end Outline

end LayeredConfig
