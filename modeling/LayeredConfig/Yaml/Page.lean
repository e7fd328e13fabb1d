/-!
# Pages

The text a document is written to. A `Page` knows the column it has reached and whether what it
has on the current line is indentation and block indicators only, which is what decides where a
line break or a space is needed next.
-/

namespace LayeredConfig.Yaml

/-- Text in the making. -/
structure Page where
  text : String
  column : Nat
  /-- The last thing written separates what follows. -/
  spaced : Bool
  /-- The current line holds nothing but indentation and block indicators. -/
  fresh : Bool

namespace Page

/-- The empty page. -/
def empty : Page := ⟨"", 0, true, true⟩

/-- Write a character. -/
def put (p : Page) (c : Char) : Page := { p with text := p.text.push c, column := p.column + 1 }

/-- Write characters. -/
def puts (p : Page) (s : List Char) : Page := s.foldl put p

/-- End the line. -/
def newline (p : Page) : Page := { p with text := p.text.push '\n', column := 0 }

/-- Write a line break as it stands in a scalar. -/
def putBreak (p : Page) (c : Char) : Page :=
  if c == '\n' then p.newline else { p with text := p.text.push c, column := 0 }

/-- Write an indicator, after a space if it is `apart` and none separates it. A `block` indicator
leaves a fresh line fresh. -/
def indicator (p : Page) (s : List Char) (apart spaced block : Bool) : Page :=
  let p := if apart && !p.spaced then p.put ' ' else p
  { p.puts s with spaced := spaced, fresh := p.fresh && block }

/-- Go to a column, on the next line unless this one is fresh and has not reached it. -/
def indentTo (p : Page) (column : Int) : Page :=
  let target := column.toNat
  let p := if !p.fresh || target < p.column || (p.column == target && !p.spaced) then p.newline
    else p
  { p.puts (List.replicate (target - p.column) ' ') with spaced := true, fresh := true }

end Page

end LayeredConfig.Yaml
