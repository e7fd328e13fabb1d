import LayeredConfig.Text.Blank
import LayeredConfig.Yaml.Decode

/-!
# Documents

The configuration tree a text holds. A text without content is an empty mapping, and so is one
whose content is null.
-/

namespace LayeredConfig.Document

/-- The line carries no content: it is blank, a comment or a document mark. -/
def isIdleLine (line : List Char) : Bool :=
  let s := Text.trimBoth line
  s.isEmpty || s.head? == some '#' || s == ['-', '-', '-']

/-- The tree of a text, or why there is none. -/
def read (text : String) : Except Yaml.Fault Tree :=
  if (Text.lines text.toList).all isIdleLine then .ok .empty
  else (Yaml.decode Yaml.Decoder.tree text).map fun t => if t.isNull then .empty else t

end LayeredConfig.Document
