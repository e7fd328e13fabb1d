import LayeredConfig.Text.Blank

/-!
# File paths

A `FilePath` is a path as it is written. Its `parts` are what it means: repeated and trailing
slashes do not count, and a dot counts only at the start of a relative path. Two paths with the
same parts are the same path, though messages print each as it is written.

`normalize` gives the one absolute spelling without `.` and `..`. Links are not followed: a `..`
takes back the part before it, and nothing at the root.
-/

namespace LayeredConfig

/-- A path as it is written. -/
structure FilePath where
  text : String
deriving DecidableEq, Repr, Inhabited

namespace FilePath

/-- A part of a path. -/
inductive Part where
  | root
  /-- A dot at the start. -/
  | here
  /-- Two dots. -/
  | up
  | name (s : String)
deriving DecidableEq, Repr

/-- The stretches between slashes. -/
def pieces (p : FilePath) : List (List Char) := Text.splitAt (· == '/') p.text.toList

/-- A piece behind a slash that stands for nothing. -/
def isIdle (piece : List Char) : Bool := piece.isEmpty || piece == ['.']

/-- What a piece stands for. -/
def part (piece : List Char) : Part :=
  if piece == ['.', '.'] then .up else .name (String.ofList piece)

/-- The parts of the pieces behind a slash. -/
def innerParts (pieces : List (List Char)) : List Part :=
  (pieces.filter fun piece => !isIdle piece).map part

/-- What a path means. -/
def parts (p : FilePath) : List Part :=
  match p.pieces with
  | [] => []
  | [[]] => []
  | [] :: rest => .root :: innerParts rest
  | ['.'] :: rest => .here :: innerParts rest
  | first :: rest => part first :: innerParts rest

/-- The paths have the same parts. -/
def same (p q : FilePath) : Bool := p.parts == q.parts

/-- The path starts at the root. -/
def isAbsolute (p : FilePath) : Bool := p.text.toList.head? == some '/'

/-! ## Taking apart and putting together -/

/-- Drop idle pieces at the end. -/
def dropIdleEnd (pieces : List (List Char)) : List (List Char) :=
  (pieces.reverse.dropWhile isIdle).reverse

/-- The pieces with slashes between them. -/
def ofPieces (pieces : List (List Char)) : FilePath :=
  ⟨String.ofList (List.intercalate ['/'] pieces)⟩

/-- The path without its last part, as it is written; none at the root and for an empty path. -/
def parent? (p : FilePath) : Option FilePath :=
  match p.pieces with
  | [] => none
  | first :: rest =>
    match (dropIdleEnd rest).reverse with
    | [] => if first.isEmpty then none else some ⟨""⟩
    | _ :: before =>
      match first, dropIdleEnd before.reverse with
      | [], [] => some ⟨"/"⟩
      | first, kept => some (ofPieces (first :: kept))

/-- The path without its last part; empty if there is nothing before it. -/
def parent (p : FilePath) : FilePath := p.parent?.getD ⟨""⟩

/-- The last part if it is a name. -/
def fileName? (p : FilePath) : Option String :=
  match p.parts.getLast? with
  | some (.name s) => some s
  | _ => none

/-- A name cut at its last dot, which is not its first character. -/
def cutName (name : String) : List Char × Option (List Char) :=
  let s := name.toList
  let ending := (s.reverse.takeWhile (· != '.')).reverse
  let stem := s.take (s.length - ending.length - 1)
  if !s.contains '.' || stem.isEmpty then (s, none) else (stem, some ending)

/-- The file name without its ending. -/
def stem? (p : FilePath) : Option String :=
  p.fileName?.map fun name => String.ofList (cutName name).1

/-- The ending of the file name, behind its last dot. -/
def ending? (p : FilePath) : Option String :=
  p.fileName?.bind fun name => (cutName name).2.map String.ofList

/-- The path `rest` as seen from `base`. -/
def join (base rest : FilePath) : FilePath :=
  if rest.isAbsolute then rest
  else
    match base.text.toList.getLast? with
    | none => rest
    | some '/' => ⟨base.text ++ rest.text⟩
    | some _ => ⟨base.text ++ "/" ++ rest.text⟩

/-! ## Normal form -/

/-- One part further, the names so far nearest first. -/
def climb (names : List String) : Part → List String
  | .root => []
  | .here => names
  | .up => names.tail
  | .name s => s :: names

/-- The names from the root to an absolute path. -/
def names (p : FilePath) : List String := (p.parts.foldl climb []).reverse

/-- The absolute path with the given names. -/
def ofNames (names : List String) : FilePath := ⟨"/" ++ String.intercalate "/" names⟩

/-- The path as seen from a working directory. -/
def absolute (directory p : FilePath) : FilePath := directory.join p

/-- The normal form of a path as seen from a working directory. -/
def normalize (directory p : FilePath) : FilePath := ofNames (absolute directory p).names

/-! ## Order -/

/-- Names come after two dots, these after a dot, and the root comes first. -/
def Part.rank : Part → Nat
  | .root => 0
  | .here => 1
  | .up => 2
  | .name _ => 3

/-- One part stands strictly before another; names by their code points. -/
def Part.before : Part → Part → Bool
  | .name a, .name b => decide (a < b)
  | a, b => decide (a.rank < b.rank)

/-- One list of parts does not stand after another. -/
def partsUpTo : List Part → List Part → Bool
  | [], _ => true
  | _ :: _, [] => false
  | a :: as, b :: bs => a.before b || (a == b && partsUpTo as bs)

/-- Paths in order, part by part. -/
def sorted (paths : List FilePath) : List FilePath :=
  paths.mergeSort fun p q => partsUpTo p.parts q.parts

/-! ## Patterns as paths -/

/-- The text of a part. -/
def Part.text : Part → String
  | .root => "/"
  | .here => "."
  | .up => ".."
  | .name s => s

/-- The characters that make a pattern of a path. -/
def isWildcard (c : Char) : Bool := c == '*' || c == '?' || c == '['

/-- The text has a wildcard. -/
def hasWildcard (text : String) : Bool := text.toList.any isWildcard

/-- The directory a pattern starts from: the parts before the first one with a wildcard, or the
directory of a path without one. -/
def patternBase (pattern : FilePath) : FilePath :=
  let texts := pattern.parts.map Part.text
  let lead := texts.takeWhile fun t => !hasWildcard t
  let base := lead.foldl (fun base t => join base ⟨t⟩) ⟨""⟩
  if lead.length < texts.length then base else base.parent

end FilePath

end LayeredConfig
