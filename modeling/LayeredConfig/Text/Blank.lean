/-!
# White space

The characters with the Unicode property White_Space, and the trimming that follows from it.
-/

namespace LayeredConfig.Text

/-- The character has the Unicode property White_Space. -/
def isBlank (c : Char) : Bool :=
  let n := c.toNat
  (9 ≤ n && n ≤ 13) || n == 0x20 || n == 0x85 || n == 0xA0 || n == 0x1680
    || (0x2000 ≤ n && n ≤ 0x200A) || n == 0x2028 || n == 0x2029 || n == 0x202F || n == 0x205F
    || n == 0x3000

/-- Drop white space at the start. -/
def trimStart (s : List Char) : List Char := s.dropWhile isBlank

/-- Drop white space at the end. -/
def trimEnd (s : List Char) : List Char := (s.reverse.dropWhile isBlank).reverse

/-- Drop white space at both ends. -/
def trimBoth (s : List Char) : List Char := trimEnd (trimStart s)

/-- The text without white space at either end. -/
def trimmed (s : String) : String := String.ofList (trimBoth s.toList)

/-- The text without white space at its end. -/
def trimmedEnd (s : String) : String := String.ofList (trimEnd s.toList)

/-- Split at every character that satisfies `p`; always at least one piece. -/
def splitAt (p : Char → Bool) : List Char → List (List Char)
  | [] => [[]]
  | c :: rest =>
    if p c then [] :: splitAt p rest
    else
      match splitAt p rest with
      | [] => [[c]]
      | piece :: pieces => (c :: piece) :: pieces

/-- The words between white space, none of them empty. -/
def words (s : List Char) : List (List Char) :=
  (splitAt isBlank s).filter (!·.isEmpty)

/-- The lines of a text: ended by a line feed, which a carriage return may precede. A last line
that is empty does not count. -/
def lines (s : List Char) : List (List Char) :=
  let pieces := splitAt (· == '\n') s
  let whole := match pieces.reverse with
    | [] :: rest => rest.reverse
    | _ => pieces
  whole.map fun l => match l.reverse with
    | '\r' :: rest => rest.reverse
    | _ => l

end LayeredConfig.Text
