/-!
# Terminals

Where a command prints, and where it gets an answer when it asks. A `Console` is a terminal in
memory.
-/

namespace LayeredConfig

/-- Where commands print and ask. -/
class Terminal (m : Type → Type) where
  print : String → m Unit
  /-- Tell of a fault on the side. -/
  complain : String → m Unit
  /-- The next line of the input; empty at its end. -/
  ask : m String

/-- What computes on top of a terminal can use it all the same. -/
instance (priority := low) Terminal.lifted {m n : Type → Type} [MonadLift m n] [Terminal m] :
    Terminal n where
  print text := liftM (Terminal.print text : m _)
  complain text := liftM (Terminal.complain text : m _)
  ask := liftM (Terminal.ask : m _)

/-- What has been printed, and the input that has not been read. -/
structure Console where
  printed : String
  complaints : List String
  input : String
deriving DecidableEq, Repr

namespace Console

/-- Nothing printed. -/
def start (input : String) : Console := ⟨"", [], input⟩

/-- Take a line from the input, with the line break that ends it. -/
def takeLine (c : Console) : String × Console :=
  let s := c.input.toList
  let line := s.takeWhile (· != '\n')
  let count := line.length + 1
  (String.ofList (s.take count), { c with input := String.ofList (s.drop count) })

end Console

/-- A console prints and answers. -/
instance {m : Type → Type} [Monad m] : Terminal (StateT Console m) where
  print text := modify fun c => { c with printed := c.printed ++ text }
  complain text := modify fun c => { c with complaints := c.complaints ++ [text] }
  ask := modifyGet Console.takeLine

end LayeredConfig
