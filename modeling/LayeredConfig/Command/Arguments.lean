import LayeredConfig.Settings

/-!
# Arguments

A `Grammar` says what a command takes: options, and either values of its own or the name of another
command. `Grammar.read` takes arguments from left to right and gives the values of all parameters.

An option is `--name`, or `-x` if it has a short form; its value follows it, or is attached to it as
in `--name=value`, `-xvalue` and `-x=value`. After `--` come values only. What an option or value
that is not attached stands for is settled when the next one is met, so that of two faults an
argument that is unknown is told first.
-/

namespace LayeredConfig.Arguments

/-- Why arguments are not followed. -/
inductive Fault where
  /-- Help was asked for. -/
  | help
  /-- The version was asked for. -/
  | version
  /-- Nothing was given where a command is needed. -/
  | nothing
  | noCommand
  | unknownCommand (name : String)
  | unknownArgument (text : String)
  /-- A value is missing or empty. -/
  | noValue (name : String)
  /-- The value is none of those there are. -/
  | badChoice (name value : String)
  /-- The value cannot be read. -/
  | badValue (name value : String)
  /-- The option takes no value. -/
  | unwantedValue (name value : String)
  | repeated (name : String)
  /-- Two options that exclude one another. -/
  | conflict (name other : String)
  /-- A parameter that has to be given. -/
  | missing (name : String)
deriving DecidableEq, Repr

/-- Something was asked for, and nothing is wrong. -/
def Fault.isRequest : Fault → Bool
  | .help => true
  | .version => true
  | _ => false

/-- What is said about arguments that are not followed. -/
def Fault.message : Fault → String
  | .help => "help requested"
  | .version => "version requested"
  | .nothing => "a command is required"
  | .noCommand => "a command is required"
  | .unknownCommand name => "unrecognized command '" ++ name ++ "'"
  | .unknownArgument text => "unexpected argument '" ++ text ++ "' found"
  | .noValue name => "a value is required for '" ++ name ++ "'"
  | .badChoice name value => "invalid value '" ++ value ++ "' for '" ++ name ++ "'"
  | .badValue name value => "invalid value '" ++ value ++ "' for '" ++ name ++ "'"
  | .unwantedValue name value => "unexpected value '" ++ value ++ "' for '" ++ name ++ "'"
  | .repeated name => "'" ++ name ++ "' cannot be used multiple times"
  | .conflict name other => "'" ++ name ++ "' cannot be used with '" ++ other ++ "'"
  | .missing name => "'" ++ name ++ "' is required"

/-- What the values of a parameter are. -/
inductive Kind where
  | text
  /-- A path, which is not empty. -/
  | path
  | choice (words : List String)
  /-- What a test accepts. -/
  | checked (accepts : String → Bool)

/-- How a parameter is given. -/
inductive Use where
  /-- Without a value, once. -/
  | flag
  /-- With a value, once. -/
  | once (kind : Kind)
  /-- With a value, any number of times. -/
  | often (kind : Kind)
  /-- Without a value; nothing more is read. -/
  | stop (fault : Fault)

/-- An option or a value of a command. -/
structure Parameter where
  name : String
  short : Option Char
  use : Use
  /-- The environment variable that stands in for the parameter if it is not given. -/
  standIn : Option String
  /-- The parameter that cannot be given as well. -/
  excludes : Option String
  /-- The parameter that has to be given as well. -/
  needs : Option String

namespace Parameter

/-- An option or a value of a command without further conditions. -/
def plain (name : String) (use : Use) : Parameter := ⟨name, none, use, none, none, none⟩

/-- The parameter takes values. -/
def takesValue (p : Parameter) : Bool :=
  match p.use with
  | .once _ => true
  | .often _ => true
  | _ => false

end Parameter

/-- What a command takes. -/
inductive Grammar where
  /-- Options, and values that have to be given if there is a parameter for them. -/
  | leaf (options : List Parameter) (slot : Option Parameter)
  /-- Options and the name of another command. -/
  | group (options : List Parameter) (commands : List (String × Grammar))

/-- What was given: the names of commands, outermost first, and the values of parameters. Flags
have an empty value. -/
structure Reading where
  commands : List String
  values : List (String × String)
deriving DecidableEq, Repr

namespace Reading

/-- The parameter was given. -/
def has (r : Reading) (name : String) : Bool := r.values.any (·.1 == name)

/-- All values of a parameter. -/
def all (r : Reading) (name : String) : List String :=
  (r.values.filter (·.1 == name)).map Prod.snd

/-- The value of a parameter, the one of the innermost command. -/
def last? (r : Reading) (name : String) : Option String := (r.all name).getLast?

end Reading

/-! ## Values -/

/-- Accept a value of a kind for the parameter of a name. -/
def Kind.check (name value : String) : Kind → Except Fault Unit
  | .text => .ok ()
  | .path => if value.isEmpty then .error (.noValue name) else .ok ()
  | .choice words => if words.contains value then .ok () else .error (.badChoice name value)
  | .checked accepts => if accepts value then .ok () else .error (.badValue name value)

/-- Accept values of a kind one by one. -/
def Kind.checkAll (name : String) (kind : Kind) : List String → Except Fault Unit
  | [] => .ok ()
  | value :: rest =>
    match kind.check name value with
    | .ok () => kind.checkAll name rest
    | .error fault => .error fault

/-- How far the arguments of a command are read. -/
structure Progress where
  /-- Values that are settled. -/
  values : List (String × String)
  /-- The parameter met last, with the values it has so far. -/
  pending : Option (Parameter × List String)
  /-- The parameter met last is an option that waits for its value. -/
  waiting : Bool
  /-- Only values can follow. -/
  onlyValues : Bool

namespace Progress

/-- Nothing read. -/
def start : Progress := ⟨[], none, false, false⟩

/-- The parameter is settled. -/
def has (s : Progress) (name : String) : Bool := s.values.any (·.1 == name)

/-- Settle values for a parameter. -/
def accept (s : Progress) (p : Parameter) (values : List String) : Except Fault Progress :=
  let taken : Progress := { s with values := s.values ++ values.map fun v => (p.name, v) }
  match p.use with
  | .stop fault => .error fault
  | .flag =>
    if s.has p.name then .error (.repeated p.name)
    else .ok { s with values := s.values ++ [(p.name, "")] }
  | .once kind =>
    if values.isEmpty then .error (.noValue p.name)
    else if s.has p.name then .error (.repeated p.name)
    else (kind.checkAll p.name values).map fun () => taken
  | .often kind =>
    if values.isEmpty then .error (.noValue p.name)
    else (kind.checkAll p.name values).map fun () => taken

/-- Settle the parameter met last. -/
def settle (s : Progress) : Except Fault Progress :=
  match s.pending with
  | none => .ok { s with waiting := false }
  | some (p, values) => { s with pending := none, waiting := false }.accept p values

/-- Meet an option, perhaps with a value attached to it. -/
def meet (s : Progress) (p : Parameter) (attached : Option String) : Except Fault Progress :=
  if p.takesValue then
    match attached with
    | some value => do (← s.settle).accept p [value]
    | none => do return { (← s.settle) with pending := some (p, []), waiting := true }
  else
    match attached with
    | some value => .error (.unwantedValue p.name value)
    | none => do (← s.settle).accept p []

/-- Give a value to the option that waits for it. -/
def supply (s : Progress) (value : String) : Progress :=
  { s with
    pending := s.pending.map fun (p, values) => (p, values ++ [value])
    waiting := false }

end Progress

namespace Grammar

/-- The options of a command. -/
def options : Grammar → List Parameter
  | .leaf options _ => options
  | .group options _ => options

/-- The commands there are below a command. -/
def commands : Grammar → List (String × Grammar)
  | .leaf _ _ => []
  | .group _ commands => commands

/-- The name of the command that explains the others. -/
def helpName : String := "help"

/-- The name is one of a command below this one. -/
def isCommand (g : Grammar) (name : String) : Bool :=
  match g with
  | .leaf _ _ => false
  | .group _ commands => name == helpName || commands.any (·.1 == name)

/-- What is told when help is asked for on a command, given by names one below the other. -/
def helpOn : Grammar → List String → Fault
  | _, [] => .help
  | g, name :: rest =>
    match g.commands.find? (·.1 == name) with
    | some (_, below) => helpOn below rest
    | none =>
      match g.isCommand name, rest with
      | true, [] => .help
      | true, next :: _ => .unknownCommand next
      | false, _ => .unknownCommand name

/-! ## Single arguments -/

/-- Meet options in their short forms, all in one argument. -/
def meetShort (g : Grammar) (s : Progress) : List Char → Except Fault Progress
  | [] => .ok s
  | c :: rest =>
    match g.options.find? (·.short == some c) with
    | none => .error (.unknownArgument (String.ofList ['-', c]))
    | some p =>
      if p.takesValue then
        match rest with
        | [] => s.meet p none
        | '=' :: value => s.meet p (some (String.ofList value))
        | value => s.meet p (some (String.ofList value))
      else
        match s.meet p none with
        | .ok s => meetShort g s rest
        | .error fault => .error fault

/-- Meet an option by its name. -/
def meetLong (g : Grammar) (s : Progress) (text : List Char) : Except Fault Progress :=
  let name := String.ofList (text.takeWhile (· != '='))
  let attached :=
    match text.dropWhile (· != '=') with
    | [] => none
    | _ :: value => some (String.ofList value)
  match g.options.find? (·.name == name) with
  | some p => s.meet p attached
  | none => .error (.unknownArgument ("--" ++ name))

/-- Take an argument as a value of the command. -/
def takeValue (g : Grammar) (s : Progress) (text : String) : Except Fault Progress :=
  match g with
  | .group _ _ =>
    if g.isCommand text then .error (.unknownArgument text) else .error (.unknownCommand text)
  | .leaf _ none => .error (.unknownArgument text)
  | .leaf _ (some slot) =>
    let isHere := s.pending.any fun (p, _) => p.name == slot.name
    match slot.use with
    | .often _ =>
      if isHere then .ok (s.supply text)
      else do return { (← s.settle) with pending := some (slot, [text]) }
    | _ =>
      if isHere || s.has slot.name then .error (.unknownArgument text)
      else do return { (← s.settle) with pending := some (slot, [text]) }

/-- Read one argument that is not the name of a command. -/
def readOne (g : Grammar) (s : Progress) (text : String) : Except Fault Progress :=
  if s.onlyValues then g.takeValue s text
  else
    match text.toList with
    | ['-', '-'] => .ok { s with onlyValues := true }
    | '-' :: '-' :: rest => g.meetLong s rest
    | ['-'] => if s.waiting then .ok (s.supply text) else g.takeValue s text
    | '-' :: rest => g.meetShort s rest
    | _ => if s.waiting then .ok (s.supply text) else g.takeValue s text

/-! ## All arguments -/

/-- Take environment variables for parameters that are not given. -/
def addVariables (env : Environment) : List Parameter → Progress → Except Fault Progress
  | [], s => .ok s
  | p :: rest, s =>
    match p.standIn.bind env.get? with
    | none => addVariables env rest s
    | some value =>
      if s.has p.name then addVariables env rest s
      else
        match s.accept p [value] with
        | .ok s => addVariables env rest s
        | .error fault => .error fault

/-- Options that exclude one another are given. -/
def conflict? (g : Grammar) (s : Progress) : Option Fault :=
  (g.options.filter fun p => s.has p.name).findSome? fun p =>
    (p.excludes.filter s.has).map fun other => .conflict p.name other

/-- A parameter is not given although it has to be. -/
def missing? (g : Grammar) (s : Progress) : Option Fault :=
  let unfilled : Option String := match g with
    | .leaf _ slot => (slot.map Parameter.name).filter fun name => !s.has name
    | .group _ _ => none
  let needed := (g.options.filter fun p => s.has p.name).findSome? fun p =>
    p.needs.filter fun other => !s.has other
  (unfilled.or needed).map .missing

/-- End the reading of a command. What was read of a command below it is given. -/
def finish (g : Grammar) (env : Environment) (s : Progress) (below : Option (String × Reading)) :
    Except Fault Reading := do
  let s ← addVariables env g.options (← s.settle)
  match g, below with
  | .group _ _, none => throw (if s.values.isEmpty then .nothing else .noCommand)
  | _, _ => pure ()
  match (g.conflict? s).or (g.missing? s) with
  | some fault => throw fault
  | none =>
    match below with
    | none => return ⟨[], s.values⟩
    | some (name, r) => return ⟨name :: r.commands, s.values ++ r.values⟩

/-- Read the rest of the arguments of a command. -/
def readFrom (env : Environment) (g : Grammar) (s : Progress) :
    List String → Except Fault Reading
  | [] => g.finish env s none
  | text :: rest => do
    if !s.onlyValues && !s.waiting && g.isCommand text then
      match g.commands.find? (·.1 == text) with
      | none => throw (g.helpOn rest)
      | some (name, below) =>
        let r ← readFrom env below Progress.start rest
        g.finish env s (some (name, r))
    else readFrom env g (← g.readOne s text) rest

/-- Read the arguments of a command. -/
def read (g : Grammar) (env : Environment) (arguments : List String) : Except Fault Reading :=
  readFrom env g Progress.start arguments

end Grammar

end LayeredConfig.Arguments
