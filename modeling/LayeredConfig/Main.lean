import LayeredConfig.Command.Run
import LayeredConfig.Document
import Std.Time.DateTime.Timestamp

/-!
# The program

The machine the program runs on as a `Host` and `Terminal`, and its `main`. Version control is not
asked.
-/

namespace LayeredConfig.Program

/-- Why the system refuses something. -/
def faultOf (e : IO.Error) : SystemFault :=
  match e with
  | .noFileOrDirectory .. => .missing
  | .alreadyExists .. => .exists
  | .inappropriateType .. => .notDirectory
  | .unsatisfiedConstraints .. => .notEmpty
  | e => .other (toString e)

/-- The outcome of an action. -/
def attempt {α : Type} (act : IO α) : IO (Except SystemFault α) := do
  try return .ok (← act)
  catch e => return .error (faultOf e)

/-- The digits of some bytes. -/
def hexText (bytes : ByteArray) : String :=
  String.ofList (bytes.toList.flatMap fun b =>
    [Nat.digitChar (b.toNat / 16), Nat.digitChar (b.toNat % 16)])

/-- What is known of a file or directory from outside. -/
def statusOf (data : IO.FS.Metadata) : Status :=
  { isDirectory := match data.type with
      | .dir => true
      | _ => false
    modified := Instant.ofSeconds data.modified.sec data.modified.nsec.toNat
    size := data.byteSize.toNat }

/-- A computation on the machine. It is told whether warnings are to be shown. -/
abbrev OnMachine := ReaderT Bool IO

/-- The machine answers and does what a load asks. Warnings go to the error output. -/
instance : Host OnMachine where
  directory := do return ⟨toString (← IO.currentDir)⟩
  program := do return some ⟨toString (← IO.appPath)⟩
  token := do return hexText (← IO.getRandomBytes 8)
  fileBound := return twoPow 20
  status p := do
    let here ← IO.currentDir
    match ← attempt (here / p.text).metadata with
    | .ok data => return some (statusOf data)
    | .error _ => return none
  read p := attempt (IO.FS.readBinFile p.text)
  list p := do
    let here ← IO.currentDir
    attempt do return ((← (here / p.text).readDir).map (·.fileName)).toList
  write p bytes := attempt (IO.FS.writeBinFile p.text bytes)
  makeDirectory p := attempt (IO.FS.createDir p.text)
  rename source target := attempt (IO.FS.rename source.text target.text)
  removeFile p := attempt (IO.FS.removeFile p.text)
  document p := do
    match ← attempt (IO.FS.readBinFile p.text) with
    | .error _ => return none
    | .ok bytes => return (String.fromUTF8? bytes).bind fun text => (Document.read text).toOption
  git _ _ := return none
  gitMemo := return GitMemo.empty
  keepGitMemo _ := return ()
  now := do
    let t := (← Std.Time.Timestamp.now).toNanosecondsSinceUnixEpoch
    return ⟨t.toInt⟩
  warn text := do if ← read then IO.eprintln ("[WARN] " ++ text)

/-- Commands print to the output and ask the input. -/
instance : Terminal OnMachine where
  print text := do
    let out ← IO.getStdout
    out.putStr text
    out.flush
  complain text := IO.eprintln text
  ask := do (← IO.getStdin).getLine

/-- The variables that settings are taken from. -/
def variableNames : List String :=
  [Environment.cacheName, Environment.noCacheName, Environment.includeName,
    Environment.packageName, "XDG_CACHE_HOME", "HOME"]

/-- The variables that are set. -/
def environment : IO Environment := do
  let found ← variableNames.mapM fun name => do
    return (← IO.getEnv name).map fun value => (name, value)
  return found.filterMap id

/-- How the program is used. -/
def usage : String :=
  "Usage: " ++ programName ++ " [OPTIONS] <"
    ++ String.intercalate "|" (Command.grammar.commands.map Prod.fst) ++ "> [ARGUMENTS]\n"

end LayeredConfig.Program

open LayeredConfig in
/-- Read a command from the arguments and do what it says. The result is 1 if the command fails, and
2 if there is none. -/
def main (arguments : List String) : IO UInt32 := do
  let env ← Program.environment
  match Invocation.read env arguments with
  | .error .version =>
    IO.println engineName
    return 0
  | .error fault =>
    if fault.isRequest then
      IO.print Program.usage
      return 0
    IO.eprint ("error: " ++ fault.message ++ "\n\n" ++ Program.usage)
    return 2
  | .ok invocation =>
    let act : ExceptT Failure Program.OnMachine Unit := invocation.command.run env
    match ← act.run.run (!invocation.isQuiet) with
    | .ok () => return 0
    | .error failure =>
      IO.eprintln ("Error: " ++ String.intercalate "\n  caused by: " failure.chain)
      return 1
