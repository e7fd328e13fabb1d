import LayeredConfig.Error
import LayeredConfig.Host
import LayeredConfig.Ledger.Text

/-!
# Ledgers in files

Saving a ledger, with the directories its file lies in, and reading it back.
-/

namespace LayeredConfig.Ledger

variable {m : Type → Type} [Monad m] [Host m]

/-- Write a ledger to a file. -/
def save (l : Ledger) (file : FilePath) : ExceptT Error m Unit := do
  match file.parent? with
  | some dir => if !dir.text.isEmpty then orSystem (← Host.makeDirectories dir)
  | none => pure ()
  match l.text with
  | .error obstacle => throw (.unwritable obstacle)
  | .ok text => orSystem (← Host.write file text.toUTF8)
where
  /-- A refusal of the file system is an error. -/
  orSystem (r : Except SystemFault Unit) : ExceptT Error m Unit :=
    match r with
    | .ok () => pure ()
    | .error fault => throw (.system fault)

/-- Read a ledger from a file. -/
def load (file : FilePath) : ExceptT Error m Ledger := do
  match ← Host.readText file with
  | .error fault => throw (.system fault)
  | .ok text =>
    match ofText text with
    | .ok l => return l
    | .error fault => throw (.record fault)

end LayeredConfig.Ledger
