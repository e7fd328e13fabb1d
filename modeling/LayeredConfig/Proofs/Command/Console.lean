import LayeredConfig.Command.Run
import LayeredConfig.Proofs.Contract

/-!
# Commands on a console

A command runs on a console that itself runs in a world. What it asks of its host is put to the
world, so a computation of the library does on the console what it does in the world alone
(`raised_entries`, `raised_remove`), and nothing to the console (`played_orFail`, `played_run`).
-/

namespace LayeredConfig

variable {α β : Type}

/-! ## Hosts on top of hosts -/

section Raised

variable {m n : Type → Type} [Monad m] [Monad n] [MonadLift m n]

/-- A computation that may fail, on top of its host. -/
def raised (x : ExceptT Error m α) : ExceptT Error n α := ExceptT.mk (liftM x.run)

variable [LawfulMonadLift m n]

theorem raised_pure (a : α) : raised (pure a : ExceptT Error m α) = (pure a : ExceptT Error n α) :=
  liftM_pure (m := m) (n := n) (Except.ok a)

theorem raised_throw (e : Error) :
    raised (throw e : ExceptT Error m α) = (throw e : ExceptT Error n α) :=
  liftM_pure (m := m) (n := n) (Except.error e)

theorem raised_bind (x : ExceptT Error m α) (f : α → ExceptT Error m β) :
    raised (x >>= f) = (raised x >>= fun a => raised (f a) : ExceptT Error n β) := by
  refine ExceptT.ext ?_
  rw [ExceptT.run_bind]
  change (liftM (x >>= f).run : n (Except Error β)) = liftM x.run >>= _
  rw [ExceptT.run_bind, liftM_bind]
  refine bind_congr fun r => ?_
  cases r with
  | ok a => rfl
  | error e => exact liftM_pure (m := m) (n := n) (Except.error e)

variable [LawfulMonad m] [LawfulMonad n]

theorem raised_liftM (x : m α) :
    raised (liftM x : ExceptT Error m α) = (liftM (liftM x : n α) : ExceptT Error n α) := by
  refine ExceptT.ext ?_
  change (liftM (Except.ok <$> x) : n (Except Error α)) = Except.ok <$> liftM x
  exact liftM_map (m := m) (n := n) Except.ok x

variable [Host m]

theorem raised_status (p : FilePath) :
    raised (Host.status p : ExceptT Error m _) = (Host.status p : ExceptT Error n _) :=
  raised_liftM (n := n) (Host.status p : m _)

theorem raised_read (p : FilePath) :
    raised (Host.read p : ExceptT Error m _) = (Host.read p : ExceptT Error n _) :=
  raised_liftM (n := n) (Host.read p : m _)

theorem raised_list (p : FilePath) :
    raised (Host.list p : ExceptT Error m _) = (Host.list p : ExceptT Error n _) :=
  raised_liftM (n := n) (Host.list p : m _)

theorem raised_removeFile (p : FilePath) :
    raised (Host.removeFile p : ExceptT Error m _) = (Host.removeFile p : ExceptT Error n _) :=
  raised_liftM (n := n) (Host.removeFile p : m _)

theorem raised_isDirectory (p : FilePath) :
    raised (Host.isDirectory p : ExceptT Error m _) = (Host.isDirectory p : ExceptT Error n _) := by
  simp only [Host.isDirectory, raised_bind, raised_pure, raised_status]

theorem raised_isPresent (p : FilePath) :
    raised (Host.isPresent p : ExceptT Error m _) = (Host.isPresent p : ExceptT Error n _) := by
  simp only [Host.isPresent, raised_bind, raised_pure, raised_status]

theorem raised_readText (p : FilePath) :
    raised (Host.readText p : ExceptT Error m _) = (Host.readText p : ExceptT Error n _) := by
  rw [Host.readText, Host.readText, raised_bind, raised_read]
  refine bind_congr fun r => ?_
  cases r with
  | error fault => exact raised_pure _
  | ok bytes =>
    dsimp only
    cases String.fromUTF8? bytes with
    | none => exact raised_pure _
    | some text => exact raised_pure _

theorem raised_readEntry (file : FilePath) :
    raised (Store.readEntry file : ExceptT Error m _) =
      (Store.readEntry file : ExceptT Error n _) := by
  rw [Store.readEntry, Store.readEntry, raised_bind, raised_readText]
  refine bind_congr fun r => ?_
  cases r with
  | error fault => exact raised_pure _
  | ok text =>
    dsimp only
    cases Yaml.decode Envelope.decoder text with
    | error fault => exact raised_pure _
    | ok e => exact raised_pure _

theorem raised_refusal (file : FilePath) :
    raised (Store.refusal file : ExceptT Error m _) =
      (Store.refusal file : ExceptT Error n _) := by
  rw [Store.refusal, Store.refusal, raised_bind, raised_read]
  refine bind_congr fun r => ?_
  cases r with
  | error fault => exact raised_pure _
  | ok bytes => exact raised_pure _

theorem raised_inspect (file : FilePath) :
    raised (Store.inspect file : ExceptT Error m _) = (Store.inspect file : ExceptT Error n _) := by
  rw [Store.inspect, Store.inspect]
  cases Store.keyOf? file with
  | none => exact raised_pure _
  | some key =>
    dsimp only
    rw [raised_bind, raised_status]
    refine bind_congr fun status => ?_
    cases status with
    | none => simp only [raised_bind, raised_refusal, raised_throw]
    | some status => simp only [raised_bind, raised_readEntry, raised_pure]

theorem raised_inspectAll (files : List FilePath) :
    raised (Store.inspectAll files : ExceptT Error m _) =
      (Store.inspectAll files : ExceptT Error n _) := by
  induction files with
  | nil => exact raised_pure _
  | cons file rest ih =>
    rw [Store.inspectAll, Store.inspectAll, raised_bind, raised_inspect]
    refine bind_congr fun info => ?_
    cases info with
    | none => exact ih
    | some info => simp only [raised_bind, ih, raised_pure]

theorem raised_entries (s : Store) :
    raised (s.entries : ExceptT Error m _) = (s.entries : ExceptT Error n _) := by
  rw [Store.entries, Store.entries, raised_bind, raised_isDirectory]
  refine bind_congr fun there => ?_
  cases there with
  | false => exact raised_pure _
  | true =>
    simp only [Bool.not_true, Bool.false_eq_true, if_false]
    rw [raised_bind, raised_list]
    refine bind_congr fun names => ?_
    cases names with
    | error fault => exact raised_pure _
    | ok names => simp only [raised_bind, raised_inspectAll, raised_pure]

theorem raised_remove (s : Store) (key : String) :
    raised (s.remove key : ExceptT Error m _) = (s.remove key : ExceptT Error n _) := by
  rw [Store.remove, Store.remove, raised_bind, raised_isPresent]
  refine bind_congr fun there => ?_
  cases there with
  | false => exact raised_pure _
  | true =>
    simp only [Bool.not_true, Bool.false_eq_true, if_false]
    rw [raised_bind, raised_removeFile]
    refine bind_congr fun r => ?_
    cases r with
    | ok u => exact raised_pure _
    | error fault => exact raised_throw _

end Raised

/-! ## Running commands -/

/-- How a command ends on a console in a world, and the console and the world it leaves. -/
def played (x : ExceptT Failure (StateT Console InWorld) α) (console : Console) (w : World) :
    Except Failure α × Console × World :=
  (((x.run.run console).run w).1.1, ((x.run.run console).run w).1.2, ((x.run.run console).run w).2)

section Played

variable {x : ExceptT Failure (StateT Console InWorld) α} {console console' : Console}
  {w w' : World}

theorem played_pure (a : α) (console : Console) (w : World) :
    played (pure a) console w = (.ok a, console, w) := rfl

theorem played_throw (failure : Failure) (console : Console) (w : World) :
    played (throw failure : ExceptT Failure (StateT Console InWorld) α) console w =
      (.error failure, console, w) := rfl

theorem played_bind (x : ExceptT Failure (StateT Console InWorld) α)
    (f : α → ExceptT Failure (StateT Console InWorld) β) (console : Console) (w : World) :
    played (x >>= f) console w =
      match played x console w with
      | (.ok a, console', w') => played (f a) console' w'
      | (.error failure, console', w') => (.error failure, console', w') := by
  unfold played
  rw [ExceptT.run_bind, StateT.run_bind, StateT.run_bind]
  rcases (x.run.run console).run w with ⟨⟨_ | _, _⟩, _⟩
  · rfl
  · rfl

theorem played_bind_of_ok {a : α} (h : played x console w = (.ok a, console', w'))
    (f : α → ExceptT Failure (StateT Console InWorld) β) :
    played (x >>= f) console w = played (f a) console' w' := by
  rw [played_bind, h]

theorem played_bind_of_error {failure : Failure}
    (h : played x console w = (.error failure, console', w'))
    (f : α → ExceptT Failure (StateT Console InWorld) β) :
    played (x >>= f) console w = (.error failure, console', w') := by
  rw [played_bind, h]

/-- The console after something has been printed. -/
def Console.after (c : Console) (text : String) : Console := { c with printed := c.printed ++ text }

/-- What is printed does not change what is answered. -/
theorem Console.takeLine_after (c : Console) (text : String) :
    (c.after text).takeLine.1 = c.takeLine.1 := rfl

theorem played_print (text : String) (console : Console) (w : World) :
    played (Terminal.print text) console w = (.ok (), console.after text, w) := rfl

theorem played_ask (console : Console) (w : World) :
    played Terminal.ask console w = (.ok console.takeLine.1, console.takeLine.2, w) := rfl

theorem played_now (console : Console) (w : World) :
    played Host.now console w = (.ok w.now, console, w) := rfl

theorem played_orFail (failure : Error → Failure) (x : ExceptT Error InWorld α) (console : Console)
    (w : World) : played (orFail failure (raised x)) console w =
      ((outcome x w).1.mapError failure, console, (outcome x w).2) := by
  have hrun : played (liftM (raised x : ExceptT Error (StateT Console InWorld) α).run) console w =
      (.ok (outcome x w).1, console, (outcome x w).2) := rfl
  rw [orFail, played_bind_of_ok hrun]
  cases (outcome x w).1 with
  | error e => rfl
  | ok a => rfl

/-- A computation that is run for how it ends does not fail on the console. -/
theorem played_run (x : ExceptT Error InWorld α) (console : Console) (w : World) :
    played (raised (raised x : ExceptT Error (StateT Console InWorld) α)).run console w =
      (.ok (outcome x w).1, console, (outcome x w).2) := rfl

end Played

end LayeredConfig
