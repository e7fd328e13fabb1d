import LayeredConfig.Resolve
import LayeredConfig.World

/-!
# Contracts of computations in a world

A contract says what holds of the result of a computation and of the world it leaves, provided that
it has a result. `Fulfils` is about computations that may fail, `Steps` about steps of a resolution,
whose sources are part of what the contract is about.

`K` is a property of worlds that the computations keep, `S` one of the files whose documents they
read. Which files are read is known only when a run is over, so a contract may assume `S` of them
but must tell what was read without it. For the same reason the precondition of a contract is a
proposition of its own rather than a hypothesis.
-/

namespace LayeredConfig

variable {α β : Type}

/-- A result of two steps in a row comes from results of both. -/
theorem except_bind_ok {ε : Type} {x : Except ε α} {f : α → Except ε β} {b : β}
    (h : x >>= f = .ok b) : ∃ a, x = .ok a ∧ f a = .ok b := by
  cases x with
  | error e => cases h
  | ok a => exact ⟨a, rfl, h⟩

/-- How a computation ends that is begun in a world, and the world it leaves. -/
def outcome (x : ExceptT Error InWorld α) (w : World) : Except Error α × World := x.run.run w

theorem outcome_pure (a : α) (w : World) : outcome (pure a) w = (.ok a, w) := rfl

theorem outcome_throw (e : Error) (w : World) :
    outcome (throw e : ExceptT Error InWorld α) w = (.error e, w) := rfl

theorem outcome_lift (x : InWorld α) (w : World) :
    outcome (liftM x : ExceptT Error InWorld α) w = (.ok (x.run w).1, (x.run w).2) := rfl

theorem outcome_bind (x : ExceptT Error InWorld α) (f : α → ExceptT Error InWorld β) (w : World) :
    outcome (x >>= f) w =
      match outcome x w with
      | (.ok a, w') => outcome (f a) w'
      | (.error e, w') => (.error e, w') := by
  simp only [outcome, ExceptT.run_bind, StateT.run_bind]
  change (match (x.run.run w) with | (r, w') => _) = _
  rcases x.run.run w with ⟨_ | _, _⟩ <;> rfl

theorem outcome_bind_of_ok {x : ExceptT Error InWorld α} {w w' : World} {a : α}
    (h : outcome x w = (.ok a, w')) (f : α → ExceptT Error InWorld β) :
    outcome (x >>= f) w = outcome (f a) w' := by
  rw [outcome_bind, h]

theorem outcome_bind_of_error {x : ExceptT Error InWorld α} {w w' : World} {e : Error}
    (h : outcome x w = (.error e, w')) (f : α → ExceptT Error InWorld β) :
    outcome (x >>= f) w = (.error e, w') := by
  rw [outcome_bind, h]

/-- A result of two computations in a row comes from results of both. -/
theorem outcome_bind_ok {x : ExceptT Error InWorld α} {f : α → ExceptT Error InWorld β}
    {w w' : World} {b : β} (h : outcome (x >>= f) w = (.ok b, w')) :
    ∃ a w₁, outcome x w = (.ok a, w₁) ∧ outcome (f a) w₁ = (.ok b, w') := by
  rw [outcome_bind] at h
  rcases hx : outcome x w with ⟨e | a, w₁⟩
  · rw [hx] at h
    cases h
  · rw [hx] at h
    exact ⟨a, w₁, rfl, h⟩

/-- The computation has a result that passes a test, together with the world it leaves. -/
def succeeds (x : ExceptT Error InWorld α) (w : World) (test : α → World → Bool) : Bool :=
  match outcome x w with
  | (.ok a, w') => test a w'
  | (.error _, _) => false

theorem succeeds_iff {x : ExceptT Error InWorld α} {w : World} {test : α → World → Bool} :
    succeeds x w test = true ↔ ∃ a w', outcome x w = (.ok a, w') ∧ test a w' = true := by
  unfold succeeds
  rcases outcome x w with ⟨e | a, w'⟩
  · simp
  · refine ⟨fun h => ⟨a, w', rfl, h⟩, ?_⟩
    rintro ⟨a', w₁, hrun, h⟩
    cases hrun
    exact h

/-- A world in which all is still to come but for some files. -/
def World.holding (nodes : List (Place × Node)) : World where
  nodes := nodes
  directory := ⟨"/"⟩
  program := none
  token := "t"
  directoryTime := ⟨0⟩
  now := ⟨0⟩
  gitAnswers := []
  gitMemo := GitMemo.empty
  warnings := []
  parsed := []

/-! ## Computations that may fail -/

/-- If the computation has a result, `P` holds and all documents read are of files in `S`, then the
result is in `Q` and `K` still holds. -/
def Fulfils (S : FilePath → Prop) (K : World → Prop) (P : Prop) (x : ExceptT Error InWorld α)
    (Q : α → Prop) : Prop :=
  ∀ ⦃w a w'⦄, outcome x w = (.ok a, w') →
    ∃ read, w'.parsed = w.parsed ++ read ∧ (P → (∀ p ∈ read, S p) → K w → Q a ∧ K w')

namespace Fulfils

variable {S : FilePath → Prop} {K : World → Prop} {P P' : Prop} {Q Q' : α → Prop}

theorem pure {a : α} (h : P → Q a) : Fulfils S K P (pure a) Q := by
  intro w b w' hrun
  rw [outcome_pure] at hrun
  cases hrun
  exact ⟨[], by simp, fun hP _ hK => ⟨h hP, hK⟩⟩

theorem throw (e : Error) : Fulfils S K P (throw e) Q := by
  intro w b w' hrun
  rw [outcome_throw] at hrun
  cases hrun

theorem bind {R : β → Prop} {x : ExceptT Error InWorld α} {f : α → ExceptT Error InWorld β}
    (hx : Fulfils S K P x Q) (hf : ∀ a, Fulfils S K (P ∧ Q a) (f a) R) :
    Fulfils S K P (x >>= f) R := by
  intro w b w' hrun
  obtain ⟨a, w₁, h₁, h₂⟩ := outcome_bind_ok hrun
  obtain ⟨read₁, hread₁, hpost₁⟩ := hx h₁
  obtain ⟨read₂, hread₂, hpost₂⟩ := hf a h₂
  refine ⟨read₁ ++ read₂, by rw [hread₂, hread₁, List.append_assoc], fun hP hS hK => ?_⟩
  rw [List.forall_mem_append] at hS
  obtain ⟨ha, hK₁⟩ := hpost₁ hP hS.1 hK
  exact hpost₂ ⟨hP, ha⟩ hS.2 hK₁

theorem mono {x : ExceptT Error InWorld α} (h : Fulfils S K P x Q) (hP : P' → P)
    (hQ : ∀ a, Q a → Q' a) : Fulfils S K P' x Q' := by
  intro w a w' hrun
  obtain ⟨read, hread, hpost⟩ := h hrun
  refine ⟨read, hread, fun hP' hS hK => ?_⟩
  obtain ⟨ha, hK'⟩ := hpost (hP hP') hS hK
  exact ⟨hQ a ha, hK'⟩

/-- The precondition still holds of the result. -/
theorem keep {x : ExceptT Error InWorld α} (h : Fulfils S K P x Q) :
    Fulfils S K P x fun a => P ∧ Q a := by
  intro w a w' hrun
  obtain ⟨read, hread, hpost⟩ := h hrun
  refine ⟨read, hread, fun hP hS hK => ?_⟩
  obtain ⟨ha, hK'⟩ := hpost hP hS hK
  exact ⟨⟨hP, ha⟩, hK'⟩

/-- A computation that reads no document. -/
theorem of_unread {x : ExceptT Error InWorld α}
    (hread : ∀ ⦃w a w'⦄, outcome x w = (.ok a, w') → w'.parsed = w.parsed)
    (h : ∀ ⦃w a w'⦄, outcome x w = (.ok a, w') → P → K w → Q a ∧ K w') :
    Fulfils S K P x Q := by
  intro w a w' hrun
  exact ⟨[], by simp [hread hrun], fun hP _ hK => h hrun hP hK⟩

/-- What a contract says of a run from start to end. -/
theorem post {x : ExceptT Error InWorld α} (h : Fulfils S K P x Q) (hP : P) {w w' : World} {a : α}
    (hrun : outcome x w = (.ok a, w')) (hS : ∀ p ∈ w'.parsed.drop w.parsed.length, S p)
    (hK : K w) : Q a := by
  obtain ⟨read, hread, hpost⟩ := h hrun
  rw [hread, List.drop_left] at hS
  exact (hpost hP hS hK).1

end Fulfils

/-! ## Steps of a resolution -/

/-- A step of a resolution, from any progress whose sources are in `J`: if it has a result, `P`
holds and all documents read are of files in `S`, then the result is in `Q`, the sources are still
in `J` and `K` still holds. -/
def Steps (S : FilePath → Prop) (K : World → Prop) (J : Option (List Tree) → Prop) (P : Prop)
    (x : Resolving InWorld α) (Q : α → Prop) : Prop :=
  ∀ p : Progress, Fulfils S K (P ∧ J p.sources) (x.run p) fun r => Q r.1 ∧ J r.2.sources

/-- The step has the result in some run from sources in `J`. -/
def Gives (J : Option (List Tree) → Prop) (x : Resolving InWorld α) (a : α) : Prop :=
  ∃ p w p' w', J p.sources ∧ outcome (x.run p) w = (.ok (a, p'), w')

namespace Steps

variable {S : FilePath → Prop} {K : World → Prop} {J : Option (List Tree) → Prop} {P P' : Prop}
  {Q Q' : α → Prop}

theorem pure {a : α} (h : P → Q a) : Steps S K J P (pure a) Q :=
  fun _ => Fulfils.pure fun ⟨hP, hJ⟩ => ⟨h hP, hJ⟩

theorem bind {R : β → Prop} {x : Resolving InWorld α} {f : α → Resolving InWorld β}
    (hx : Steps S K J P x Q) (hf : ∀ a, Steps S K J (P ∧ Q a) (f a) R) :
    Steps S K J P (x >>= f) R := fun p =>
  (hx p).bind fun r => (hf r.1 r.2).mono (fun ⟨⟨hP, _⟩, hQ, hJ⟩ => ⟨⟨hP, hQ⟩, hJ⟩) fun _ h => h

theorem mono {x : Resolving InWorld α} (h : Steps S K J P x Q) (hP : P' → P)
    (hQ : ∀ a, Q a → Q' a) : Steps S K J P' x Q' := fun p =>
  (h p).mono (fun ⟨hP', hJ⟩ => ⟨hP hP', hJ⟩) fun _ ⟨hQr, hJ⟩ => ⟨hQ _ hQr, hJ⟩

/-- The precondition still holds of the result. -/
theorem keep {x : Resolving InWorld α} (h : Steps S K J P x Q) :
    Steps S K J P x fun a => P ∧ Q a := fun p =>
  (h p).keep.mono (fun h => h) fun _ ⟨⟨hP, _⟩, hQ, hJ⟩ => ⟨⟨hP, hQ⟩, hJ⟩

/-- A step without a result fulfils everything. -/
theorem fail {s : Scope InWorld} {location : String} {reason : Unresolved} :
    Steps S K J P (s.fail location reason) Q := fun _ => Fulfils.throw _

/-- Nothing follows a failure. -/
theorem fail_bind {s : Scope InWorld} {location : String} {reason : Unresolved}
    {f : β → Resolving InWorld α} : Steps S K J P (s.fail location reason >>= f) Q :=
  fun _ => Fulfils.throw _

theorem orFail {s : Scope InWorld} {location : String} {x : Except Directive.Fault α} :
    Steps S K J P (s.orFail location x) fun a => x = .ok a := by
  cases x with
  | ok a => exact pure fun _ => rfl
  | error fault => exact fail

/-- A load within a resolution does not touch the sources. -/
theorem load {x : ExceptT Error InWorld α} (h : Fulfils S K P x Q) :
    Steps S K J P (liftM x) Q := fun _ =>
  (h.mono (fun h => h.1) fun _ h => h).bind fun _ =>
    Fulfils.pure fun ⟨⟨_, hJ⟩, hQ⟩ => ⟨hQ, hJ⟩

/-- A step that changes nothing but the progress. -/
theorem progress {x : Resolving InWorld α} {f : Progress → α × Progress}
    (h : ∀ p w, outcome (x.run p) w = (.ok (f p), w))
    (hQ : P → ∀ p : Progress, J p.sources → Q (f p).1 ∧ J (f p).2.sources) :
    Steps S K J P x Q := by
  intro p
  refine Fulfils.of_unread (fun w a w' hrun => ?_) fun w a w' hrun ⟨hP, hJ⟩ hK => ?_
  · rw [h] at hrun
    cases hrun
    rfl
  · rw [h] at hrun
    cases hrun
    exact ⟨hQ hP p hJ, hK⟩

/-- What is claimed of a result may be proved from what a run that leads to it tells. -/
theorem of_gives {x : Resolving InWorld α} {R : α → Prop} (hR : ∀ a, Gives J x a → R a)
    (h : Steps S K J P x fun a => R a → Q a) : Steps S K J P x Q := by
  intro p w r w' hrun
  obtain ⟨read, hread, hpost⟩ := h p hrun
  refine ⟨read, hread, fun hP hS hK => ?_⟩
  obtain ⟨⟨hQ, hJ⟩, hK'⟩ := hpost hP hS hK
  exact ⟨⟨hQ (hR _ ⟨p, w, r.2, w', hP.2, hrun⟩), hJ⟩, hK'⟩

/-- What a contract says of one run of a step. -/
theorem post {x : Resolving InWorld α} (h : Steps (fun _ => True) (fun _ => True) J P x Q) (hP : P)
    {p p' : Progress} {w w' : World} {a : α} (hrun : outcome (x.run p) w = (.ok (a, p'), w'))
    (hJ : J p.sources) : Q a ∧ J p'.sources :=
  (h p).post ⟨hP, hJ⟩ hrun (fun _ _ => trivial) trivial

end Steps

/-- A result of two steps in a row comes from results of both. -/
theorem run_bind_ok {x : Resolving InWorld α} {f : α → Resolving InWorld β} {p p' : Progress}
    {w w' : World} {b : β} (h : outcome ((x >>= f).run p) w = (.ok (b, p'), w')) :
    ∃ a p₁ w₁, outcome (x.run p) w = (.ok (a, p₁), w₁) ∧
      outcome ((f a).run p₁) w₁ = (.ok (b, p'), w') := by
  rw [StateT.run_bind] at h
  obtain ⟨⟨a, p₁⟩, w₁, h₁, h₂⟩ := outcome_bind_ok h
  exact ⟨a, p₁, w₁, h₁, h₂⟩

end LayeredConfig
