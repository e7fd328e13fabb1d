import LayeredConfig.Proofs.PathField.Stripped
import LayeredConfig.Proofs.Search

/-!
# Runs side by side

`Twin K R x y` says of two computations that, begun in the same world with the property `K`, both
fail, or both have results, which `R` relates, and leave the same world. `TwinStep` says the same
of two steps of resolutions, from progress with the same ledger and with sources that `J` relates.
Which error a run ends with does not matter.
-/

namespace LayeredConfig

variable {α α' β β' : Type}

/-- Both computations fail, or both have results that `R` relates and leave the same world. -/
def Twin (K : World → Prop) (R : α → α' → Prop) (x : ExceptT Error InWorld α)
    (y : ExceptT Error InWorld α') : Prop :=
  ∀ ⦃w⦄, K w →
    (∃ a b w', outcome x w = (.ok a, w') ∧ outcome y w = (.ok b, w') ∧ K w' ∧ R a b) ∨
    ∃ e e' w₁ w₂, outcome x w = (.error e, w₁) ∧ outcome y w = (.error e', w₂)

namespace Twin

variable {K : World → Prop} {R R' : α → α' → Prop} {Q : β → β' → Prop}

theorem pure {a : α} {b : α'} (h : R a b) : Twin K R (Pure.pure a) (Pure.pure b) :=
  fun w hw => .inl ⟨a, b, w, rfl, rfl, hw, h⟩

theorem throw (e e' : Error) : Twin K R (throw e) (throw e') :=
  fun w _ => .inr ⟨e, e', w, w, rfl, rfl⟩

theorem mono {x : ExceptT Error InWorld α} {y : ExceptT Error InWorld α'} (h : Twin K R x y)
    (hR : ∀ a b, R a b → R' a b) : Twin K R' x y := by
  intro w hw
  rcases h hw with ⟨a, b, w', hx, hy, hK, hab⟩ | herror
  · exact .inl ⟨a, b, w', hx, hy, hK, hR a b hab⟩
  · exact .inr herror

theorem bind {x : ExceptT Error InWorld α} {y : ExceptT Error InWorld α'}
    {g : α → ExceptT Error InWorld β} {g' : α' → ExceptT Error InWorld β'} (h : Twin K R x y)
    (hg : ∀ a b, R a b → Twin K Q (g a) (g' b)) : Twin K Q (x >>= g) (y >>= g') := by
  intro w hw
  rcases h hw with ⟨a, b, w', hx, hy, hK, hab⟩ | ⟨e, e', w₁, w₂, hx, hy⟩
  · rw [outcome_bind_of_ok hx, outcome_bind_of_ok hy]
    exact hg a b hab hK
  · exact .inr ⟨e, e', w₁, w₂, outcome_bind_of_error hx g, outcome_bind_of_error hy g'⟩

/-- A computation that takes notes at most, beside itself. -/
theorem note (hK : Unnoted K) {x : ExceptT Error InWorld α}
    (h : ∀ {R}, Noting R → Leaves R x) : Twin K Eq x x := by
  intro w hw
  obtain ⟨a, w', hrun, -, hkept⟩ := h hK.noting w
  exact .inl ⟨a, a, w', hrun, hrun, hkept hw, rfl⟩

theorem iff_ok {x : ExceptT Error InWorld α} {y : ExceptT Error InWorld α'} (h : Twin K R x y)
    {w : World} (hw : K w) :
    (∃ a w', outcome x w = (.ok a, w')) ↔ ∃ b w', outcome y w = (.ok b, w') := by
  rcases h hw with ⟨a, b, w', hx, hy, -⟩ | ⟨e, e', w₁, w₂, hx, hy⟩
  · exact ⟨fun _ => ⟨b, w', hy⟩, fun _ => ⟨a, w', hx⟩⟩
  · constructor
    · rintro ⟨a, w', hrun⟩
      cases hx.symm.trans hrun
    · rintro ⟨b, w', hrun⟩
      cases hy.symm.trans hrun

theorem of_ok {x : ExceptT Error InWorld α} {y : ExceptT Error InWorld α'} (h : Twin K R x y)
    {w w' : World} (hw : K w) {a : α} (hrun : outcome x w = (.ok a, w')) :
    ∃ b, outcome y w = (.ok b, w') ∧ R a b := by
  rcases h hw with ⟨a', b, w₁, hx, hy, -, hab⟩ | ⟨e, e', w₁, w₂, hx, -⟩
  · cases hx.symm.trans hrun
    exact ⟨b, hy, hab⟩
  · cases hx.symm.trans hrun

end Twin

/-! ## Steps of resolutions -/

/-- The ledgers are the same, and the sources related. -/
structure Abreast (J : Option (List Tree) → Option (List Tree) → Prop) (p q : Progress) :
    Prop where
  ledger : q.ledger = p.ledger
  sources : J p.sources q.sources

/-- The steps are twins wherever they are abreast, and are abreast afterwards. -/
def TwinStep (K : World → Prop) (J : Option (List Tree) → Option (List Tree) → Prop)
    (R : α → α' → Prop) (x : Resolving InWorld α) (y : Resolving InWorld α') : Prop :=
  ∀ p q, Abreast J p q →
    Twin K (fun r r' => R r.1 r'.1 ∧ Abreast J r.2 r'.2) (x.run p) (y.run q)

namespace TwinStep

variable {K : World → Prop} {J : Option (List Tree) → Option (List Tree) → Prop}
  {R R' : α → α' → Prop} {Q : β → β' → Prop}

theorem pure {a : α} {b : α'} (h : R a b) : TwinStep K J R (Pure.pure a) (Pure.pure b) :=
  fun _ _ hpq => Twin.pure ⟨h, hpq⟩

theorem mono {x : Resolving InWorld α} {y : Resolving InWorld α'} (h : TwinStep K J R x y)
    (hR : ∀ a b, R a b → R' a b) : TwinStep K J R' x y :=
  fun p q hpq => (h p q hpq).mono fun _ _ hr => ⟨hR _ _ hr.1, hr.2⟩

theorem bind {x : Resolving InWorld α} {y : Resolving InWorld α'} {g : α → Resolving InWorld β}
    {g' : α' → Resolving InWorld β'} (h : TwinStep K J R x y)
    (hg : ∀ a b, R a b → TwinStep K J Q (g a) (g' b)) : TwinStep K J Q (x >>= g) (y >>= g') :=
  fun p q hpq => (h p q hpq).bind fun r r' hr => hg r.1 r'.1 hr.1 r.2 r'.2 hr.2

theorem fail {s s' : Scope InWorld} {location location' : String} {reason reason' : Unresolved} :
    TwinStep K J R (s.fail location reason) (s'.fail location' reason') :=
  fun _ _ _ => Twin.throw _ _

theorem fail_bind {s s' : Scope InWorld} {location location' : String}
    {reason reason' : Unresolved} {g : β → Resolving InWorld α} {g' : β' → Resolving InWorld α'} :
    TwinStep K J R (s.fail location reason >>= g) (s'.fail location' reason' >>= g') :=
  fun _ _ _ => Twin.throw _ _

theorem orFail {s s' : Scope InWorld} {location : String} (x : Except Directive.Fault α) :
    TwinStep K J (fun a b => x = .ok a ∧ a = b) (s.orFail location x) (s'.orFail location x) := by
  cases x with
  | ok a => exact pure ⟨rfl, rfl⟩
  | error fault => exact fail

theorem lift {x : ExceptT Error InWorld α} {y : ExceptT Error InWorld α'} (h : Twin K R x y) :
    TwinStep K J R (liftM x : Resolving InWorld α) (liftM y) :=
  fun _ _ hpq => h.bind fun _ _ hr => Twin.pure ⟨hr, hpq⟩

theorem get : TwinStep K J (Abreast J) get get := fun _ _ hpq => Twin.pure ⟨hpq, hpq⟩

/-- Both steps do the same to the ledger. -/
theorem ledger (g : Ledger → Ledger) : TwinStep K J (fun _ _ => True)
    (modify fun p : Progress => { p with ledger := g p.ledger })
    (modify fun p : Progress => { p with ledger := g p.ledger }) :=
  fun _ _ hpq => Twin.pure ⟨trivial, congrArg g hpq.ledger, hpq.sources⟩

/-- A step that leaves the progress alone, beside itself. -/
theorem does {x : Resolving InWorld α} {g : World → α} {after : World → World}
    (hx : ∀ p w, outcome (x.run p) w = (.ok (g w, p), after w)) (hK : ∀ w, K w → K (after w)) :
    TwinStep K J Eq x x :=
  fun p q hpq w hw => .inl ⟨_, _, _, hx p w, hx q w, hK w hw, rfl, hpq⟩

end TwinStep

/-! ## Finding files -/

namespace Scope

variable {K : World → Prop} {J : Option (List Tree) → Option (List Tree) → Prop}
  {s : Scope InWorld}

theorem twin_noteMissed (raw : String) (entry : IncludeEntry) (searched : List FilePath) :
    TwinStep K J Eq (s.noteMissed raw entry searched) (s.noteMissed raw entry searched) := by
  have hmiss (l : Ledger) (path : FilePath) (package : Option String) (file : Option FilePath) :
      TwinStep K J Eq (l.miss path s.owner package file : Resolving InWorld Ledger)
        (l.miss path s.owner package file) := by
    cases package with
    | none =>
      exact .does (g := fun w => l.addMissed ⟨FilePath.normalize w.directory path,
        FilePath.normalize w.directory s.owner, none, file⟩) (fun _ _ => rfl) fun _ hw => hw
    | some package =>
      exact .does (g := fun w => l.addMissed ⟨path,
        FilePath.normalize w.directory s.owner, some package, file⟩) (fun _ _ => rfl) fun _ hw => hw
  have hall (l : Ledger) : TwinStep K J Eq (searched.foldlM (fun l path =>
      l.miss path s.owner none none) l : Resolving InWorld Ledger)
      (searched.foldlM (fun l path => l.miss path s.owner none none) l) := by
    induction searched generalizing l with
    | nil => exact .pure rfl
    | cons path rest ih =>
      rw [List.foldlM_cons]
      exact (hmiss l path none none).bind fun l _ hl => hl ▸ ih l
  have hkeep (l : Ledger) : TwinStep K J Eq
      (modify fun p : Progress => { p with ledger := l })
      (modify fun p : Progress => { p with ledger := l }) :=
    (TwinStep.ledger fun _ => l).mono fun _ _ _ => rfl
  unfold noteMissed
  refine TwinStep.get.bind fun p q hpq => ?_
  dsimp only
  rw [hpq.ledger]
  cases entry.package with
  | some package => exact (hmiss _ _ _ _).bind fun l _ hl => hl ▸ hkeep l
  | none => exact (hall _).bind fun l _ hl => hl ▸ hkeep l

/-- The search for a file asks the sources nothing. -/
theorem twin_find (hK : Unnoted K) (raw : String) (entry : IncludeEntry) (location : String) :
    TwinStep K J Eq (s.find raw entry location) (s.find raw entry location) := by
  have hmissed (searched : List FilePath) : TwinStep K J Eq (do
      s.noteMissed raw entry searched
      return none : Resolving InWorld (Option FilePath))
      (do s.noteMissed raw entry searched; return none) :=
    (twin_noteMissed raw entry searched).bind fun _ _ _ => .pure rfl
  unfold find
  refine (TwinStep.does (candidates_run entry) fun _ hw => hw).bind fun searched _ hsearched => ?_
  subst hsearched
  refine (TwinStep.does (firstFile_run searched) fun _ hw => hw).bind fun found _ hfound => ?_
  subst hfound
  cases found with
  | some file =>
    have hnormalize : TwinStep K J Eq (Host.normalize file : Resolving InWorld FilePath)
        (Host.normalize file) :=
      .does (g := fun w => FilePath.normalize w.directory file) (fun _ _ => rfl) fun _ hw => hw
    exact hnormalize.bind fun _ _ hfile => .pure (congrArg some hfile)
  | none =>
    dsimp only
    split
    · split
      · have hwarn (text : String) : TwinStep K J Eq (Host.warn text : Resolving InWorld Unit)
            (Host.warn text) :=
          .does (g := fun _ => ()) (fun _ _ => rfl) fun _ hw => hK.warned hw _
        exact (hwarn _).bind fun _ _ _ => hmissed _
      · exact hmissed _
    · split
      · exact .fail
      · exact .fail

end Scope

end LayeredConfig
