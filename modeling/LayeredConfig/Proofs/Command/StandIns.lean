import LayeredConfig.Command.Arguments
import LayeredConfig.Proofs.Contract

/-!
# Parameters that are not given

The environment stands in for an option that no argument gives: its values are those of the
variables that stand in for it, one for each command on the way that has the option and whose
variable is set (`Grammar.all_of_readFrom`). An option with a value is given by its name alone if it
has no short form (`Grammar.ByName`), and only before an argument `--`.

`Progress.Lacks` is the invariant of reading: nothing is settled for the option, and it does not
wait for its value either.
-/

namespace LayeredConfig.Arguments

variable {name : String} {s s' s'' : Progress} {p : Parameter} {env : Environment}

/-! ## Arguments that give an option -/

/-- The argument is an option by its name, perhaps with a value attached to it. -/
def IsLong (name argument : String) : Prop :=
  argument.toList.takeWhile (· != '=') = '-' :: '-' :: name.toList

instance {argument : String} : Decidable (IsLong name argument) :=
  inferInstanceAs (Decidable (_ = _))

/-- One of the arguments gives the option. What follows an argument `--` are values. -/
def Mentions (name : String) (arguments : List String) : Prop :=
  ∃ argument ∈ arguments.takeWhile (· != "--"), IsLong name argument

instance {arguments : List String} : Decidable (Mentions name arguments) :=
  inferInstanceAs (Decidable (∃ argument ∈ _, _))

theorem Mentions.cons {text : String} {rest : List String} (htext : text ≠ "--")
    (h : IsLong name text ∨ Mentions name rest) : Mentions name (text :: rest) := by
  have hwhile : (text :: rest).takeWhile (· != "--") = text :: rest.takeWhile (· != "--") :=
    List.takeWhile_cons_of_pos (bne_iff_ne.2 htext)
  rw [Mentions, hwhile]
  rcases h with h | ⟨argument, hmem, h⟩
  · exact ⟨text, List.mem_cons_self, h⟩
  · exact ⟨argument, List.mem_cons_of_mem _ hmem, h⟩

/-! ## Grammars -/

namespace Grammar

/-- The parameter of the values of a command. -/
def slot? : Grammar → Option Parameter
  | .leaf _ slot => slot
  | .group _ _ => none

/-- Where the parameter of the name is known, it is an option that takes a value and has no short
form. -/
inductive ByName (name : String) : Grammar → Prop
  | intro {g : Grammar} (options : ∀ p ∈ g.options, p.name = name → p.takesValue ∧ p.short = none)
      (slot : ∀ p ∈ g.slot?, p.name ≠ name) (dashes : ∀ c ∈ g.commands, c.1 ≠ "--")
      (commands : ∀ c ∈ g.commands, ByName name c.2) : ByName name g

/-- What the environment says of an option of the command itself. -/
def standIn? (g : Grammar) (env : Environment) (name : String) : Option String :=
  (g.options.filter (·.name == name)).findSome? fun p => p.standIn.bind env.get?

/-- What the environment says of an option of the command and of those below it that are named. -/
def standIns (env : Environment) (name : String) (g : Grammar) : List String → List String
  | [] => (g.standIn? env name).toList
  | command :: rest => (g.standIn? env name).toList ++
      match g.commands.find? (·.1 == command) with
      | some (_, below) => below.standIns env name rest
      | none => []

end Grammar

/-! ## Single steps -/

namespace Progress

/-- The values that are settled for a parameter. -/
def all (s : Progress) (name : String) : List String :=
  (s.values.filter (·.1 == name)).map Prod.snd

theorem has_iff : s.has name = true ↔ s.all name ≠ [] := by
  rw [all, ne_eq, List.map_eq_nil_iff, List.filter_eq_nil_iff]
  simp [has]

/-- Nothing is settled for the parameter, and it is not the one met last. -/
structure Lacks (name : String) (s : Progress) : Prop where
  all : s.all name = []
  pending : ∀ p ∈ s.pending, p.1.name ≠ name

/-- The second state is reached from the first without giving the parameter. -/
structure Without (name : String) (s s' : Progress) : Prop where
  lacks : s.Lacks name → s'.Lacks name
  onlyValues : s.onlyValues = true → s'.onlyValues = true

theorem Without.refl (s : Progress) : Without name s s := ⟨id, id⟩

theorem Without.trans (h : Without name s s') (h' : Without name s' s'') : Without name s s'' :=
  ⟨h'.lacks ∘ h.lacks, h'.onlyValues ∘ h.onlyValues⟩

/-- Settled values are added to the others. For a parameter with values they are those given. -/
theorem accept_ok {values : List String} (hrun : s.accept p values = .ok s') :
    ∃ given, s' = { s with values := s.values ++ given.map fun v => (p.name, v) } ∧
      (p.takesValue → given = values) := by
  unfold accept at hrun
  unfold Parameter.takesValue
  cases huse : p.use with
  | stop fault =>
    rw [huse] at hrun
    cases hrun
  | flag =>
    simp only [huse] at hrun
    split at hrun
    · cases hrun
    · cases hrun
      exact ⟨[""], rfl, nofun⟩
  | once kind =>
    simp only [huse] at hrun
    split at hrun
    · cases hrun
    · split at hrun
      · cases hrun
      · cases hcheck : kind.checkAll p.name values with
        | error fault =>
          rw [hcheck] at hrun
          cases hrun
        | ok u =>
          rw [hcheck] at hrun
          cases hrun
          exact ⟨values, rfl, fun _ => rfl⟩
  | often kind =>
    simp only [huse] at hrun
    split at hrun
    · cases hrun
    · cases hcheck : kind.checkAll p.name values with
      | error fault =>
        rw [hcheck] at hrun
        cases hrun
      | ok u =>
        rw [hcheck] at hrun
        cases hrun
        exact ⟨values, rfl, fun _ => rfl⟩

theorem all_of_accept {values : List String} (hrun : s.accept p values = .ok s')
    (hp : p.name ≠ name) : s'.all name = s.all name := by
  obtain ⟨given, rfl, -⟩ := accept_ok hrun
  simp [all, hp]

theorem all_of_accept_self {values : List String} (hrun : s.accept p values = .ok s')
    (hp : p.takesValue) : s'.all p.name = s.all p.name ++ values := by
  obtain ⟨given, rfl, hgiven⟩ := accept_ok hrun
  have hown : ∀ l : List String,
      ((l.map fun v => (p.name, v)).filter (·.1 == p.name)).map Prod.snd = l := by
    intro l
    rw [List.filter_eq_self.2 (by simp), List.map_map]
    exact List.map_id l
  rw [hgiven hp, all, List.filter_append, List.map_append, hown, all]

theorem without_accept {values : List String} (hrun : s.accept p values = .ok s')
    (hp : p.name ≠ name) : Without name s s' := by
  have hall := all_of_accept hrun hp
  obtain ⟨given, rfl, -⟩ := accept_ok hrun
  exact ⟨fun h => ⟨hall.trans h.all, h.pending⟩, id⟩

/-- Settling leaves nothing that is met last. -/
theorem settle_ok (hrun : s.settle = .ok s') (hs : s.Lacks name) :
    Without name s s' ∧ s'.pending = none := by
  unfold settle at hrun
  split at hrun
  next hnone =>
    cases hrun
    exact ⟨⟨fun h => ⟨h.all, h.pending⟩, id⟩, hnone⟩
  next q values hsome =>
    have hq : q.name ≠ name := hs.pending _ hsome
    have hstep : Without name s { s with pending := none, waiting := false } :=
      ⟨fun h => ⟨h.all, nofun⟩, id⟩
    refine ⟨hstep.trans (without_accept hrun hq), ?_⟩
    obtain ⟨given, rfl, -⟩ := accept_ok hrun
    rfl

theorem without_settle (hrun : s.settle = .ok s') (hs : s.Lacks name) : Without name s s' :=
  (settle_ok hrun hs).1

/-- Another parameter is the one met last. -/
theorem without_pending {values : List String} {waiting : Bool} (hp : p.name ≠ name) :
    Without name s { s with pending := some (p, values), waiting := waiting } where
  lacks h := ⟨h.all, fun q hq => by cases hq; exact hp⟩
  onlyValues := id

theorem without_supply (value : String) : Without name s (s.supply value) where
  lacks h := ⟨h.all, fun q hq => by
    obtain ⟨r, hr, rfl⟩ := Option.map_eq_some_iff.1 hq
    exact h.pending r hr⟩
  onlyValues := id

theorem without_meet {attached : Option String} (hrun : s.meet p attached = .ok s')
    (hs : s.Lacks name) (hp : p.name ≠ name) : Without name s s' := by
  unfold meet at hrun
  split at hrun
  · cases attached with
    | some value =>
      obtain ⟨s₁, hsettle, haccept⟩ := except_bind_ok hrun
      exact (without_settle hsettle hs).trans (without_accept haccept hp)
    | none =>
      obtain ⟨s₁, hsettle, hrest⟩ := except_bind_ok hrun
      cases hrest
      exact (without_settle hsettle hs).trans (without_pending hp)
  · cases attached with
    | some value => cases hrun
    | none =>
      obtain ⟨s₁, hsettle, haccept⟩ := except_bind_ok hrun
      exact (without_settle hsettle hs).trans (without_accept haccept hp)

end Progress

namespace Grammar

open Progress

variable {g : Grammar}

theorem ByName.short (hg : g.ByName name) (hp : p ∈ g.options) {c : Char}
    (hshort : p.short = some c) : p.name ≠ name := by
  obtain ⟨options, -, -, -⟩ := hg
  intro hname
  rw [(options p hp hname).2] at hshort
  cases hshort

theorem ByName.slot (hg : g.ByName name) (hp : g.slot? = some p) : p.name ≠ name := by
  obtain ⟨-, slot, -, -⟩ := hg
  exact slot p hp

theorem ByName.takesValue (hg : g.ByName name) (hp : p ∈ g.options) (hname : p.name = name) :
    p.takesValue := by
  obtain ⟨options, -, -, -⟩ := hg
  exact (options p hp hname).1

theorem ByName.command (hg : g.ByName name) {text : String} {c : String × Grammar}
    (hc : g.commands.find? (·.1 == text) = some c) : c.2.ByName name := by
  obtain ⟨-, -, -, commands⟩ := hg
  exact commands c (List.mem_of_find?_eq_some hc)

theorem ByName.not_isCommand (hg : g.ByName name) : g.isCommand "--" = false := by
  obtain ⟨-, -, dashes, -⟩ := hg
  cases g with
  | leaf _ _ => rfl
  | group _ commands =>
    have hany : commands.any (·.1 == "--") = false :=
      List.any_eq_false.2 fun c hc => by simpa using dashes c hc
    rw [isCommand, hany]
    rfl

theorem without_meetShort (hg : g.ByName name) {chars : List Char}
    (hrun : g.meetShort s chars = .ok s') (hs : s.Lacks name) : Without name s s' := by
  induction chars generalizing s with
  | nil =>
    cases hrun
    exact .refl _
  | cons c rest ih =>
    unfold meetShort at hrun
    split at hrun
    · cases hrun
    next p hfind =>
      have hp : p.name ≠ name :=
        hg.short (List.mem_of_find?_eq_some hfind) (by simpa using List.find?_some hfind)
      split at hrun
      · split at hrun <;> exact without_meet hrun hs hp
      · split at hrun
        next s₁ hmeet =>
          have hstep := without_meet hmeet hs hp
          exact hstep.trans (ih hrun (hstep.lacks hs))
        · cases hrun

theorem without_meetLong {text : List Char} (hrun : g.meetLong s text = .ok s')
    (hs : s.Lacks name) (htext : text.takeWhile (· != '=') ≠ name.toList) : Without name s s' := by
  unfold meetLong at hrun
  dsimp only at hrun
  split at hrun
  next p hfind =>
    refine without_meet hrun hs fun hname => htext ?_
    have hsame : p.name = String.ofList (text.takeWhile (· != '=')) := by
      simpa using List.find?_some hfind
    rw [← hname, hsame, String.toList_ofList]
  · cases hrun

theorem without_takeValue (hg : g.ByName name) {text : String}
    (hrun : g.takeValue s text = .ok s') (hs : s.Lacks name) : Without name s s' := by
  cases g with
  | group options commands =>
    unfold takeValue at hrun
    dsimp only at hrun
    split at hrun <;> cases hrun
  | leaf options slot =>
    cases slot with
    | none => cases hrun
    | some slot =>
      have hslot : slot.name ≠ name := hg.slot rfl
      have hnext : ∀ {s' : Progress}, (do
          return { (← s.settle) with pending := some (slot, [text]) } : Except Fault Progress) =
            .ok s' → Without name s s' := by
        intro s' hrun
        obtain ⟨s₁, hsettle, hrest⟩ := except_bind_ok hrun
        cases hrest
        exact (without_settle hsettle hs).trans (without_pending hslot)
      unfold takeValue at hrun
      dsimp only at hrun
      split at hrun
      · split at hrun
        · cases hrun
          exact without_supply text
        · exact hnext hrun
      · split at hrun
        · cases hrun
        · exact hnext hrun

theorem without_readOne (hg : g.ByName name) {text : String} (hrun : g.readOne s text = .ok s')
    (hs : s.Lacks name) (htext : s.onlyValues = true ∨ ¬ IsLong name text) :
    Without name s s' := by
  unfold readOne at hrun
  split at hrun
  · exact without_takeValue hg hrun hs
  next hvalues =>
    have hlong := htext.resolve_left hvalues
    have hgiven : ∀ {s' : Progress}, (if s.waiting then .ok (s.supply text)
        else g.takeValue s text) = .ok s' → Without name s s' := by
      intro s' hrun
      split at hrun
      · cases hrun
        exact without_supply text
      · exact without_takeValue hg hrun hs
    split at hrun
    · cases hrun
      exact ⟨fun h => ⟨h.all, h.pending⟩, fun _ => rfl⟩
    next rest _ htoList =>
      refine without_meetLong hrun hs fun hname => hlong ?_
      rw [IsLong, htoList, ← hname]
      rfl
    · exact hgiven hrun
    · exact without_meetShort hg hrun hs
    · exact hgiven hrun

/-- After `--` come values only. -/
theorem readOne_dashes (hg : g.ByName name) (hrun : g.readOne s "--" = .ok s')
    (hs : s.Lacks name) : s'.Lacks name ∧ s'.onlyValues = true := by
  unfold readOne at hrun
  split at hrun
  next hvalues =>
    have hstep : Without name s s' := without_takeValue hg hrun hs
    exact ⟨hstep.lacks hs, hstep.onlyValues hvalues⟩
  · have hdashes : "--".toList = ['-', '-'] := by decide
    rw [hdashes] at hrun
    cases hrun
    exact ⟨⟨hs.all, hs.pending⟩, rfl⟩

/-! ## The environment -/

/-- A parameter that is given is not looked up in the environment. -/
theorem all_of_addVariables_given {options : List Parameter}
    (hrun : addVariables env options s = .ok s') (hs : s.all name ≠ []) :
    s'.all name = s.all name := by
  induction options generalizing s with
  | nil =>
    cases hrun
    rfl
  | cons p rest ih =>
    unfold addVariables at hrun
    split at hrun
    · exact ih hrun hs
    · split at hrun
      · exact ih hrun hs
      next hp =>
        split at hrun
        next s₁ haccept =>
          have hall : s₁.all name = s.all name :=
            all_of_accept haccept fun hname => hp (has_iff.2 (hname ▸ hs))
          rw [ih hrun (hall ▸ hs), hall]
        · cases hrun

/-- A parameter that is not given has the value of the first variable that stands in for it. -/
theorem all_of_addVariables {options : List Parameter}
    (hoptions : ∀ p ∈ options, p.name = name → p.takesValue)
    (hrun : addVariables env options s = .ok s') (hs : s.all name = []) :
    s'.all name =
      ((options.filter (·.name == name)).findSome? fun p => p.standIn.bind env.get?).toList := by
  induction options generalizing s with
  | nil =>
    cases hrun
    exact hs
  | cons p rest ih =>
    have ih := fun {s : Progress} => @ih s fun q hq => hoptions q (List.mem_cons_of_mem _ hq)
    have hlacks : ¬ s.has name = true := fun h => has_iff.1 h hs
    unfold addVariables at hrun
    by_cases hname : p.name = name
    · rw [List.filter_cons_of_pos (by simpa using hname), List.findSome?_cons]
      split at hrun
      next hnone =>
        rw [hnone]
        exact ih hrun hs
      next value hvalue =>
        rw [hname, if_neg hlacks] at hrun
        split at hrun
        next s₁ haccept =>
          have hall := all_of_accept_self haccept (hoptions p List.mem_cons_self hname)
          rw [hname, hs, List.nil_append] at hall
          rw [all_of_addVariables_given hrun (by simp [hall]), hall, hvalue]
          rfl
        · cases hrun
    · rw [List.filter_cons_of_neg (by simpa using hname)]
      split at hrun
      · exact ih hrun hs
      · split at hrun
        · exact ih hrun hs
        · split at hrun
          next s₁ haccept => exact ih hrun ((all_of_accept haccept hname).trans hs)
          · cases hrun

/-! ## Whole commands -/

theorem finish_ok {below : Option (String × Reading)} {r : Reading}
    (hrun : g.finish env s below = .ok r) :
    ∃ s₁ s₂, s.settle = .ok s₁ ∧ addVariables env g.options s₁ = .ok s₂ ∧
      r = below.elim ⟨[], s₂.values⟩ fun b =>
        ⟨b.1 :: b.2.commands, s₂.values ++ b.2.values⟩ := by
  obtain ⟨s₁, hsettle, hrun⟩ := except_bind_ok hrun
  obtain ⟨s₂, hadd, hrun⟩ := except_bind_ok hrun
  refine ⟨s₁, s₂, hsettle, hadd, ?_⟩
  cases hfault : (g.conflict? s₂).or (g.missing? s₂) with
  | some fault =>
    rw [hfault] at hrun
    cases g <;> cases below <;> cases hrun
  | none =>
    rw [hfault] at hrun
    cases g <;> cases below <;> cases hrun <;> rfl

theorem all_of_finish (hg : g.ByName name) {below : Option (String × Reading)} {r : Reading}
    (hrun : g.finish env s below = .ok r) (hs : s.Lacks name) :
    r.all name = (g.standIn? env name).toList ++ (below.elim [] fun b => b.2.all name) ∧
      r.commands = below.elim [] fun b => b.1 :: b.2.commands := by
  obtain ⟨s₁, s₂, hsettle, hadd, rfl⟩ := finish_ok hrun
  have hlacks := (without_settle hsettle hs).lacks hs
  have hall := all_of_addVariables (fun p hp => hg.takesValue hp) hadd hlacks.all
  cases below with
  | none => exact ⟨hall.trans (List.append_nil _).symm, rfl⟩
  | some b =>
    refine ⟨?_, rfl⟩
    change ((s₂.values ++ b.2.values).filter (·.1 == name)).map Prod.snd = _ ++ b.2.all name
    rw [List.filter_append, List.map_append]
    exact congrArg (· ++ b.2.all name) hall

/-- An option that no argument gives has the values the environment has for it, in the command that
is read and those below it. -/
theorem all_of_readFrom (hg : g.ByName name) {arguments : List String} {r : Reading}
    (hrun : readFrom env g s arguments = .ok r) (hs : s.Lacks name)
    (harguments : s.onlyValues = true ∨ ¬ Mentions name arguments) :
    r.all name = g.standIns env name r.commands := by
  induction arguments generalizing g s r with
  | nil =>
    obtain ⟨hall, hcommands⟩ := all_of_finish hg hrun hs
    rw [hall, hcommands]
    exact List.append_nil _
  | cons text rest ih =>
    unfold readFrom at hrun
    split at hrun
    next hcommand =>
      simp only [Bool.and_eq_true, Bool.not_eq_true'] at hcommand
      obtain ⟨⟨hvalues, -⟩, hcommand⟩ := hcommand
      have htext : text ≠ "--" := fun h => by simp [h, hg.not_isCommand] at hcommand
      have hrest : ¬ Mentions name rest := fun h =>
        harguments.resolve_left (by simp [hvalues]) (.cons htext (.inr h))
      split at hrun
      · cases hrun
      next command below hfind =>
        obtain ⟨b, hbelow, hfinish⟩ := except_bind_ok hrun
        have hstart : Progress.start.Lacks name := ⟨rfl, nofun⟩
        have hown := ih (hg.command hfind) hbelow hstart (.inr hrest)
        obtain ⟨hall, hcommands⟩ := all_of_finish hg hfinish hs
        have hname : command = text := by simpa using List.find?_some hfind
        rw [hall, hcommands]
        change _ ++ b.all name = standIns env name g (command :: b.commands)
        rw [standIns, hname, hfind, hown]
    · obtain ⟨s₁, hone, hrun⟩ := except_bind_ok hrun
      by_cases htext : text = "--"
      · obtain ⟨hlacks, hvalues⟩ := readOne_dashes hg (htext ▸ hone) hs
        exact ih hg hrun hlacks (.inl hvalues)
      · have hstep : Without name s s₁ := without_readOne hg hone hs
          (harguments.imp_right fun h hlong => h (.cons htext (.inl hlong)))
        exact ih hg hrun (hstep.lacks hs)
          (harguments.imp hstep.onlyValues fun h hrest => h (.cons htext (.inr hrest)))

/-- An option that no argument gives has the values the environment has for it. -/
theorem all_of_read (hg : g.ByName name) {arguments : List String} {r : Reading}
    (hrun : g.read env arguments = .ok r) (harguments : ¬ Mentions name arguments) :
    r.all name = g.standIns env name r.commands :=
  all_of_readFrom hg hrun ⟨rfl, nofun⟩ (.inr harguments)

end Grammar

end LayeredConfig.Arguments
