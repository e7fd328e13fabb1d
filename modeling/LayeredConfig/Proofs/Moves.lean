import LayeredConfig.Proofs.Accounting
import Mathlib.Logic.Relation

/-!
# The moves of a resolution

What a resolution has reached, and the world it is in, change in three ways only: the sources are
put anew, an entry of `_include` is met, and a file is loaded. A run that has a result is a row of
such moves. So what each move keeps, the whole resolution keeps (`ReflTransGen.head_induction_on`
and its like), and nothing has to be said of directives, trees and sections again.
-/

namespace LayeredConfig

variable {α β : Type}

/-- A change of what a resolution has reached and of the world. -/
inductive Move (c : Scope InWorld) : Progress × World → Progress × World → Prop where
  /-- Other sources are used. -/
  | rebound (p : Progress) (w : World) (sources : Option (List Tree)) :
    Move c (p, w) ({ p with sources := sources }, w)
  /-- An entry is met, and it is noted where its file is missing. -/
  | met {w : World} {m : Meeting} (hm : m.In c.settings w) (howner : m.owner = c.owner)
      (p : Progress) (warnings : List String) :
    Move c (p, w)
      ({ p with ledger := p.ledger.update (accountOf w [m] []) }, { w with warnings := warnings })
  /-- A file is loaded, and its ledger is taken up. -/
  | loaded {w w' : World} {file : FilePath} {location : String} {t : Tree} {l : Ledger}
      (hfile : file.IsNormal) (hchain : file ∉ c.chain)
      (hload : outcome (c.load file c.chain location) w = (.ok (t, l), w')) (p : Progress) :
    Move c (p, w) ({ p with ledger := p.ledger.update l }, w')

/-- Every run of the step that has a result is a row of moves. -/
def Moves (c : Scope InWorld) (x : Resolving InWorld α) : Prop :=
  ∀ ⦃p w a p' w'⦄, outcome (x.run p) w = (.ok (a, p'), w') →
    Relation.ReflTransGen (Move c) (p, w) (p', w')

namespace Moves

variable {c : Scope InWorld}

theorem pure (a : α) : Moves c (pure a) := by
  rintro p w _ _ _ ⟨⟩
  exact .refl

theorem bind {x : Resolving InWorld α} {f : α → Resolving InWorld β} (hx : Moves c x)
    (hf : ∀ a, Moves c (f a)) : Moves c (x >>= f) := by
  intro p w b p' w' hrun
  obtain ⟨a, p₁, w₁, hrun₁, hrun₂⟩ := run_bind_ok hrun
  exact (hx hrun₁).trans (hf a hrun₂)

theorem get : Moves c get := by
  rintro p w _ _ _ ⟨⟩
  exact .refl

theorem fail {location : String} {reason : Unresolved} :
    Moves c (c.fail location reason : Resolving InWorld α) := by
  rintro p w _ _ _ ⟨⟩

theorem orFail {location : String} {x : Except Directive.Fault α} :
    Moves c (c.orFail location x) := by
  intro p w a p' w' hrun
  obtain ⟨-, rfl, rfl⟩ := Scope.orFail_ok hrun
  exact .refl

end Moves

/-! ## The steps of a resolution -/

namespace Scope

variable {c : Scope InWorld} {f : Flattening} {location : String} {position : Position}
  {resolve : Tree → String → Resolving InWorld Tree} {onward : MappingResolver InWorld}

theorem moves_includeFile {file : FilePath} (hfile : file.IsNormal) (merged : Tree) :
    Moves c (c.includeFile f location merged file) := by
  intro p w t p' w' hrun
  unfold includeFile at hrun
  split at hrun
  · cases hrun
  next hchain =>
    obtain ⟨⟨tree, ledger⟩, p₁, w₁, hload, hrest⟩ := run_bind_ok hrun
    obtain ⟨⟨tree', ledger'⟩, w₂, hload, hlift⟩ := outcome_bind_ok hload
    cases hlift
    obtain ⟨_, p₂, w₂, hmodify, hrest⟩ := run_bind_ok hrest
    cases hmodify
    have hmove := Move.loaded hfile (by simpa using hchain) hload p
    dsimp only at hrest
    split at hrest
    · cases hrest
    · cases hrest
      exact .single hmove

theorem moves_rebind (es : Entries) : Moves c (rebind position es) := by
  intro p w _ p' w' hrun
  cases position with
  | none =>
    cases hrun
    exact .refl
  | some path =>
    cases hrun
    exact .single (.rebound p w _)

theorem moves_isPending (es : Entries) : Moves c (c.isPending es) := by
  intro p w pending p' w' hrun
  rw [isPending_run] at hrun
  cases hrun
  exact .refl

section Mappings

variable (howner : c.owner.IsNormal)
include howner

theorem moves_find {raw : String} {entry : IncludeEntry}
    (hparse : IncludeEntry.parse raw = .ok entry) : Moves c (c.find raw entry location) := by
  intro p w found p' w' hrun
  obtain ⟨-, hoptional, rfl, warnings, rfl⟩ := find_ok howner hrun
  have hm : (c.settings.meeting w c.owner raw entry).In c.settings w := ⟨hparse, rfl, hoptional⟩
  exact .single (.met hm rfl p warnings)

theorem moves_includeAll (merged : Tree) (raws : List String) :
    Moves c (c.includeAll f location merged raws) := by
  induction raws generalizing merged with
  | nil => exact Moves.pure merged
  | cons raw rest ih =>
    intro p w t p' w' hrun
    unfold includeAll at hrun
    obtain ⟨entry, p₁, w₁, hparse, hrest⟩ := run_bind_ok hrun
    obtain ⟨hparsed, rfl, rfl⟩ := orFail_ok hparse
    obtain ⟨found, p₂, w₂, hfind, hrest⟩ := run_bind_ok hrest
    refine (moves_find howner hparsed hfind).trans ?_
    obtain ⟨hfound, -⟩ := find_ok howner hfind
    cases found with
    | none => exact ih merged hrest
    | some file =>
      obtain ⟨place, -, rfl⟩ := Option.map_eq_some_iff.1 hfound.symm
      exact ((moves_includeFile (FilePath.isNormal_normalize _ _) merged).bind ih) hrest

theorem moves_includeStep (es : Entries) :
    Moves c (c.includeStep f location position es) := by
  unfold includeStep
  dsimp only
  split
  · exact Moves.pure es
  · refine Moves.bind ?_ fun base => (moves_rebind _).bind fun _ => Moves.pure _
    exact Moves.orFail.bind fun raws => moves_includeAll howner _ raws

omit howner in
theorem moves_useStep (hresolve : ∀ base location, Moves c (resolve base location))
    (es : Entries) : Moves c (c.useStep resolve f location position es) := by
  have hmerge : ∀ sources names,
      Moves c (c.mergeSections sources location .empty names) := by
    intro sources names p w t p' w' hrun
    obtain ⟨rfl, rfl, -⟩ := mergeSections_ok hrun
    exact .refl
  unfold useStep
  refine Moves.get.bind fun progress => ?_
  dsimp only
  split
  · refine Moves.bind ?_ fun base => (moves_rebind _).bind fun _ => Moves.pure _
    refine Moves.orFail.bind fun names => (hmerge _ names).bind fun base => ?_
    exact (hresolve base location).bind fun _ => Moves.pure _
  · exact Moves.pure es

theorem moves_substitute (hresolve : ∀ base location, Moves c (resolve base location))
    (passes : Nat) (es : Entries) :
    Moves c (c.substitute resolve f location position passes es) := by
  induction passes generalizing es with
  | zero =>
    unfold substitute
    refine (moves_isPending es).bind fun pending => ?_
    cases pending with
    | false => exact Moves.pure es
    | true => exact Moves.fail
  | succ passes ih =>
    unfold substitute
    refine (moves_isPending es).bind fun pending => ?_
    cases pending with
    | false => exact Moves.pure es
    | true =>
      refine (moves_includeStep howner es).bind fun es => ?_
      exact (moves_useStep hresolve es).bind fun es => ih es

end Mappings

/-! ## Trees -/

theorem moves_entries {es : List (Tree × Tree)}
    (h : ∀ e ∈ es, ∀ location position, Moves c (resolveTree onward location position e.2))
    (location : String) (position : Position) :
    Moves c (resolveEntries onward location position es) := by
  induction es with
  | nil =>
    unfold resolveEntries
    exact Moves.pure _
  | cons e rest ih =>
    unfold resolveEntries
    refine (h e List.mem_cons_self _ _).bind fun _ => ?_
    exact (ih fun e he => h e (List.mem_cons_of_mem _ he)).bind fun _ => Moves.pure _

theorem moves_items {items : List Tree}
    (h : ∀ t ∈ items, ∀ location position, Moves c (resolveTree onward location position t))
    (location : String) (position : Position) (i : Nat) :
    Moves c (resolveItems onward location position i items) := by
  induction items generalizing i with
  | nil =>
    unfold resolveItems
    exact Moves.pure _
  | cons t rest ih =>
    unfold resolveItems
    refine (h t List.mem_cons_self _ _).bind fun _ => ?_
    exact (ih (fun t ht => h t (List.mem_cons_of_mem _ ht)) _).bind fun _ => Moves.pure _

theorem moves_tree (honward : ∀ es location position, Moves c (onward es location position))
    (t : Tree) (location : String) (position : Position) :
    Moves c (resolveTree onward location position t) := by
  induction t using Tree.induction generalizing location position with
  | map es ih =>
    unfold resolveTree
    split
    · exact honward _ _ _
    · exact (moves_entries (fun e he => (ih e he).2) _ _).bind fun _ => Moves.pure _
  | seq items ih =>
    unfold resolveTree
    exact (moves_items ih _ _ _).bind fun _ => Moves.pure _
  | _ =>
    unfold resolveTree
    exact Moves.pure _

section Document

variable (howner : c.owner.IsNormal)
include howner

theorem moves_mapping (hresolve : ∀ base location, Moves c (resolve base location)) (room : Nat)
    (es : Entries) (location : String) (position : Position) :
    Moves c (c.resolveMapping resolve room es location position) := by
  induction room generalizing es location position with
  | zero => exact Moves.fail
  | succ room ih =>
    unfold resolveMapping
    refine Moves.orFail.bind fun f => (moves_substitute howner hresolve _ _).bind fun es => ?_
    exact (moves_entries (fun e _ => moves_tree ih e.2) _ _).bind fun _ => Moves.pure _

theorem moves_reused (levels : Nat) (base : Tree) (location : String) :
    Moves c (c.resolveReused levels base location) := by
  induction levels generalizing base location with
  | zero => exact Moves.fail
  | succ levels ih =>
    unfold resolveReused
    exact moves_tree (moves_mapping howner ih _) _ _ _

/-- Resolving a document is a row of moves. -/
theorem moves_document (location : String) (position : Position) (document : Tree) :
    Moves c (c.resolveDocument location position document) :=
  moves_tree (moves_mapping howner (moves_reused howner _) _) _ _ _

end Document

end Scope

/-- Resolving a document for a request is a row of moves that begins with an empty ledger and ends
with the one that is returned. -/
theorem Settings.resolveFor_moves {s : Settings} {load : FilePath → List FilePath → String →
      ExceptT Error InWorld (Tree × Ledger)} {request : Request} (hpath : request.path.IsNormal)
    {document t : Tree} {l : Ledger} {w w' : World}
    (h : outcome (s.resolveFor load request document) w = (.ok (t, l), w')) :
    ∃ room p, l = p.ledger ∧ Relation.ReflTransGen (Move (s.scope load request room))
      (⟨request.sourcesWith document, Ledger.empty⟩, w) (p, w') := by
  unfold resolveFor at h
  obtain ⟨room, w₁, hroom, h⟩ := outcome_bind_ok h
  cases hroom
  obtain ⟨⟨t', p⟩, w₂, hdocument, hdone⟩ := outcome_bind_ok h
  cases hdone
  exact ⟨_, p, rfl, Scope.moves_document (c := s.scope load request _) hpath _ _ _ hdocument⟩

end LayeredConfig
