import LayeredConfig.Proofs.Alike
import LayeredConfig.Proofs.Ending
import LayeredConfig.Proofs.Loading
import LayeredConfig.Proofs.Nesting
import LayeredConfig.Proofs.OwnSource
import LayeredConfig.Proofs.Path.Labels
import LayeredConfig.Proofs.Schema
import LayeredConfig.Proofs.Tree.Everywhere
import LayeredConfig.Proofs.Tree.Lookup

/-!
# Where errors are located

A mismatch with a schema and an error in the resolution of a document are located by a label. The
label of a mismatch leads to the value that does not fit, and to its default (`check_error`). The
label of an error in a resolution leads to a mapping of the document that has directives, and on
into what these pull in, if that is where the error is: a file is loaded, and a section resolved,
under the label of the mapping that names it (`Error.Below`).
-/

namespace LayeredConfig

open SectionPath

namespace Tree

/-- The key can be read off a label. -/
def LegibleKey : Tree → Prop
  | .str name => (Segment.key name).Legible
  | _ => False

instance : DecidablePred LegibleKey
  | .str name => inferInstanceAs (Decidable (Segment.key name).Legible)
  | .null | .bool _ | .int _ | .float _ | .seq _ | .map _ | .tagged _ _ => .isFalse id

/-- The way to every node can be read off its label. -/
structure Legible (t : Tree) : Prop where
  wellFormed : t.WellFormed
  keys : t.Everywhere fun key _ => LegibleKey key
  /-- There are no more items than there are words. -/
  count : t.nodeCount ≤ twoPow 64

theorem Legible.of_entry {es : Entries} (h : Legible (.map es)) {e : Tree × Tree} (he : e ∈ es) :
    ∃ name, e.1 = .str name ∧ (Segment.key name).Legible ∧
      Entries.get? es (.str name) = some e.2 ∧ e.2.Legible := by
  obtain ⟨hkey, hvalue⟩ := everywhere_map.1 h.keys e he
  have hget := Entries.get?_of_mem h.wellFormed he
  have hcount : e.2.nodeCount ≤ (Tree.map es).nodeCount := by
    have hmem := nodeCount_le_of_mem he
    rw [nodeCount]
    omega
  cases hname : e.1 with
  | str name =>
    rw [hname] at hkey hget
    exact ⟨name, rfl, hkey, hget, h.wellFormed.of_get? hget, hvalue, Nat.le_trans hcount h.count⟩
  | _ => rw [hname] at hkey; exact hkey.elim

theorem length_le_nodeCountItems (items : List Tree) : items.length ≤ nodeCountItems items := by
  induction items with
  | nil => exact Nat.le_refl 0
  | cons t rest ih =>
    have hpositive : 0 < t.nodeCount := by cases t <;> simp [nodeCount] <;> omega
    rw [nodeCountItems, List.length_cons]
    omega

theorem Legible.of_item {items : List Tree} (h : Legible (.seq items)) {i : Nat} {t : Tree}
    (hi : items[i]? = some t) : (Segment.index i).Legible ∧ t.Legible := by
  have hmem := List.mem_of_getElem? hi
  obtain ⟨hlt, -⟩ := List.getElem?_eq_some_iff.1 hi
  have hcount := h.count
  rw [nodeCount] at hcount
  have hlength := length_le_nodeCountItems items
  have hitem := nodeCount_le_of_mem_items hmem
  refine ⟨?_, wellFormed_seq.1 h.wellFormed t hmem, everywhere_seq.1 h.keys t hmem, ?_⟩
  · change i < twoPow 64
    omega
  · omega

end Tree

/-! ## Mismatches -/

namespace Schema

open Tree

/-- Where the mismatch is. -/
def Mismatch.location : Mismatch → String
  | .wrongKind location _ _ => location
  | .unknownField location => location

/-- What the mismatch says is so, of the value at the path and of its default. -/
def Mismatch.HoldsAt (defaults t : Tree) (path : List Segment) : Mismatch → Prop
  | .wrongKind _ expected actual => ∃ default value, defaults.follow? path = some default ∧
      t.follow? path = some value ∧ fits default value = false ∧
      default.kind = expected ∧ value.kind = actual
  | .unknownField _ => defaults.follow? path = none ∧ ∃ value, t.follow? path = some value

theorem Mismatch.HoldsAt.key {slots es : Entries} {name : String} {slot value : Tree}
    {path : List Segment} {m : Mismatch} (h : m.HoldsAt slot value path)
    (hslot : Entries.get? slots (.str name) = some slot)
    (hvalue : Entries.get? es (.str name) = some value) :
    m.HoldsAt (.map slots) (.map es) (.key name :: path) := by
  have hslots : (Tree.map slots).follow? (.key name :: path) = slot.follow? path := by
    rw [follow?, step?, hslot, Option.bind_some]
  have hes : (Tree.map es).follow? (.key name :: path) = value.follow? path := by
    rw [follow?, step?, hvalue, Option.bind_some]
  cases m <;> simpa only [HoldsAt, hslots, hes] using h

theorem compareKinds_error {location : String} {d t : Tree} {m : Mismatch}
    (h : compareKinds location d t = .error m) : m.location = location ∧ m.HoldsAt d t [] := by
  unfold compareKinds at h
  split at h
  · cases h
  next hfits =>
    cases h
    exact ⟨rfl, d, t, rfl, rfl, Bool.eq_false_iff.2 hfits, rfl, rfl⟩

theorem checkEntries_error {strict : Bool} {location : String} {slots es : Entries} {m : Mismatch}
    (h : checkEntries strict location slots es = .error m) :
    ∃ e ∈ es, let child := childLabel location (Yaml.keyText e.1)
      (Entries.get? slots e.1 = none ∧ m = .unknownField child) ∨
        ∃ slot, Entries.get? slots e.1 = some slot ∧ check strict child slot e.2 = .error m := by
  induction es with
  | nil => cases h
  | cons e rest ih =>
    unfold checkEntries at h
    dsimp only at h
    split at h
    next slot hslot =>
      split at h
      · exact List.exists_mem_cons_of_exists (ih h)
      next m' hcheck =>
        cases h
        exact ⟨e, List.mem_cons_self, .inr ⟨slot, hslot, hcheck⟩⟩
    next hslot =>
      split at h
      · cases h
        exact ⟨e, List.mem_cons_self, .inl ⟨hslot, rfl⟩⟩
      · exact List.exists_mem_cons_of_exists (ih h)

/-- The label of a mismatch leads to the value that does not fit. -/
theorem check_error {strict : Bool} {location : String} {d t : Tree} {m : Mismatch}
    (ht : t.Legible) (h : check strict location d t = .error m) :
    ∃ steps, (∀ step ∈ steps, step.Legible) ∧ m.location = labelFrom location steps ∧
      m.HoldsAt d t steps := by
  induction t using Tree.induction generalizing d location with
  | map es ih =>
    -- only two mappings are compared entry by entry, so the way goes on there alone
    by_cases hslots : ∃ slots, d = .map slots
    · obtain ⟨slots, rfl⟩ := hslots
      rw [check] at h
      obtain ⟨e, he, hwhy⟩ := checkEntries_error h
      obtain ⟨name, hkey, hname, hget, hvalue⟩ := ht.of_entry he
      rw [hkey] at hwhy
      rcases hwhy with ⟨hunknown, rfl⟩ | ⟨slot, hslot, hcheck⟩
      · refine ⟨[.key name], by simpa using hname, rfl, ?_, e.2, ?_⟩
        · rw [follow?, step?, hunknown, Option.bind_none]
        · rw [follow?, step?, hget, Option.bind_some, follow?]
      · obtain ⟨steps, hsteps, hlocation, hholds⟩ := (ih e he).2 hvalue hcheck
        exact ⟨.key name :: steps, List.forall_mem_cons.2 ⟨hname, hsteps⟩, hlocation,
          hholds.key hslot hget⟩
    · rw [check_of_not_map (.inl fun slots h => hslots ⟨slots, h⟩)] at h
      exact ⟨[], List.forall_mem_nil _, compareKinds_error h⟩
  | _ =>
    rw [check_of_not_map (.inr (by simp))] at h
    exact ⟨[], List.forall_mem_nil _, compareKinds_error h⟩

/-- What a schema finds against a section is so where its location leads. -/
theorem apply_error {s : Schema} {t : Tree} {m : Mismatch} (ht : t.Legible)
    (h : s.apply t = .error m) (hreadable : Readable m.location) :
    m.HoldsAt s.defaults t (parse m.location) := by
  have hcheck : check s.strict "" s.defaults t = .error m := by
    rw [apply] at h
    cases hcheck : check s.strict "" s.defaults t with
    | error m' =>
      rw [hcheck] at h
      cases h
      rfl
    | ok =>
      rw [hcheck] at h
      cases h
  obtain ⟨steps, hsteps, hlocation, hholds⟩ := check_error ht hcheck
  change m.location = label steps at hlocation
  rw [hlocation] at hreadable ⊢
  rwa [(parse_label_iff hsteps).2 hreadable]

end Schema

/-! ## Errors of a resolution -/

namespace Error

variable {location : String} {e : Error}

/-- If the error is at a node, steps lead to its label from this one. -/
def Below (location : String) : Error → Prop
  | .unresolved _ place _ => ∃ more, place = labelFrom location more
  | _ => True

/-- The error is at a mapping of the tree that has directives, or at a node of what comes of it. -/
def Arises (location : String) (t : Tree) (e : Error) : Prop :=
  ∃ steps es, (∀ step ∈ steps, step.Legible) ∧ t.follow? steps = some (.map es) ∧
    Scope.isDirected es = true ∧ e.Below (labelFrom location steps)

theorem below_self {file : FilePath} {reason : Unresolved} :
    (Error.unresolved file location reason).Below location := ⟨[], rfl⟩

theorem Below.of_extend (step : Segment) (h : e.Below (extend location step)) :
    e.Below location := by
  cases e with
  | unresolved file place reason =>
    obtain ⟨more, rfl⟩ := h
    exact ⟨step :: more, rfl⟩
  | _ => trivial

theorem Arises.of_step {t u : Tree} (step : Segment) (hstep : t.step? step = some u)
    (hlegible : step.Legible) (h : e.Arises (extend location step) u) : e.Arises location t := by
  obtain ⟨steps, es, hsteps, hfollow, hdirected, hbelow⟩ := h
  refine ⟨step :: steps, es, List.forall_mem_cons.2 ⟨hlegible, hsteps⟩, ?_, hdirected, hbelow⟩
  rw [Tree.follow?, hstep, Option.bind_some, hfollow]

end Error

variable {α β : Type} {E E' : Error → Prop}

/-- The computation fails with errors in `E` only. -/
def FailsWith (E : Error → Prop) (x : ExceptT Error InWorld α) : Prop :=
  ∀ ⦃w e w'⦄, outcome x w = (.error e, w') → E e

/-- The step fails with errors in `E` only. -/
abbrev Blames (E : Error → Prop) (x : Resolving InWorld α) : Prop :=
  Ends (fun _ => True) (fun _ => True) E x fun _ => True

/-- The error that the computation fails with. -/
def failure? (x : ExceptT Error InWorld α) (w : World) : Option Error :=
  match outcome x w with
  | (.ok _, _) => none
  | (.error e, _) => some e

theorem failure?_eq_some {x : ExceptT Error InWorld α} {w : World} {e : Error} :
    failure? x w = some e ↔ ∃ w', outcome x w = (.error e, w') := by
  unfold failure?
  rcases outcome x w with ⟨e' | a, w'⟩ <;> simp

namespace FailsWith

theorem pure (a : α) : FailsWith E (pure a) := by
  rintro w e w' ⟨⟩

theorem bind {x : ExceptT Error InWorld α} {f : α → ExceptT Error InWorld β}
    (hx : FailsWith E x) (hf : ∀ a, FailsWith E (f a)) : FailsWith E (x >>= f) := by
  intro w e w' hrun
  rw [outcome_bind] at hrun
  rcases hfirst : outcome x w with ⟨e₁ | a, w₁⟩
  · rw [hfirst] at hrun
    cases hrun
    exact hx hfirst
  · rw [hfirst] at hrun
    exact hf a hrun

/-- A computation that has a result does not fail. -/
theorem of_leaves {x : ExceptT Error InWorld α} (h : Leaves (fun _ _ => True) x) :
    FailsWith E x := by
  intro w e w' hrun
  obtain ⟨a, w₁, hok, -⟩ := h w
  cases hrun.symm.trans hok

end FailsWith

namespace Blames

theorem iff_run {x : Resolving InWorld α} : Blames E x ↔ ∀ p, FailsWith E (x.run p) := by
  simp [Ends, FailsWith]

theorem imp {x : Resolving InWorld α} (h : Blames E x) (hE : ∀ e, E e → E' e) :
    Blames E' x :=
  iff_run.2 fun p _ _ _ hrun => hE _ (iff_run.1 h p hrun)

end Blames

namespace Scope

variable {s : Scope InWorld} {f : Flattening} {location : String} {position : Position}
  {resolve : Tree → String → Resolving InWorld Tree}

theorem blames_orFail {x : Except Directive.Fault α} :
    Blames (Error.Below location) (s.orFail location x) :=
  (Ends.orFail fun _ _ => Error.below_self).mono fun _ _ => trivial

theorem blames_find (raw : String) (entry : IncludeEntry) :
    Blames (Error.Below location) (s.find raw entry location) := by
  refine Blames.iff_run.2 fun p w e w' hrun => ?_
  obtain rfl | ⟨searched, rfl⟩ := find_error hrun
  · exact Error.below_self
  · exact Error.below_self

theorem blames_rebind (es : Entries) : Blames E (rebind position es) := by
  refine Blames.iff_run.2 fun p w e w' hrun => ?_
  cases position <;> cases hrun

section Including

variable (hload : ∀ file chain location, FailsWith (Error.Below location)
  (s.load file chain location))
include hload

theorem blames_included (value : Tree) :
    Blames (Error.Below location) (s.included value location f) := by
  suffices hall : ∀ raws merged, Blames (Error.Below location)
      (s.includeAll f location merged raws) from
    blames_orFail.bind fun raws _ => hall raws .empty
  intro raws
  induction raws with
  | nil => exact fun merged => Ends.pure trivial
  | cons raw rest ih =>
    intro merged
    unfold includeAll
    refine blames_orFail.bind fun entry _ => (blames_find _ _).bind fun found _ => ?_
    cases found with
    | none => exact ih merged
    | some file =>
      refine Ends.bind (Q := fun _ => True) ?_ fun merged _ => ih merged
      refine Blames.iff_run.2 fun p w e w' hrun => ?_
      rw [includeFile_run] at hrun
      -- the file is in the chain already, or has no mapping, or is not loaded
      split at hrun
      · cases hrun
        exact Error.below_self
      · split at hrun
        · split at hrun
          · cases hrun
          · cases hrun
            exact Error.below_self
        next hloaded =>
          cases hrun
          exact hload _ _ _ hloaded

variable (hresolve : ∀ base location, Blames (Error.Below location) (resolve base location))
include hresolve

theorem blames_substitute (passes : Nat) (es : Entries) :
    Blames (Error.Below location) (s.substitute resolve f location position passes es) := by
  refine ends_substitute (I := fun _ => True) Error.below_self ?_ ?_ passes trivial
  · intro es _
    unfold includeStep
    dsimp only
    split
    · exact Ends.pure trivial
    · exact (blames_included hload _).bind fun base _ =>
        (blames_rebind _).bind fun _ _ => Ends.pure trivial
  · intro es hes
    refine ends_useStep (G := fun _ => True) ?_ (fun _ _ _ => trivial)
      (fun _ => blames_rebind _) hes
    intro sources es value _ _ _
    refine blames_orFail.bind fun names _ => Ends.bind (Q := fun _ => True) ?_ fun base _ =>
      (hresolve base location).bind fun _ _ => Ends.pure trivial
    exact ends_mergeSections (fun _ _ => trivial) (fun _ _ _ => Error.below_self)
      (fun _ _ _ _ _ => Error.below_self) (fun _ _ _ _ => trivial) trivial

end Including

theorem blames_resolveEntries {onward : MappingResolver InWorld} {es : Entries}
    (h : ∀ e ∈ es, Blames E (resolveTree onward (childLabel location (Yaml.keyText e.1))
      (position.entry (Yaml.keyText e.1)) e.2)) :
    Blames E (resolveEntries onward location position es) := by
  induction es with
  | nil =>
    unfold resolveEntries
    exact Ends.pure trivial
  | cons e rest ih =>
    obtain ⟨hfirst, hrest⟩ := List.forall_mem_cons.1 h
    unfold resolveEntries
    exact hfirst.bind fun _ _ => (ih hrest).bind fun _ _ => Ends.pure trivial

theorem blames_resolveItems {onward : MappingResolver InWorld} {i : Nat} {items : List Tree}
    (h : ∀ j t, items[j]? = some t → Blames E (resolveTree onward (indexLabel location (i + j))
      (position.item (i + j)) t)) :
    Blames E (resolveItems onward location position i items) := by
  induction items generalizing i with
  | nil =>
    unfold resolveItems
    exact Ends.pure trivial
  | cons t rest ih =>
    unfold resolveItems
    refine (h 0 t rfl).bind fun _ _ => (ih fun j t ht => ?_).bind fun _ _ => Ends.pure trivial
    rw [Nat.add_assoc, Nat.add_comm 1]
    exact h (j + 1) t ht

/-- The resolution of a tree fails as those of its mappings with directives do. Their errors are
carried to the tree along the labels. -/
theorem blames_resolveTree {R : String → Tree → Error → Prop} {onward : MappingResolver InWorld}
    (hentry : ∀ {location es entry e}, entry ∈ es →
      R (childLabel location (Yaml.keyText entry.1)) entry.2 e → R location (.map es) e)
    (hitem : ∀ {location items i t e}, items[i]? = some t → R (indexLabel location i) t e →
      R location (.seq items) e)
    (honward : ∀ es location position, isDirected es = true →
      Blames (R location (.map es)) (onward es location position))
    (t : Tree) (location : String) (position : Position) :
    Blames (R location t) (resolveTree onward location position t) := by
  induction t using Tree.induction generalizing location position with
  | map es ih =>
    unfold resolveTree
    split
    next hdirected => exact honward es location position hdirected
    · exact (blames_resolveEntries fun e he => ((ih e he).2 _ _).imp fun _ => hentry he).bind
        fun _ _ => Ends.pure trivial
  | seq items ih =>
    unfold resolveTree
    refine (blames_resolveItems fun i t ht => ?_).bind fun _ _ => Ends.pure trivial
    rw [Nat.zero_add]
    exact (ih t (List.mem_of_getElem? ht) _ _).imp fun _ => hitem ht
  | _ =>
    unfold resolveTree
    exact Ends.pure trivial

/-- In a resolution that blames the nodes it resolves, so does the whole. -/
theorem blames_resolveTree_below {onward : MappingResolver InWorld}
    (honward : ∀ es location position,
      Blames (Error.Below location) (onward es location position)) (t : Tree) (location : String)
    (position : Position) :
    Blames (Error.Below location) (resolveTree onward location position t) :=
  blames_resolveTree (R := fun location _ => Error.Below location)
    (fun {_ _ entry _} _ h => h.of_extend (.key (Yaml.keyText entry.1)))
    (fun {_ _ i _ _} _ h => h.of_extend (.index i))
    (fun es location position _ => honward es location position) t location position

section Resolving

variable (hload : ∀ file chain location, FailsWith (Error.Below location)
  (s.load file chain location))
include hload

theorem blames_resolveMapping
    (hresolve : ∀ base location, Blames (Error.Below location) (resolve base location))
    (room : Nat) (es : Entries) (location : String) (position : Position) :
    Blames (Error.Below location) (s.resolveMapping resolve room es location position) := by
  induction room generalizing es location position with
  | zero => exact Ends.fail Error.below_self
  | succ room ih =>
    unfold resolveMapping
    dsimp only
    -- the directives, and then the values that they leave, with less room
    refine blames_orFail.bind fun f _ => (blames_substitute hload hresolve _ _).bind fun es _ => ?_
    refine (blames_resolveEntries fun e _ => ?_).bind fun _ _ => Ends.pure trivial
    exact (blames_resolveTree_below ih _ _ _).imp fun _ h => h.of_extend (.key _)

/-- A section is resolved under the label of the mapping that uses it. -/
theorem blames_resolveReused (levels : Nat) (base : Tree) (location : String) :
    Blames (Error.Below location) (s.resolveReused levels base location) := by
  induction levels generalizing base location with
  | zero => exact Ends.fail Error.below_self
  | succ levels ih =>
    exact blames_resolveTree_below (blames_resolveMapping hload ih _) base location none

end Resolving

end Scope

/-! ## Nodes that a resolution reaches -/

/-- A node that is reached is located by the steps that lead to it. -/
theorem Scope.Reaches.location_eq {s : Scope InWorld}
    {resolve : Tree → String → Resolving InWorld Tree} {start v : Visit}
    (h : s.Reaches resolve start v) :
    ∃ steps, v.path = start.path ++ steps ∧ v.location = labelFrom start.location steps := by
  have hnext {v : Visit} (step : Segment) (h : ∃ steps, v.path = start.path ++ steps ∧
      v.location = labelFrom start.location steps) : ∃ steps,
      v.path ++ [step] = start.path ++ steps ∧
        extend v.location step = labelFrom start.location steps := by
    obtain ⟨steps, hpath, hlocation⟩ := h
    refine ⟨steps ++ [step], by rw [hpath, List.append_assoc], ?_⟩
    rw [hlocation, labelFrom_append]
    rfl
  induction h with
  | start => exact ⟨[], by simp, rfl⟩
  | @entry _ _ _ _ name _ _ _ _ _ _ _ _ ih => exact hnext (.key name) ih
  | @item _ lead _ _ _ _ _ _ _ _ ih => exact hnext (.index lead.length) ih
  | @value _ _ _ _ _ _ _ name _ _ _ _ _ _ _ _ _ _ _ _ _ ih => exact hnext (.key name) ih

/-! ## Loading and resolving -/

namespace Settings

open Scope Tree

variable {s : Settings} {o : LoadOptions} {document : Tree} {w w' : World} {e : Error}

theorem failsWith_resolveFor {load : FilePath → List FilePath → String →
      ExceptT Error InWorld (Tree × Ledger)} {request : Request}
    (h : ∀ room, Blames E ((s.scope load request room).resolveDocument request.location
      request.position document)) : FailsWith E (s.resolveFor load request document) :=
  (FailsWith.of_leaves (leaves_nestingRoom trivial_writing.toNoting)).bind fun room =>
    (Blames.iff_run.1 (h room) _).bind fun _ => .pure _

/-- A file is loaded under the label that it is asked for. -/
theorem failsWith_loadFile (budget : Nat) (request : Request) :
    FailsWith (Error.Below request.location)
      (s.loadFile budget request : ExceptT Error InWorld (Tree × Ledger)) := by
  induction budget generalizing request with
  | zero =>
    rintro w e w' ⟨⟩
    exact Error.below_self
  | succ budget ih =>
    unfold loadFile
    refine (FailsWith.of_leaves (leaves_cached trivial_writing _ _)).bind fun hit => ?_
    cases hit with
    | some hit => exact .pure _
    | none =>
      refine FailsWith.bind (fun _ _ _ hrun => by cases hrun) fun document => ?_
      cases document with
      | none =>
        rintro w e w' ⟨⟩
        trivial
      | some document =>
        refine (FailsWith.of_leaves (leaves_add trivial_writing.toNoting _ _)).bind
          fun ledger => (failsWith_resolveFor fun room => ?_).bind fun r =>
            .of_leaves (leaves_keep trivial_writing _ _ _ _ _)
        -- the files that it includes have less budget
        have hload : ∀ file chain location, FailsWith (Error.Below location) (s.loadFile budget
            (s.includedRequest request.pathField file chain location)) :=
          fun file chain location => ih _
        exact blames_resolveTree_below (blames_resolveMapping hload
          (blames_resolveReused hload substitutionLimit) _) _ _ _

theorem blames_directed {owner : FilePath} {budget room depth : Nat} (es : Entries)
    (location : String) (position : Position) :
    let scope := s.scopeFor o owner budget room
    Blames (Error.Below location) (scope.resolveMapping (scope.resolveReused substitutionLimit)
      depth es location position) := by
  have hload : ∀ file chain location, FailsWith (Error.Below location)
      ((s.scopeFor o owner budget room).load file chain location) :=
    fun file chain location => failsWith_loadFile budget _
  exact blames_resolveMapping hload (blames_resolveReused hload substitutionLimit) depth es location
    position

/-- In the resolution of a document an error arises at a mapping of the document. -/
theorem blames_resolveDocument {owner : FilePath} {budget room : Nat} (hdocument : document.Legible)
    (location : String) (position : Position) :
    Blames (Error.Arises location document)
      ((s.scopeFor o owner budget room).resolveDocument location position document) := by
  refine (blames_resolveTree (R := fun location t e => t.Legible → e.Arises location t)
    ?_ ?_ ?_ document location position).imp fun _ h => h hdocument
  · intro location es entry e hentry h hes
    obtain ⟨name, hkey, hname, hget, hvalue⟩ := hes.of_entry hentry
    rw [hkey] at h
    exact (h hvalue).of_step (.key name) hget hname
  · intro location items i t e ht h hitems
    obtain ⟨hindex, hitem⟩ := hitems.of_item ht
    exact (h hitem).of_step (.index i) ht hindex
  · intro es location position hdirected
    exact (blames_directed es location position).imp fun e hbelow _ =>
      ⟨[], es, List.forall_mem_nil _, rfl, hdirected, hbelow⟩

/-- If the error is at a node, its label begins with the steps to a mapping of the document that has
directives, and goes on with steps into what comes of it, if the error is not at the mapping. -/
def LeadsInto (document : Tree) (e : Error) : Prop :=
  ∀ file location reason, e = .unresolved file location reason → Readable location →
    ∃ lead more es, location = label (lead ++ more) ∧ lead <+: parse location ∧
      document.follow? lead = some (.map es) ∧ isDirected es = true

theorem leadsInto_of_arises (h : e.Arises "" document) : LeadsInto document e := by
  rintro file location reason rfl hreadable
  obtain ⟨lead, es, hlead, hfollow, hdirected, more, rfl⟩ := h
  rw [← labelFrom_append] at hreadable ⊢
  exact ⟨lead, more, es, rfl, prefix_parse_label hlead hreadable, hfollow, hdirected⟩

theorem leadsInto_of_load (hlabel : o.label = "") (hdocument : document.Legible) {path : FilePath}
    (hreads : s.Reads o path w document) (hrun : outcome (s.load path o) w = (.error e, w')) :
    LeadsInto document e := by
  obtain ⟨room, w₁, hok, herror⟩ := hreads.load_ends
  rcases hresolve : s.run o (FilePath.normalize w.directory path) w.nodes.length room document w₁
    with ⟨e' | ⟨t, p⟩, w₂⟩
  · obtain rfl : e' = e := by
      cases (herror e' w₂ hresolve).symm.trans hrun
      rfl
    rw [run, hlabel] at hresolve
    exact leadsInto_of_arises (Blames.iff_run.1 (blames_resolveDocument hdocument "" _) _ hresolve)
  · obtain ⟨ledger, w₃, hloaded⟩ := hok t p w₂ hresolve
    cases hloaded.symm.trans hrun

theorem leadsInto_of_resolve (hlabel : o.label = "") (hdocument : document.Legible)
    {owner : FilePath} (hrun : outcome (s.resolve document owner o) w = (.error e, w')) :
    LeadsInto document e := by
  suffices h : FailsWith (Error.Arises o.label document) (s.resolve document owner o) by
    rw [hlabel] at h
    exact leadsInto_of_arises (h hrun)
  exact (FailsWith.of_leaves (leaves_normalize trivial_writing.toNoting _)).bind fun owner =>
    (FailsWith.of_leaves (leaves_fileBound trivial_writing.toNoting)).bind fun budget =>
      failsWith_resolveFor fun room => blames_resolveDocument hdocument _ _

/-- A node that the resolution of a document reaches is found in the document, as it then is, where
its location leads. -/
theorem reached_is_found (hself : o.selfReferences = true) {owner : FilePath}
    {budget room depth : Nat} {l : Ledger} {v : Visit}
    (hreaches : (s.scopeFor o owner budget room).Reaches
      ((s.scopeFor o owner budget room).resolveReused substitutionLimit)
      ⟨depth, "", [], document, ⟨(o.request owner none).sourcesWith document, l⟩, w⟩ v)
    (hpath : ∀ step ∈ v.path, step.Legible) (hreadable : Readable v.location) :
    ∃ own others, v.progress.sources = some (own :: others) ∧
      own.follow? (parse v.location) = some v.tree := by
  have hload : ∀ file chain location, Fulfils (fun _ => True) (fun _ => True) True
      ((s.scopeFor o owner budget room).load file chain location) fun _ => True :=
    fun file chain location =>
      (s.scopeFor_loads owner budget room file chain location).mono id fun _ _ => trivial
  have hstart : Stands (o.sources.getD []) [] document
      ((o.request owner none).sourcesWith document) :=
    ⟨document, by simp [LoadOptions.request, Request.sourcesWith, hself], rfl⟩
  obtain ⟨own, hsources, hspot⟩ :=
    hreaches.stands hload (within_resolveReused hload substitutionLimit) hstart
  obtain ⟨steps, hsteps, hlocation⟩ := hreaches.location_eq
  obtain rfl : v.path = steps := hsteps
  change v.location = label v.path at hlocation
  rw [hlocation] at hreadable ⊢
  rw [(parse_label_iff hpath).2 hreadable]
  exact ⟨own, _, hsources, follow?_of_spot? hspot⟩

/-- An error in the resolution of a node is at the node or below it. -/
theorem below_of_visit {owner : FilePath} {budget room : Nat} {v : Visit}
    (hrun : let scope := s.scopeFor o owner budget room
      outcome ((resolveTree (scope.resolveMapping (scope.resolveReused substitutionLimit) v.room)
        v.location (some v.path) v.tree).run v.progress) v.world = (.error e, w')) :
    e.Below v.location :=
  Blames.iff_run.1 (blames_resolveTree_below blames_directed _ _ _) _ hrun

end Settings

/-! ## Labels -/

/-- Steps that begin with an index and have brackets and quotes in their keys. -/
def scattered : List Segment := [.index 0, .key "a b]", .index 12, .key "\"x"]

/-- Defaults with a text inside. -/
def jobDefaults : Schema where
  defaults := .map [(.str "run", .int 0), (.str "env", .map [(.str "host", .str "a")])]
  strict := true

/-- A section with something else for the text. -/
def misfitJob : Tree := .map [(.str "env", .map [(.str "host", .bool true)])]

/-- A document that uses a section that there is not. -/
def misusingJobs : Tree :=
  .map [(.str "jobs", .seq [.map [(.str "run", .int 1)],
    .map [(.str "env", .map [(.str "_use", .str "nothing")])]])]

/-- A world with the document. -/
def misusingFile : World :=
  .holding [(["m.yml"],
    .file "jobs: [\x7brun: 1\x7d, \x7benv: \x7b_use: nothing\x7d\x7d]\n".toUTF8 ⟨0⟩)]

/-- What is said about it. -/
def nothingThere : Error := .unresolved ⟨"/m.yml"⟩ "jobs[1].env" (.unknownSection "nothing")

end LayeredConfig
