import LayeredConfig.Proofs.Search
import LayeredConfig.Proofs.Tree.Everywhere

/-!
# The entries a load meets

A load does not say which entries of `_include` it has come upon. `Telling` is a computation that
says it: it meets entries while it runs, and runs as the computation without the telling does. The
resolution of documents and the loading of files are written once more in these terms. Only the
finding of a file is told; all else tells what its parts tell. Leaving out what is told gives back
the load (`tellLoad_run`).
-/

namespace LayeredConfig

variable {α β : Type}

/-! ## What is told -/

/-- An entry of `_include` that a load has come upon. -/
structure Meeting where
  /-- The file that asks for it. -/
  owner : FilePath
  /-- The entry as written. -/
  raw : String
  entry : IncludeEntry
  /-- The places where its file was looked for. -/
  searched : List FilePath
  /-- The file that was found. -/
  found : Option FilePath
deriving DecidableEq, Repr

/-- The meeting of an entry in a world. -/
def Settings.meeting (s : Settings) (w : World) (owner : FilePath) (raw : String)
    (entry : IncludeEntry) : Meeting :=
  let searched := s.places w owner entry
  { owner := owner
    raw := raw
    entry := entry
    searched := searched
    found := (searched.find? w.hasFile).map (FilePath.normalize w.directory) }

/-- A computation that may fail, and the entries it meets when it is begun in a world. -/
structure Telling (α : Type) where
  run : ExceptT Error InWorld α
  meets : World → List Meeting

namespace Telling

/-- Meet nothing. -/
def quiet (x : ExceptT Error InWorld α) : Telling α := ⟨x, fun _ => []⟩

/-- What is met in the world a computation leaves, if it has a result. -/
def after (x : ExceptT Error InWorld α) (meets : α → World → List Meeting) (w : World) :
    List Meeting :=
  match outcome x w with
  | (.ok a, w') => meets a w'
  | (.error _, _) => []

instance : Monad Telling where
  pure a := quiet (pure a)
  bind x f :=
    { run := x.run >>= fun a => (f a).run
      meets := fun w => x.meets w ++ after x.run (fun a => (f a).meets) w }

theorem run_bind (x : Telling α) (f : α → Telling β) :
    (x >>= f).run = x.run >>= fun a => (f a).run := rfl

theorem after_of_ok {x : ExceptT Error InWorld α} {w w' : World} {a : α}
    (h : outcome x w = (.ok a, w')) (meets : α → World → List Meeting) :
    after x meets w = meets a w' := by
  rw [after, h]

/-- A result comes from one of a first part that meets nothing, and what is met is met after it. -/
theorem quiet_bind_ok {x : ExceptT Error InWorld α} {f : α → Telling β} {w w' : World} {b : β}
    (h : outcome (quiet x >>= f).run w = (.ok b, w')) :
    ∃ a w₁, outcome x w = (.ok a, w₁) ∧ outcome (f a).run w₁ = (.ok b, w') ∧
      (quiet x >>= f).meets w = (f a).meets w₁ := by
  obtain ⟨a, w₁, hx, hf⟩ := outcome_bind_ok h
  exact ⟨a, w₁, hx, hf, after_of_ok hx _⟩

/-- A result comes from one of the first part, and all is met in it if the second meets nothing. -/
theorem bind_quiet_ok {x : Telling α} {f : α → ExceptT Error InWorld β} {w w' : World} {b : β}
    (h : outcome (x >>= fun a => quiet (f a)).run w = (.ok b, w')) :
    ∃ a w₁, outcome x.run w = (.ok a, w₁) ∧ outcome (f a) w₁ = (.ok b, w') ∧
      (x >>= fun a => quiet (f a)).meets w = x.meets w := by
  obtain ⟨a, w₁, hx, hf⟩ := outcome_bind_ok h
  refine ⟨a, w₁, hx, hf, ?_⟩
  change x.meets w ++ after x.run (fun _ _ => []) w = _
  rw [after_of_ok hx, List.append_nil]

end Telling

/-- A step of a resolution that tells what it meets. -/
abbrev Relating := StateT Progress Telling

namespace Relating

/-- Meet nothing. -/
def quiet (x : Resolving InWorld α) : Relating α := fun p => Telling.quiet (x.run p)

/-- The step without what it tells. -/
def plain (x : Relating α) : Resolving InWorld α := fun p => (x.run p).run

@[simp] theorem plain_quiet (x : Resolving InWorld α) : (quiet x).plain = x := rfl

@[simp] theorem plain_pure (a : α) : (pure a : Relating α).plain = pure a := rfl

theorem plain_bind (x : Relating α) (f : α → Relating β) :
    (x >>= f).plain = x.plain >>= fun a => (f a).plain := rfl

@[simp] theorem plain_get : (get : Relating Progress).plain = get := rfl

/-- Two steps in a row are the plain ones if each of them is. -/
theorem plain_bind_eq {x : Relating α} {f : α → Relating β} {y : Resolving InWorld α}
    {g : α → Resolving InWorld β} (hx : x.plain = y) (hf : ∀ a, (f a).plain = g a) :
    (x >>= f).plain = y >>= g := by
  rw [plain_bind, hx]
  exact congrArg _ (funext hf)

end Relating

open Relating (quiet)

/-! ## The steps of a resolution -/

namespace Scope

variable (s : Scope InWorld) (heard : FilePath → List FilePath → String → World → List Meeting)

/-- Find the file of an entry and tell it. -/
def tellFind (raw : String) (entry : IncludeEntry) (location : String) :
    Relating (Option FilePath) := fun p =>
  { run := (s.find raw entry location).run p
    meets := fun w => [s.settings.meeting w s.owner raw entry] }

/-- Load a file that is included; what is met in it is `heard`. -/
def tellInclude (flattening : Flattening) (location : String) (merged : Tree) (file : FilePath) :
    Relating Tree := fun p =>
  { run := (s.includeFile flattening location merged file).run p
    meets := heard file s.chain location }

/-- Merge the files that entries name. -/
def tellAll (flattening : Flattening) (location : String) : (merged : Tree) → List String →
    Relating Tree
  | merged, [] => return merged
  | merged, raw :: rest => do
    let entry ← quiet (s.orFail location (IncludeEntry.parse raw))
    match ← s.tellFind raw entry location with
    | none => tellAll flattening location merged rest
    | some file => do
      let merged ← s.tellInclude heard flattening location merged file
      tellAll flattening location merged rest

/-- What a value of `_include` pulls in. -/
def tellIncluded (value : Tree) (location : String) (flattening : Flattening) : Relating Tree := do
  let entries ← quiet (s.orFail location (Directive.names Directive.includeKey value))
  s.tellAll heard flattening location .empty entries

/-- What a value of `_use` pulls in. -/
def tellReused (resolve : Tree → String → Relating Tree) (sources : List Tree) (value : Tree)
    (location : String) (flattening : Flattening) : Relating Tree := do
  let names ← quiet (s.orFail location (Directive.names Directive.useKey value))
  let base ← quiet (s.mergeSections sources location .empty names)
  return (← resolve base location).flatten flattening.separator flattening.depth

/-- Carry out an `_include` of a mapping, if it has one. -/
def tellIncludeStep (flattening : Flattening) (location : String) (position : Position)
    (es : Entries) : Relating Entries := do
  let key : Tree := .str Directive.includeKey
  match if s.includes then Entries.get? es key else none with
  | none => return es
  | some value =>
    let base ← s.tellIncluded heard value location flattening
    let es := Tree.underlay base (Entries.erase es key)
    quiet (rebind position es)
    return es

/-- Carry out a `_use` of a mapping, if it has one and there are sources. -/
def tellUseStep (resolve : Tree → String → Relating Tree) (flattening : Flattening)
    (location : String) (position : Position) (es : Entries) : Relating Entries := do
  let key : Tree := .str Directive.useKey
  match (← get).sources, Entries.get? es key with
  | some sources, some value =>
    let base ← s.tellReused resolve sources value location flattening
    let es := Tree.underlay base (Entries.erase es key)
    quiet (rebind position es)
    return es
  | _, _ => return es

/-- Carry out the directives of a mapping until none is left. -/
def tellSubstitute (resolve : Tree → String → Relating Tree) (flattening : Flattening)
    (location : String) (position : Position) : (passes : Nat) → Entries → Relating Entries
  | passes, es => do
    if !(← quiet (s.isPending es)) then return es
    match passes with
    | 0 => quiet (s.fail location .tooManySubstitutions)
    | passes + 1 =>
      let es ← s.tellIncludeStep heard flattening location position es
      let es ← s.tellUseStep resolve flattening location position es
      tellSubstitute resolve flattening location position passes es

/-- Resolves a mapping that has directives. -/
abbrev MappingTeller := Entries → String → Position → Relating Tree

mutual

/-- Resolve a tree, its mappings with directives by `onward`. -/
def tellTree (onward : MappingTeller) (location : String) (position : Position) :
    Tree → Relating Tree
  | .map es =>
    if isDirected es then onward es location position
    else do return .map (← tellEntries onward location position es)
  | .seq items => do return .seq (← tellItems onward location position 0 items)
  | t => return t

/-- Resolve the values of entries. -/
def tellEntries (onward : MappingTeller) (location : String) (position : Position) :
    List (Tree × Tree) → Relating (List (Tree × Tree))
  | [] => return []
  | (key, value) :: rest => do
    let name := Yaml.keyText key
    let value ← tellTree onward (SectionPath.childLabel location name) (position.entry name) value
    return (key, value) :: (← tellEntries onward location position rest)

/-- Resolve items, the first of which has an index. -/
def tellItems (onward : MappingTeller) (location : String) (position : Position) (i : Nat) :
    List Tree → Relating (List Tree)
  | [] => return []
  | item :: rest => do
    let item ← tellTree onward (SectionPath.indexLabel location i) (position.item i) item
    return item :: (← tellItems onward location position (i + 1) rest)

end

/-- Resolve a mapping that has directives. -/
def tellMapping (resolve : Tree → String → Relating Tree) : (room : Nat) → MappingTeller
  | 0 => fun _ location _ => quiet (s.fail location .unbounded)
  | room + 1 => fun es location position => do
    let (es, flattening) := Flattening.take es
    let flattening ← quiet (s.orFail location flattening)
    let es ← s.tellSubstitute heard resolve flattening location position substitutionLimit es
    return .map (← tellEntries (tellMapping resolve room) location position es)

/-- Resolve reused sections. -/
def tellSections : (levels : Nat) → Tree → String → Relating Tree
  | 0, _, location => quiet (s.fail location .tooManySubstitutions)
  | levels + 1, base, location =>
    tellTree (s.tellMapping heard (tellSections levels) (s.room + base.nodeCount)) location none
      base

/-- Resolve a document. -/
def tellDocument (location : String) (position : Position) (document : Tree) : Relating Tree :=
  tellTree
    (s.tellMapping heard (s.tellSections heard substitutionLimit) (s.room + document.nodeCount))
    location position document

end Scope

/-! ## The loading of files -/

namespace Settings

variable (s : Settings)

/-- Resolve a document for a request. -/
def tellResolve (load : FilePath → List FilePath → String →
      ExceptT Error InWorld (Tree × Ledger))
    (heard : FilePath → List FilePath → String → World → List Meeting) (request : Request)
    (document : Tree) : Telling (Tree × Ledger) := do
  let scope := s.scope load request (← Telling.quiet nestingRoom)
  let (tree, progress) ←
    (scope.tellDocument heard request.location request.position document).run
      ⟨request.sourcesWith document, Ledger.empty⟩
  return (tree, progress.ledger)

/-- Load a file. -/
def tellFile : (budget : Nat) → Request → Telling (Tree × Ledger)
  | 0, request => Telling.quiet (throw (.unresolved request.path request.location .unbounded))
  | budget + 1, request => do
    let store := s.storeFor? request.cacheKeys
    match ← Telling.quiet (cached store [request.path]) with
    | some hit => return hit
    | none =>
      match ← Telling.quiet (Host.document request.path) with
      | none => Telling.quiet (throw (.unreadable request.path))
      | some document =>
        let ledger ← Telling.quiet (Ledger.empty.add request.path)
        let next := s.includedRequest request.pathField
        let (tree, consulted) ← s.tellResolve
          (fun path chain location => s.loadFile budget (next path chain location))
          (fun path chain location => (tellFile budget (next path chain location)).meets)
          request document
        Telling.quiet (keep store [request.path] request.path.text
          (withPath request.pathField request.path tree) (ledger.update consulted))

/-- Load one file. -/
def tellLoad (path : FilePath) (o : LoadOptions) : Telling (Tree × Ledger) := do
  let path ← Telling.quiet (Host.normalize path)
  s.tellFile ((← Telling.quiet Host.fileBound) + 1) (o.request path (s.loadKeys? o))

end Settings

/-! ## Leaving out what is told -/

namespace Scope

variable {s : Scope InWorld} {heard : FilePath → List FilePath → String → World → List Meeting}
  {resolve : Tree → String → Relating Tree} {resolve' : Tree → String → Resolving InWorld Tree}

theorem tellAll_plain (f : Flattening) (location : String) (merged : Tree) (raws : List String) :
    (s.tellAll heard f location merged raws).plain = s.includeAll f location merged raws := by
  induction raws generalizing merged with
  | nil => rfl
  | cons raw rest ih =>
    unfold tellAll includeAll
    refine Relating.plain_bind_eq rfl fun entry => Relating.plain_bind_eq rfl fun found => ?_
    cases found with
    | none => exact ih merged
    | some file => exact Relating.plain_bind_eq rfl fun merged => ih merged

theorem tellIncludeStep_plain (f : Flattening) (location : String) (position : Position)
    (es : Entries) :
    (s.tellIncludeStep heard f location position es).plain =
      s.includeStep f location position es := by
  unfold tellIncludeStep includeStep
  dsimp only
  generalize (if s.includes then Entries.get? es (.str Directive.includeKey) else none) = value
  cases value with
  | none => rfl
  | some value =>
    refine Relating.plain_bind_eq ?_ fun _ => rfl
    exact Relating.plain_bind_eq rfl fun _ => tellAll_plain _ _ _ _

section Sections

variable (hresolve : ∀ base location, (resolve base location).plain = resolve' base location)
include hresolve

theorem tellUseStep_plain (f : Flattening) (location : String) (position : Position)
    (es : Entries) :
    (s.tellUseStep resolve f location position es).plain =
      s.useStep resolve' f location position es := by
  unfold tellUseStep useStep
  dsimp only
  refine Relating.plain_bind_eq rfl fun progress => ?_
  generalize progress.sources = sources
  generalize Entries.get? es (.str Directive.useKey) = value
  cases sources with
  | none => rfl
  | some sources =>
    cases value with
    | none => rfl
    | some value =>
      refine Relating.plain_bind_eq ?_ fun _ => rfl
      refine Relating.plain_bind_eq rfl fun _ => Relating.plain_bind_eq rfl fun _ => ?_
      exact Relating.plain_bind_eq (hresolve _ _) fun _ => rfl

theorem tellSubstitute_plain (f : Flattening) (location : String) (position : Position)
    (passes : Nat) (es : Entries) :
    (s.tellSubstitute heard resolve f location position passes es).plain =
      s.substitute resolve' f location position passes es := by
  induction passes generalizing es with
  | zero =>
    unfold tellSubstitute substitute
    refine Relating.plain_bind_eq rfl fun pending => ?_
    cases pending <;> rfl
  | succ passes ih =>
    unfold tellSubstitute substitute
    refine Relating.plain_bind_eq rfl fun pending => ?_
    cases pending with
    | false => rfl
    | true =>
      refine Relating.plain_bind_eq (tellIncludeStep_plain _ _ _ _) fun es => ?_
      exact Relating.plain_bind_eq (tellUseStep_plain hresolve _ _ _ _) fun es => ih es

end Sections

section Trees

variable {onward : MappingTeller} {onward' : MappingResolver InWorld}

theorem tellEntries_plain {es : List (Tree × Tree)}
    (h : ∀ e ∈ es, ∀ location position,
      (tellTree onward location position e.2).plain = resolveTree onward' location position e.2)
    (location : String) (position : Position) :
    (tellEntries onward location position es).plain =
      resolveEntries onward' location position es := by
  induction es with
  | nil =>
    unfold tellEntries resolveEntries
    rfl
  | cons e rest ih =>
    unfold tellEntries resolveEntries
    refine Relating.plain_bind_eq (h e List.mem_cons_self _ _) fun _ => ?_
    exact Relating.plain_bind_eq (ih fun e he => h e (List.mem_cons_of_mem _ he)) fun _ => rfl

theorem tellItems_plain {items : List Tree}
    (h : ∀ t ∈ items, ∀ location position,
      (tellTree onward location position t).plain = resolveTree onward' location position t)
    (location : String) (position : Position) (i : Nat) :
    (tellItems onward location position i items).plain =
      resolveItems onward' location position i items := by
  induction items generalizing i with
  | nil =>
    unfold tellItems resolveItems
    rfl
  | cons t rest ih =>
    unfold tellItems resolveItems
    refine Relating.plain_bind_eq (h t List.mem_cons_self _ _) fun _ => ?_
    exact Relating.plain_bind_eq (ih (fun t ht => h t (List.mem_cons_of_mem _ ht)) _) fun _ => rfl

theorem tellTree_plain
    (honward : ∀ es location position,
      (onward es location position).plain = onward' es location position)
    (t : Tree) (location : String) (position : Position) :
    (tellTree onward location position t).plain = resolveTree onward' location position t := by
  induction t using Tree.induction generalizing location position with
  | map es ih =>
    unfold tellTree resolveTree
    split
    · exact honward _ _ _
    · refine Relating.plain_bind_eq ?_ fun _ => rfl
      exact tellEntries_plain (fun e he => (ih e he).2) _ _
  | seq items ih =>
    unfold tellTree resolveTree
    exact Relating.plain_bind_eq (tellItems_plain ih _ _ _) fun _ => rfl
  | _ =>
    unfold tellTree resolveTree
    rfl

end Trees

theorem tellMapping_plain
    (hresolve : ∀ base location, (resolve base location).plain = resolve' base location)
    (room : Nat) (es : Entries) (location : String) (position : Position) :
    (s.tellMapping heard resolve room es location position).plain =
      s.resolveMapping resolve' room es location position := by
  induction room generalizing es location position with
  | zero => rfl
  | succ room ih =>
    unfold tellMapping resolveMapping
    dsimp only
    refine Relating.plain_bind_eq rfl fun f => ?_
    refine Relating.plain_bind_eq (tellSubstitute_plain hresolve _ _ _ _ _) fun es => ?_
    refine Relating.plain_bind_eq (tellEntries_plain (fun e _ => ?_) _ _) fun _ => rfl
    exact tellTree_plain ih e.2

theorem tellSections_plain (levels : Nat) (base : Tree) (location : String) :
    (s.tellSections heard levels base location).plain = s.resolveReused levels base location := by
  induction levels generalizing base location with
  | zero => rfl
  | succ levels ih =>
    unfold tellSections resolveReused
    exact tellTree_plain (tellMapping_plain ih _) _ _ _

theorem tellDocument_plain (location : String) (position : Position) (document : Tree) :
    (s.tellDocument heard location position document).plain =
      s.resolveDocument location position document :=
  tellTree_plain (tellMapping_plain (tellSections_plain _) _) _ _ _

end Scope

namespace Settings

variable {s : Settings}

theorem tellResolve_run (load : FilePath → List FilePath → String →
      ExceptT Error InWorld (Tree × Ledger))
    (heard : FilePath → List FilePath → String → World → List Meeting) (request : Request)
    (document : Tree) :
    (s.tellResolve load heard request document).run = s.resolveFor load request document := by
  unfold tellResolve resolveFor
  rw [Telling.run_bind]
  refine bind_congr fun room => ?_
  rw [Telling.run_bind]
  have hdocument : ((s.scope load request room).tellDocument heard request.location
      request.position document).plain = _ := Scope.tellDocument_plain _ _ _
  exact congrArg (fun x : Resolving InWorld Tree =>
    x.run ⟨request.sourcesWith document, Ledger.empty⟩ >>= fun r => pure (r.1, r.2.ledger))
    hdocument

theorem tellFile_run (budget : Nat) (request : Request) :
    (s.tellFile budget request).run = s.loadFile budget request := by
  cases budget with
  | zero => rfl
  | succ budget =>
    rw [tellFile, loadFile]
    rw [Telling.run_bind]
    refine bind_congr fun hit => ?_
    cases hit with
    | some hit => rfl
    | none =>
      dsimp only
      rw [Telling.run_bind]
      refine bind_congr fun document => ?_
      cases document with
      | none => rfl
      | some document =>
        dsimp only
        rw [Telling.run_bind]
        refine bind_congr fun ledger => ?_
        rw [Telling.run_bind, tellResolve_run]
        rfl

/-- A load that tells what it meets is the load. -/
theorem tellLoad_run (path : FilePath) (o : LoadOptions) :
    (s.tellLoad path o).run = s.load path o := by
  unfold tellLoad load
  rw [Telling.run_bind]
  refine bind_congr fun path => ?_
  rw [Telling.run_bind]
  exact bind_congr fun bound => tellFile_run _ _

end Settings

end LayeredConfig
