import LayeredConfig.Load
import LayeredConfig.Proofs.Contract
import LayeredConfig.Proofs.Tree.Traversal

/-!
# Files and those that include them

The load of an included file is told by which files it is included and where, and hands this on to
the files it includes itself. It asks only one thing of it: whether a file is included that is being
included already. So two loads of a file that differ in this go through the same steps until one of
them finds a cycle. `Mirrored E x y` says so of two computations `x` and `y`: from the same world,
`y` does what `x` does whenever `x` has a result, or else it ends with an error in `E`.
-/

namespace LayeredConfig

variable {α β : Type}

/-- The error is that files include each other. -/
def Error.IsCycle (e : Error) : Prop :=
  ∃ file location chain, e = .unresolved file location (.cycle chain)

/-- What `x` results in, `y` results in as well and leaves the same world, unless it ends with an
error in `E`. -/
def Mirrored (E : Error → Prop) (x y : ExceptT Error InWorld α) : Prop :=
  ∀ ⦃w a w'⦄, outcome x w = (.ok a, w') →
    outcome y w = (.ok a, w') ∨ ∃ e w₁, outcome y w = (.error e, w₁) ∧ E e

/-- The same of two steps of a resolution, from the same progress. -/
def Retraced (E : Error → Prop) (x y : Resolving InWorld α) : Prop :=
  ∀ p, Mirrored E (x.run p) (y.run p)

namespace Mirrored

variable {E : Error → Prop}

theorem refl (x : ExceptT Error InWorld α) : Mirrored E x x := fun _ _ _ h => .inl h

theorem bind {x y : ExceptT Error InWorld α} {f g : α → ExceptT Error InWorld β}
    (h : Mirrored E x y) (hf : ∀ a, Mirrored E (f a) (g a)) :
    Mirrored E (x >>= f) (y >>= g) := by
  intro w b w' hrun
  obtain ⟨a, w₁, hx, hrest⟩ := outcome_bind_ok hrun
  rcases h hx with hy | ⟨e, w₂, hy, he⟩
  · rw [outcome_bind_of_ok hy]
    exact hf a hrest
  · exact .inr ⟨e, w₂, outcome_bind_of_error hy g, he⟩

/-- Where both have a result it is the same one. -/
theorem eq_of_ok {x y : ExceptT Error InWorld α} {w w₁ w₂ : World} {a b : α} (h : Mirrored E x y)
    (hx : outcome x w = (.ok a, w₁)) (hy : outcome y w = (.ok b, w₂)) : a = b ∧ w₁ = w₂ := by
  rcases h hx with hsame | ⟨e, w', herror, -⟩
  · cases hsame.symm.trans hy
    exact ⟨rfl, rfl⟩
  · cases herror.symm.trans hy

/-- Where only the first has a result, the second fails with an error in `E`. -/
theorem of_error {x y : ExceptT Error InWorld α} {w w₁ w₂ : World} {a : α} {e : Error}
    (h : Mirrored E x y) (hx : outcome x w = (.ok a, w₁)) (hy : outcome y w = (.error e, w₂)) :
    E e := by
  rcases h hx with hsame | ⟨e', w', herror, he⟩
  · cases hsame.symm.trans hy
  · cases herror.symm.trans hy
    exact he

/-- Nothing is asked where the first computation fails. -/
theorem of_throw (e : Error) (y : ExceptT Error InWorld α) : Mirrored E (throw e) y := by
  intro w a w' hrun
  rw [outcome_throw] at hrun
  cases hrun

end Mirrored

namespace Retraced

variable {E : Error → Prop}

theorem refl (x : Resolving InWorld α) : Retraced E x x := fun _ => .refl _

theorem bind {x y : Resolving InWorld α} {f g : α → Resolving InWorld β} (h : Retraced E x y)
    (hf : ∀ a, Retraced E (f a) (g a)) : Retraced E (x >>= f) (y >>= g) :=
  fun p => (h p).bind fun r => hf r.1 r.2

theorem of_fail {s : Scope InWorld} {location : String} {reason : Unresolved}
    (y : Resolving InWorld α) : Retraced E (s.fail location reason) y := fun _ => .of_throw _ _

theorem of_fail_bind {s : Scope InWorld} {location : String} {reason : Unresolved}
    {f : β → Resolving InWorld α} (y : Resolving InWorld α) :
    Retraced E (s.fail location reason >>= f) y := fun _ => .of_throw _ _

/-- The second step may fail where only its error tells it from the first. -/
theorem fail {s : Scope InWorld} {location : String} {reason : Unresolved}
    (x : Resolving InWorld α) (h : E (.unresolved s.owner location reason)) :
    Retraced E x (s.fail location reason) :=
  fun _ w _ _ _ => .inr ⟨_, w, rfl, h⟩

theorem lift {x y : ExceptT Error InWorld α} (h : Mirrored E x y) :
    Retraced E (liftM x : Resolving InWorld α) (liftM y) :=
  fun _ => h.bind fun _ => .refl _

end Retraced

/-! ## The steps of a resolution -/

/-- The same resolution for other includers. -/
def Scope.under (s : Scope InWorld) (chain : List FilePath)
    (load : FilePath → List FilePath → String → ExceptT Error InWorld (Tree × Ledger)) :
    Scope InWorld := { s with chain := chain, load := load }

namespace Scope

variable {s : Scope InWorld} {chain : List FilePath}
  {load : FilePath → List FilePath → String → ExceptT Error InWorld (Tree × Ledger)}
  {location location' : String} {f : Flattening} {position : Position}

theorem retraced_orFail (x : Except Directive.Fault α) :
    Retraced Error.IsCycle (s.orFail location x) ((s.under chain load).orFail location' x) := by
  cases x with
  | ok a => exact .refl _
  | error fault => exact .of_fail _

theorem retraced_find (raw : String) (entry : IncludeEntry) :
    Retraced Error.IsCycle (s.find raw entry location)
      ((s.under chain load).find raw entry location') := by
  unfold find
  refine Retraced.bind (.refl _) fun searched => Retraced.bind (.refl _) fun found => ?_
  cases found with
  | some file => exact .refl _
  | none =>
    dsimp only
    split
    · exact .refl _
    · split
      · exact .of_fail _
      · exact .of_fail _

section Including

variable (hload : ∀ file location location',
  Mirrored Error.IsCycle (s.load file s.chain location) (load file chain location'))
include hload

/-- The chain is asked here, and nowhere else. -/
theorem retraced_includeFile (merged : Tree) (file : FilePath) :
    Retraced Error.IsCycle (s.includeFile f location merged file)
      ((s.under chain load).includeFile f location' merged file) := by
  unfold includeFile
  by_cases hs : s.chain.contains file
  · rw [if_pos hs]
    exact .of_fail_bind _
  rw [if_neg hs]
  by_cases hchain : (s.under chain load).chain.contains file
  · rw [if_pos hchain]
    exact .fail _ ⟨_, _, _, rfl⟩
  rw [if_neg hchain]
  refine Retraced.bind (.lift (hload _ _ _)) fun (tree, ledger) =>
    Retraced.bind (.refl _) fun _ => ?_
  dsimp only
  split
  · exact .of_fail_bind _
  · exact .refl _

theorem retraced_includeAll (merged : Tree) (raws : List String) :
    Retraced Error.IsCycle (s.includeAll f location merged raws)
      ((s.under chain load).includeAll f location' merged raws) := by
  induction raws generalizing merged with
  | nil => exact .refl _
  | cons raw rest ih =>
    unfold includeAll
    refine (retraced_orFail _).bind fun entry => (retraced_find _ _).bind fun found => ?_
    cases found with
    | none => exact ih merged
    | some file => exact (retraced_includeFile hload _ _).bind ih

theorem retraced_includeStep (es : Entries) :
    Retraced Error.IsCycle (s.includeStep f location position es)
      ((s.under chain load).includeStep f location' position es) := by
  unfold includeStep
  dsimp only
  rw [show (s.under chain load).includes = s.includes from rfl]
  cases if s.includes then Entries.get? es (.str Directive.includeKey) else none with
  | none => exact .refl _
  | some value =>
    refine Retraced.bind ?_ fun _ => .refl _
    exact (retraced_orFail _).bind fun entries => retraced_includeAll hload _ _

end Including

theorem retraced_mergeSections (sources : List Tree) (merged : Tree) (names : List String) :
    Retraced Error.IsCycle (s.mergeSections sources location merged names)
      ((s.under chain load).mergeSections sources location' merged names) := by
  induction names generalizing merged with
  | nil => exact .refl _
  | cons name rest ih =>
    unfold mergeSections
    split
    · exact .of_fail _
    · split
      · exact ih _
      · exact .of_fail _

section Trees

variable {onward onward' : MappingResolver InWorld}

theorem retraced_resolveEntries {es : Entries}
    (h : ∀ e ∈ es, ∀ location location' position, Retraced Error.IsCycle
      (resolveTree onward location position e.2) (resolveTree onward' location' position e.2))
    (location location' : String) (position : Position) :
    Retraced Error.IsCycle (resolveEntries onward location position es)
      (resolveEntries onward' location' position es) := by
  induction es with
  | nil => exact .refl _
  | cons e rest ih =>
    obtain ⟨hfirst, hrest⟩ := List.forall_mem_cons.1 h
    unfold resolveEntries
    exact (hfirst _ _ _).bind fun _ => (ih hrest).bind fun _ => .refl _

theorem retraced_resolveItems {items : List Tree}
    (h : ∀ t ∈ items, ∀ location location' position, Retraced Error.IsCycle
      (resolveTree onward location position t) (resolveTree onward' location' position t))
    (location location' : String) (position : Position) (i : Nat) :
    Retraced Error.IsCycle (resolveItems onward location position i items)
      (resolveItems onward' location' position i items) := by
  induction items generalizing i with
  | nil => exact .refl _
  | cons t rest ih =>
    obtain ⟨hfirst, hrest⟩ := List.forall_mem_cons.1 h
    unfold resolveItems
    exact (hfirst _ _ _).bind fun _ => (ih hrest (i + 1)).bind fun _ => .refl _

/-- The resolutions of a tree go the same way if those of its mappings with directives do. -/
theorem retraced_resolveTree
    (honward : ∀ es location location' position,
      Retraced Error.IsCycle (onward es location position) (onward' es location' position))
    (t : Tree) (location location' : String) (position : Position) :
    Retraced Error.IsCycle (resolveTree onward location position t)
      (resolveTree onward' location' position t) := by
  induction t using Tree.induction generalizing location location' position with
  | map es ih =>
    unfold resolveTree
    split
    · exact honward es _ _ _
    · exact (retraced_resolveEntries (fun e he => (ih e he).2) _ _ _).bind fun _ => .refl _
  | seq items ih =>
    unfold resolveTree
    exact (retraced_resolveItems ih _ _ _ 0).bind fun _ => .refl _
  | _ =>
    unfold resolveTree
    exact .refl _

end Trees

section Resolving

variable {resolve resolve' : Tree → String → Resolving InWorld Tree}

theorem retraced_useStep
    (hresolve : ∀ base location location',
      Retraced Error.IsCycle (resolve base location) (resolve' base location'))
    (es : Entries) :
    Retraced Error.IsCycle (s.useStep resolve f location position es)
      ((s.under chain load).useStep resolve' f location' position es) := by
  unfold useStep reused
  dsimp only
  refine Retraced.bind (.refl _) fun progress => ?_
  split
  · refine Retraced.bind ?_ fun _ => .refl _
    exact (retraced_orFail _).bind fun names => (retraced_mergeSections _ _ _).bind fun base =>
      (hresolve _ _ _).bind fun _ => .refl _
  · exact .refl _

variable (hload : ∀ file location location',
  Mirrored Error.IsCycle (s.load file s.chain location) (load file chain location'))
  (hresolve : ∀ base location location',
    Retraced Error.IsCycle (resolve base location) (resolve' base location'))
include hload hresolve

theorem retraced_substitute (passes : Nat) (es : Entries) :
    Retraced Error.IsCycle (s.substitute resolve f location position passes es)
      ((s.under chain load).substitute resolve' f location' position passes es) := by
  induction passes generalizing es with
  | zero =>
    unfold substitute
    refine Retraced.bind (.refl _) fun pending => ?_
    split
    · exact .refl _
    · exact .of_fail _
  | succ passes ih =>
    unfold substitute
    refine Retraced.bind (.refl _) fun pending => ?_
    split
    · exact .refl _
    · exact (retraced_includeStep hload es).bind fun es =>
        (retraced_useStep hresolve es).bind fun es => ih es

theorem retraced_resolveMapping (room : Nat) (es : Entries) (location location' : String)
    (position : Position) :
    Retraced Error.IsCycle (s.resolveMapping resolve room es location position)
      ((s.under chain load).resolveMapping resolve' room es location' position) := by
  induction room generalizing es location location' position with
  | zero => exact .of_fail _
  | succ room ih =>
    unfold resolveMapping
    dsimp only
    refine (retraced_orFail _).bind fun flattening =>
      (retraced_substitute hload hresolve _ _).bind fun es => ?_
    exact (retraced_resolveEntries (fun e _ => retraced_resolveTree ih e.2) _ _ _).bind
      fun _ => .refl _

omit hresolve in
theorem retraced_resolveReused (levels : Nat) (base : Tree) (location location' : String) :
    Retraced Error.IsCycle (s.resolveReused levels base location)
      ((s.under chain load).resolveReused levels base location') := by
  induction levels generalizing base location location' with
  | zero => exact .of_fail _
  | succ levels ih => exact retraced_resolveTree (retraced_resolveMapping hload ih _) _ _ _ _

omit hresolve in
theorem retraced_resolveDocument (location location' : String) (position : Position)
    (document : Tree) :
    Retraced Error.IsCycle (s.resolveDocument location position document)
      ((s.under chain load).resolveDocument location' position document) :=
  retraced_resolveTree
    (retraced_resolveMapping hload (retraced_resolveReused hload substitutionLimit) _) _ _ _ _

end Resolving

end Scope

/-! ## Loads of an included file -/

/-- The requests differ at most in who includes the file and where. -/
def Request.Akin (request request' : Request) : Prop :=
  ∃ chain location, request' = { request with chain := chain, location := location }

theorem Request.Akin.refl (request : Request) : request.Akin request :=
  ⟨request.chain, request.location, rfl⟩

theorem Request.Akin.symm {request request' : Request} (h : request.Akin request') :
    request'.Akin request := by
  obtain ⟨chain, location, rfl⟩ := h
  exact ⟨request.chain, request.location, rfl⟩

namespace Settings

variable {s : Settings} {field : Option String} {file : FilePath} {chain chain' : List FilePath}
  {location location' : String}

/-- Without a cache, requests that differ only in who includes the file and where are answered the
same way, if the second may go as deep as the first. -/
theorem mirrored_akin (hcache : s.cache = none) {budget budget' : Nat} (h : budget ≤ budget')
    {request request' : Request} (hakin : request.Akin request') :
    Mirrored Error.IsCycle (s.loadFile budget request) (s.loadFile budget' request') := by
  induction budget generalizing budget' request request' with
  | zero => exact .of_throw _ _
  | succ budget ih =>
    obtain ⟨budget', rfl⟩ : ∃ n, budget' = n + 1 := ⟨budget' - 1, by omega⟩
    obtain ⟨chain', location', rfl⟩ := hakin
    have hstore : s.storeFor? request.cacheKeys = none := by
      simp [storeFor?, store?, hcache]
    unfold loadFile
    dsimp only
    rw [hstore]
    refine Mirrored.bind (.refl _) fun answer => ?_
    cases answer with
    | some hit => exact .refl _
    | none =>
      refine Mirrored.bind (.refl _) fun document => ?_
      cases document with
      | none => exact .of_throw _ _
      | some document =>
        refine Mirrored.bind (.refl _) fun added => Mirrored.bind ?_ fun _ => .refl _
        unfold resolveFor
        refine Mirrored.bind (.refl _) fun room => Mirrored.bind ?_ fun _ => .refl _
        exact Scope.retraced_resolveDocument (fun file location location' =>
          ih (by omega) ⟨_, _, rfl⟩) _ _ _ document _

/-- Without a cache the loads of an included file go the same way, whatever it is included by, if
the second may go as deep as the first. -/
theorem mirrored_loadFile (hcache : s.cache = none) {budget budget' : Nat}
    (h : budget ≤ budget') (file : FilePath) (chain chain' : List FilePath)
    (location location' : String) : Mirrored Error.IsCycle
      (s.loadFile budget (s.includedRequest field file chain location))
      (s.loadFile budget' (s.includedRequest field file chain' location')) :=
  mirrored_akin hcache h ⟨_, _, rfl⟩

/-- The result of an included file does not depend on who includes it. Where two loads of it without
a cache, for different chains of includers and locations, both have a result, it is the same tree
with the same ledger. Where one has a result and the other, which may go as deep, fails, it is
because files include each other. -/
theorem included_result_is_shared (hcache : s.cache = none) (budget budget' : Nat)
    (field : Option String) (file : FilePath) (chain chain' : List FilePath)
    (location location' : String) (w : World) :
    (∀ r r' w₁ w₁',
      outcome (s.loadFile budget (s.includedRequest field file chain location)) w =
        (.ok r, w₁) →
      outcome (s.loadFile budget' (s.includedRequest field file chain' location')) w =
        (.ok r', w₁') → r = r' ∧ w₁ = w₁') ∧
    (budget ≤ budget' → ∀ r e w₁ w₁',
      outcome (s.loadFile budget (s.includedRequest field file chain location)) w =
        (.ok r, w₁) →
      outcome (s.loadFile budget' (s.includedRequest field file chain' location')) w =
        (.error e, w₁') → e.IsCycle) := by
  refine ⟨fun r r' w₁ w₁' h h' => ?_, fun hle r e w₁ w₁' h h' => ?_⟩
  · -- The load that may go deeper mirrors the other.
    rcases Nat.le_total budget budget' with hle | hle
    · exact (mirrored_loadFile hcache hle file chain chain' location location').eq_of_ok h h'
    · obtain ⟨hr, hw⟩ :=
        (mirrored_loadFile hcache hle file chain' chain location' location).eq_of_ok h' h
      exact ⟨hr.symm, hw.symm⟩
  · exact (mirrored_loadFile hcache hle file chain chain' location location').of_error h h'

/-- Two files, one of which includes the other. -/
def outerAndInner : World := .holding [
  (["o.yml"], .file "_include: i.yml\n".toUTF8 ⟨0⟩),
  (["i.yml"], .file "a: {b: 1}\n".toUTF8 ⟨0⟩)]

/-- The outer file has the same result for two includers, but not for the inner file. -/
theorem outer_result_is_shared :
    ∃ r w₁ e w₂,
      outcome (default.loadFile 3 (default.includedRequest none ⟨"/o.yml"⟩ [⟨"/r.yml"⟩] "x"))
        outerAndInner = (.ok r, w₁) ∧
      outcome (default.loadFile 2 (default.includedRequest none ⟨"/o.yml"⟩ [] "y"))
        outerAndInner = (.ok r, w₁) ∧
      outcome (default.loadFile 3 (default.includedRequest none ⟨"/o.yml"⟩ [⟨"/i.yml"⟩] "x"))
        outerAndInner = (.error e, w₂) ∧ e.IsCycle := by
  have hfirst : succeeds (default.loadFile 3 (default.includedRequest none ⟨"/o.yml"⟩ [⟨"/r.yml"⟩]
      "x")) outerAndInner (fun _ _ => true) := by decide +kernel
  have hsecond : succeeds (default.loadFile 2 (default.includedRequest none ⟨"/o.yml"⟩ [] "y"))
      outerAndInner (fun _ _ => true) := by decide +kernel
  have hthird : ¬ succeeds (default.loadFile 3 (default.includedRequest none ⟨"/o.yml"⟩
      [⟨"/i.yml"⟩] "x")) outerAndInner (fun _ _ => true) := by decide +kernel
  obtain ⟨r, w₁, hr, -⟩ := succeeds_iff.1 hfirst
  obtain ⟨r', w₁', hr', -⟩ := succeeds_iff.1 hsecond
  rcases he : outcome (default.loadFile 3 (default.includedRequest none ⟨"/o.yml"⟩
    [⟨"/i.yml"⟩] "x")) outerAndInner with ⟨e | r₃, w₂⟩
  · obtain ⟨hsame, -⟩ := included_result_is_shared (s := default) rfl 3 2 none ⟨"/o.yml"⟩
      [⟨"/r.yml"⟩] [] "x" "y" outerAndInner
    obtain ⟨rfl, rfl⟩ := hsame r r' w₁ w₁' hr hr'
    obtain ⟨-, hcycle⟩ := included_result_is_shared (s := default) rfl 3 3 none ⟨"/o.yml"⟩
      [⟨"/r.yml"⟩] [⟨"/i.yml"⟩] "x" "x" outerAndInner
    exact ⟨r, w₁, e, w₂, hr, hr', rfl, hcycle (Nat.le_refl 3) r e w₁ w₂ hr he⟩
  · exact absurd (succeeds_iff.2 ⟨r₃, w₂, he, rfl⟩) hthird

end Settings

end LayeredConfig
