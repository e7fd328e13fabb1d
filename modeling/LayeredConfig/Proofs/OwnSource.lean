import LayeredConfig.Proofs.Precedence
import LayeredConfig.Proofs.Tree.Spot
import Mathlib.Logic.Relation

/-!
# The document as its own source

A document that may refer to itself is its own first source. Each time a directive of one of its
mappings has been carried out, the mapping is put into this source anew, at the section path that
leads to it. A section path names keys by their text, and a key that is no text is written as one:
so the mapping under the key `1` is put where the key `"1"` is, if there is one. Where the keys that
lead to a mapping are texts, and none before them in the same mapping reads the same, it is put
exactly where it stands.
-/

namespace LayeredConfig

open Directive Tree

/-! ## Beside a path -/

/-- The step to the value of a name, or to an item. -/
def Segment.step : Segment → Step
  | .key name => .value (.str name)
  | .index i => .item i

/-- The steps that a section path takes in a document. -/
def stepsOf (path : List Segment) : List Step := path.map Segment.step

theorem stepsOf_append (p q : List Segment) : stepsOf (p ++ q) = stepsOf p ++ stepsOf q :=
  List.map_append

theorem Segment.step_injective : Function.Injective Segment.step := by
  rintro (name | i) (name' | i') h <;> cases h <;> rfl

namespace Tree

/-- What is found at a section path, no index being taken for a key, is what is there. -/
theorem spot?_eq_at? (path : List Segment) (t : Tree) : spot? path t = t.at? (stepsOf path) := by
  induction path generalizing t with
  | nil => simp [spot?, stepsOf]
  | cons segment rest ih =>
    have hrest : spot? rest = fun v => v.at? (stepsOf rest) := funext ih
    cases segment with
    | key name =>
      cases t with
      | map es => rw [spot?, hrest]; rfl
      | _ => rfl
    | index i =>
      cases t with
      | seq items => rw [spot?, hrest]; rfl
      | _ => rfl

/-- The trees have the same at every place that lies neither below nor above a path. -/
def SameBeside (path : List Step) (t t' : Tree) : Prop :=
  ∀ q, ¬ path <+: q → ¬ q <+: path → t'.at? q = t.at? q

namespace SameBeside

variable {path : List Step} {t t' t'' : Tree}

theorem refl (path : List Step) (t : Tree) : SameBeside path t t := fun _ _ _ => rfl

theorem trans (h : SameBeside path t t') (h' : SameBeside path t' t'') : SameBeside path t t'' :=
  fun q hbelow habove => (h' q hbelow habove).trans (h q hbelow habove)

/-- What lies beside a path lies beside every longer one. -/
theorem of_append {rest : List Step} (h : SameBeside (path ++ rest) t t') :
    SameBeside path t t' := by
  intro q hbelow habove
  refine h q (fun hprefix => hbelow ((List.prefix_append path rest).trans hprefix)) ?_
  intro hprefix
  rcases List.prefix_or_prefix_of_prefix hprefix (List.prefix_append path rest) with hq | hq
  · exact habove hq
  · exact hbelow hq

/-- Replacing the value at a path leaves all beside it alone. -/
theorem replace? {value new : Tree} {path : List Segment} (h : replace? value path t = some new) :
    SameBeside (stepsOf path) t new := by
  intro q hbelow habove
  induction path generalizing t new q with
  | nil => exact absurd (List.nil_prefix) hbelow
  | cons segment rest ih =>
    cases q with
    | nil => exact absurd (List.nil_prefix) habove
    | cons step q =>
      -- where the first step is the same, the places differ later
      have hrest (hstep : step = segment.step) :
          ¬ stepsOf rest <+: q ∧ ¬ q <+: stepsOf rest := by
        subst hstep
        exact ⟨fun hp => hbelow (List.cons_prefix_cons.2 ⟨rfl, hp⟩),
          fun hp => habove (List.cons_prefix_cons.2 ⟨rfl, hp⟩)⟩
      cases segment with
      | key name =>
        cases t with
        | map es =>
          obtain ⟨slot, hslot, h⟩ := Option.bind_eq_some_iff.1 h
          obtain ⟨inner, hinner, rfl⟩ := Option.map_eq_some_iff.1 h
          cases step with
          | value key =>
            by_cases hkey : key = .str name
            · subst hkey
              obtain ⟨hbelow, habove⟩ := hrest rfl
              rw [at?_map, at?_map, Entries.get?_modify_self hslot, hslot]
              exact ih hinner q hbelow habove
            · rw [at?_map, at?_map, Entries.get?_modify_of_ne hkey]
          | item i => rfl
        | _ => cases h
      | index i =>
        cases t with
        | seq items =>
          obtain ⟨slot, hslot, h⟩ := Option.bind_eq_some_iff.1 h
          obtain ⟨inner, hinner, rfl⟩ := Option.map_eq_some_iff.1 h
          obtain ⟨hi, -⟩ := List.getElem?_eq_some_iff.1 hslot
          cases step with
          | value key => rfl
          | item j =>
            by_cases hj : j = i
            · subst hj
              obtain ⟨hbelow, habove⟩ := hrest rfl
              rw [at?_seq, at?_seq, List.getElem?_set_self hi, hslot]
              exact ih hinner q hbelow habove
            · rw [at?_seq, at?_seq, List.getElem?_set_ne (Ne.symm hj)]
        | _ => cases h

/-- The value under one name or index is left alone by what changes another. -/
theorem spot?_sibling {lead : List Segment} {a b : Segment} (hne : a ≠ b)
    (h : SameBeside (stepsOf (lead ++ [a])) t t') :
    spot? (lead ++ [b]) t' = spot? (lead ++ [b]) t := by
  have hstep : a.step ≠ b.step := fun h => hne (Segment.step_injective h)
  rw [spot?_eq_at?, spot?_eq_at?]
  refine h _ ?_ ?_ <;> simp [stepsOf, List.prefix_append_right_inj, List.cons_prefix_cons, hstep,
    Ne.symm hstep]

end SameBeside

end Tree

/-! ## What a step does to the sources -/

/-- At most the first source has changed, and only at the path or in what lies below or above. Where
there is no path nothing has changed. -/
def Position.Touches : Position → Option (List Tree) → Option (List Tree) → Prop
  | none, before, after => after = before
  | some path, before, after => after = before ∨ ∃ own new others,
      before = some (own :: others) ∧ after = some (new :: others) ∧
      SameBeside (stepsOf path) own new

namespace Position.Touches

variable {position : Position} {a b c : Option (List Tree)}

theorem refl (position : Position) (a : Option (List Tree)) : position.Touches a a := by
  cases position with
  | none => rfl
  | some path => exact .inl rfl

theorem trans (h : position.Touches a b) (h' : position.Touches b c) : position.Touches a c := by
  cases position with
  | none => exact Eq.trans h' h
  | some path =>
    rcases h with rfl | ⟨own, new, others, rfl, rfl, hbeside⟩
    · exact h'
    · rcases h' with rfl | ⟨own', new', others', heq, rfl, hbeside'⟩
      · exact .inr ⟨own, new, others, rfl, rfl, hbeside⟩
      · cases heq
        exact .inr ⟨own, new', others, rfl, rfl, hbeside.trans hbeside'⟩

/-- What touches the sources at a longer path touches them at the shorter one. -/
theorem of_append {path rest : List Segment}
    (h : Position.Touches (some (path ++ rest)) a b) : Position.Touches (some path) a b := by
  rcases h with rfl | ⟨own, new, others, rfl, rfl, hbeside⟩
  · exact .inl rfl
  · rw [stepsOf_append] at hbeside
    exact .inr ⟨own, new, others, rfl, rfl, hbeside.of_append⟩

theorem of_entry {name : String} (h : (position.entry name).Touches a b) :
    position.Touches a b := by
  cases position with
  | none => exact h
  | some path => exact of_append h

theorem of_item {i : Nat} (h : (position.item i).Touches a b) : position.Touches a b := by
  cases position with
  | none => exact h
  | some path => exact of_append h

end Position.Touches

/-- Every run of the step that has a result touches the sources at the position only. -/
def Within {α : Type} (position : Position) (x : Resolving InWorld α) : Prop :=
  ∀ ⦃p w a p' w'⦄, outcome (x.run p) w = (.ok (a, p'), w') →
    position.Touches p.sources p'.sources

namespace Within

variable {α β : Type} {position : Position}

theorem pure (a : α) : Within position (pure a) := by
  rintro p w _ _ _ ⟨⟩
  exact .refl _ _

theorem bind {x : Resolving InWorld α} {f : α → Resolving InWorld β} (hx : Within position x)
    (hf : ∀ a, Within position (f a)) : Within position (x >>= f) := by
  intro p w b p' w' hrun
  obtain ⟨a, p₁, w₁, hrun₁, hrun₂⟩ := run_bind_ok hrun
  exact (hx hrun₁).trans (hf a hrun₂)

theorem fail {s : Scope InWorld} {location : String} {reason : Unresolved} :
    Within position (s.fail location reason : Resolving InWorld α) := by
  rintro p w _ _ _ ⟨⟩

theorem orFail {s : Scope InWorld} {location : String} {x : Except Directive.Fault α} :
    Within position (s.orFail location x) := by
  intro p w a p' w' hrun
  obtain ⟨-, rfl, rfl⟩ := Scope.orFail_ok hrun
  exact .refl _ _

/-- A step that leaves the sources alone. -/
theorem of_sources {x : Resolving InWorld α} (h : Within none x) : Within position x := by
  intro p w a p' w' hrun
  have hsame : p'.sources = p.sources := h hrun
  rw [hsame]
  exact .refl _ _

theorem of_steps {x : Resolving InWorld α} {Q : α → Prop}
    (h : ∀ sources, Steps (fun _ => True) (fun _ => True) (· = sources) True x Q) :
    Within position x :=
  of_sources fun p _ _ _ _ hrun => ((h p.sources).post trivial hrun rfl).2

end Within

namespace Scope

variable {s : Scope InWorld} {f : Flattening} {location : String} {position : Position}
  {resolve : Tree → String → Resolving InWorld Tree}

/-! ## The steps of a resolution -/

/-- What a mapping that is put anew does to the sources. -/
theorem rebind_ok {es : Entries} {path : List Segment} {p p' : Progress} {w w' : World}
    (h : outcome ((rebind (some path) es).run p) w = (.ok ((), p'), w')) :
    p'.sources = p.sources.map fun
      | [] => []
      | own :: others => (replace? (.map es) path own).getD own :: others := by
  cases h
  rfl

theorem within_rebind (es : Entries) : Within position (rebind position es) := by
  intro p w a p' w' hrun
  cases position with
  | none => exact Within.pure () hrun
  | some path =>
    rw [rebind_ok hrun]
    rcases p.sources with _ | _ | ⟨own, others⟩
    · exact .refl _ _
    · exact .refl _ _
    · refine .inr ⟨own, _, others, rfl, rfl, ?_⟩
      cases hnew : replace? (.map es) path own with
      | none => exact .refl _ own
      | some new => exact .replace? hnew

theorem within_mergeSections (sources : List Tree) (merged : Tree) (names : List String) :
    Within position (s.mergeSections sources location merged names) := by
  intro p w t p' w' hrun
  obtain ⟨rfl, -⟩ := mergeSections_ok hrun
  exact .refl _ _

theorem within_useStep (hresolve : ∀ base location, Within none (resolve base location))
    (es : Entries) : Within position (s.useStep resolve f location position es) := by
  unfold useStep reused
  dsimp only
  refine Within.bind (fun p w a p' w' hrun => ?_) fun progress => ?_
  · cases hrun
    exact .refl _ _
  split
  · refine Within.bind ?_ fun base => (within_rebind _).bind fun _ => .pure _
    exact Within.orFail.bind fun names => (within_mergeSections _ _ _).bind fun base =>
      (Within.of_sources (hresolve _ _)).bind fun _ => .pure _
  · exact .pure _

section Including

variable (hload : ∀ file chain location, Fulfils (fun _ => True) (fun _ => True) True
  (s.load file chain location) fun _ => True)
include hload

/-- Including files does not touch the sources. -/
theorem within_included (value : Tree) : Within position (s.included value location f) :=
  .of_steps fun _ => steps_included (G := fun _ => True) Settings.anyWorld trivial
    (fun _ _ => trivial) hload value

theorem within_includeStep (es : Entries) :
    Within position (s.includeStep f location position es) := by
  unfold includeStep
  dsimp only
  split
  · exact .pure _
  · exact (within_included hload _).bind fun base => (within_rebind _).bind fun _ => .pure _

variable (hresolve : ∀ base location, Within none (resolve base location))
include hresolve

theorem within_substitute (passes : Nat) (es : Entries) :
    Within position (s.substitute resolve f location position passes es) := by
  have hpending (es : Entries) : Within position (s.isPending es) := by
    rintro p w _ _ _ ⟨⟩
    exact .refl _ _
  induction passes generalizing es with
  | zero =>
    unfold substitute
    refine (hpending es).bind fun pending => ?_
    cases pending
    · exact .pure _
    · exact .fail
  | succ passes ih =>
    unfold substitute
    refine (hpending es).bind fun pending => ?_
    cases pending
    · exact .pure _
    · exact (within_includeStep hload es).bind fun es =>
        (within_useStep hresolve es).bind fun es => ih es

end Including

section Trees

variable {onward : MappingResolver InWorld}

theorem within_resolveEntries {es : Entries}
    (h : ∀ e ∈ es, ∀ location position, Within position (resolveTree onward location position e.2))
    (location : String) (position : Position) :
    Within position (resolveEntries onward location position es) := by
  induction es with
  | nil =>
    unfold resolveEntries
    exact .pure _
  | cons e rest ih =>
    obtain ⟨hfirst, hrest⟩ := List.forall_mem_cons.1 h
    unfold resolveEntries
    exact Within.bind (fun p w a p' w' hrun => (hfirst _ _ hrun).of_entry) fun _ =>
      (ih hrest).bind fun _ => .pure _

theorem within_resolveItems {items : List Tree}
    (h : ∀ t ∈ items, ∀ location position, Within position (resolveTree onward location position t))
    (location : String) (position : Position) (i : Nat) :
    Within position (resolveItems onward location position i items) := by
  induction items generalizing i with
  | nil =>
    unfold resolveItems
    exact .pure _
  | cons t rest ih =>
    obtain ⟨hfirst, hrest⟩ := List.forall_mem_cons.1 h
    unfold resolveItems
    exact Within.bind (fun p w a p' w' hrun => (hfirst _ _ hrun).of_item) fun _ =>
      (ih hrest _).bind fun _ => .pure _

/-- Resolving a tree touches the sources where the tree stands, if resolving its mappings with
directives does. -/
theorem within_resolveTree
    (honward : ∀ es location position, Within position (onward es location position)) (t : Tree)
    (location : String) (position : Position) :
    Within position (resolveTree onward location position t) := by
  induction t using Tree.induction generalizing location position with
  | map es ih =>
    unfold resolveTree
    split
    · exact honward _ _ _
    · exact (within_resolveEntries (fun e he => (ih e he).2) _ _).bind fun _ => .pure _
  | seq items ih =>
    unfold resolveTree
    exact (within_resolveItems ih _ _ 0).bind fun _ => .pure _
  | _ =>
    unfold resolveTree
    exact .pure _

end Trees

section Resolving

variable (hload : ∀ file chain location, Fulfils (fun _ => True) (fun _ => True) True
  (s.load file chain location) fun _ => True)
include hload

theorem within_resolveMapping (hresolve : ∀ base location, Within none (resolve base location))
    (room : Nat) (es : Entries) (location : String) (position : Position) :
    Within position (s.resolveMapping resolve room es location position) := by
  induction room generalizing es location position with
  | zero => exact .fail
  | succ room ih =>
    unfold resolveMapping
    dsimp only
    exact Within.orFail.bind fun f => (within_substitute hload hresolve _ _).bind fun es =>
      (within_resolveEntries (fun e _ => within_resolveTree ih e.2) _ _).bind fun _ => .pure _

/-- Reused sections are no part of the document. -/
theorem within_resolveReused (levels : Nat) (base : Tree) (location : String) :
    Within none (s.resolveReused levels base location) := by
  induction levels generalizing base location with
  | zero => exact .fail
  | succ levels ih =>
    exact within_resolveTree (within_resolveMapping hload ih _) base location none

end Resolving

/-! ## Substitutions -/

/-- The first source has a tree at a path, and others follow it. -/
def Stands (others : List Tree) (path : List Segment) (t : Tree)
    (sources : Option (List Tree)) : Prop :=
  ∃ own, sources = some (own :: others) ∧ spot? path own = some t

/-- The first source has a mapping put anew at a path. -/
def Rebinds (others : List Tree) (path : List Segment) (es : Entries)
    (before after : Option (List Tree)) : Prop :=
  ∃ own new, before = some (own :: others) ∧ after = some (new :: others) ∧
    replace? (.map es) path own = some new

/-- A directive of a mapping is carried out: its `_include`, where files are included, or its `_use`,
where there are sources. -/
inductive Substitutes (s : Scope InWorld) (resolve : Tree → String → Resolving InWorld Tree)
    (f : Flattening) (location : String) (position : Position) :
    Entries × Progress × World → Entries × Progress × World → Prop
  | included {es es' : Entries} {p p' : Progress} {w w' : World}
    (hhas : (s.includes && Entries.has es (.str includeKey)) = true)
    (hrun : outcome ((s.includeStep f location position es).run p) w = (.ok (es', p'), w')) :
    Substitutes s resolve f location position (es, p, w) (es', p', w')
  | used {es es' : Entries} {p p' : Progress} {w w' : World}
    (hhas : (p.sources.isSome && Entries.has es (.str useKey)) = true)
    (hrun : outcome ((s.useStep resolve f location position es).run p) w = (.ok (es', p'), w')) :
    Substitutes s resolve f location position (es, p, w) (es', p', w')

/-- The directives of a mapping are carried out one after the other. -/
theorem substitute_row {passes : Nat} {es es' : Entries} {p p' : Progress} {w w' : World}
    (h : outcome ((s.substitute resolve f location position passes es).run p) w =
      (.ok (es', p'), w')) :
    Relation.ReflTransGen (s.Substitutes resolve f location position) (es, p, w) (es', p', w') := by
  induction passes generalizing es p w with
  | zero =>
    unfold substitute at h
    obtain ⟨pending, p₁, w₁, hpending, h⟩ := run_bind_ok h
    cases hpending
    split at h
    · cases h
      exact .refl
    · cases h
  | succ passes ih =>
    unfold substitute at h
    obtain ⟨pending, p₁, w₁, hpending, h⟩ := run_bind_ok h
    cases hpending
    split at h
    · cases h
      exact .refl
    · obtain ⟨es₁, p₁, w₁, hinclude, h⟩ := run_bind_ok h
      obtain ⟨es₂, p₂, w₂, huse, h⟩ := run_bind_ok h
      have hfirst : Relation.ReflTransGen (s.Substitutes resolve f location position) (es, p, w)
          (es₁, p₁, w₁) := by
        by_cases hhas : (s.includes && Entries.has es (.str includeKey)) = true
        · exact .single (.included hhas hinclude)
        · rw [Bool.not_eq_true] at hhas
          cases (includeStep_run hhas p w).symm.trans hinclude
          exact .refl
      have hsecond : Relation.ReflTransGen (s.Substitutes resolve f location position)
          (es₁, p₁, w₁) (es₂, p₂, w₂) := by
        by_cases hhas : (p₁.sources.isSome && Entries.has es₁ (.str useKey)) = true
        · exact .single (.used hhas huse)
        · rw [Bool.not_eq_true] at hhas
          cases (useStep_run hhas w₁).symm.trans huse
          exact .refl
      exact (hfirst.trans hsecond).trans (ih h)

theorem rebinds_of_rebind {others : List Tree} {path : List Segment} {t : Tree} {es : Entries}
    {p p' : Progress} {w w' : World} (hstands : Stands others path t p.sources)
    (h : outcome ((rebind (some path) es).run p) w = (.ok ((), p'), w')) :
    Rebinds others path es p.sources p'.sources := by
  obtain ⟨own, hsources, hspot⟩ := hstands
  obtain ⟨new, hnew⟩ := exists_replace? hspot (.map es)
  refine ⟨own, new, hsources, ?_, hnew⟩
  rw [rebind_ok h, hsources, Option.map_some]
  dsimp only
  rw [hnew, Option.getD_some]

section Standing

variable {others : List Tree} {path : List Segment} {t : Tree}
  (hload : ∀ file chain location, Fulfils (fun _ => True) (fun _ => True) True
    (s.load file chain location) fun _ => True)
  (hresolve : ∀ base location, Within none (resolve base location))
include hload hresolve

/-- Where a directive is carried out the mapping is put anew, with what has come of it. -/
theorem Substitutes.rebinds {es es' : Entries} {p p' : Progress} {w w' : World}
    (h : s.Substitutes resolve f location (some path) (es, p, w) (es', p', w'))
    (hstands : Stands others path t p.sources) : Rebinds others path es' p.sources p'.sources := by
  cases h with
  | included hhas hrun =>
    rw [Bool.and_eq_true, Entries.has_eq_isSome] at hhas
    obtain ⟨hincludes, hhas⟩ := hhas
    obtain ⟨value, hvalue⟩ := Option.isSome_iff_exists.1 hhas
    unfold includeStep at hrun
    dsimp only at hrun
    rw [if_pos hincludes, hvalue] at hrun
    obtain ⟨base, p₁, w₁, hbase, hrun⟩ := run_bind_ok hrun
    obtain ⟨_, p₂, w₂, hrebind, hrun⟩ := run_bind_ok hrun
    cases hrun
    have hincluded : Within none (s.included value location f) := within_included hload value
    have hsame : p₁.sources = p.sources := hincluded hbase
    rw [← hsame] at hstands ⊢
    exact rebinds_of_rebind hstands hrebind
  | used hhas hrun =>
    rw [Bool.and_eq_true, Entries.has_eq_isSome] at hhas
    obtain ⟨hsources, hhas⟩ := hhas
    obtain ⟨sources, hsources⟩ := Option.isSome_iff_exists.1 hsources
    obtain ⟨value, hvalue⟩ := Option.isSome_iff_exists.1 hhas
    rw [useStep_run_eq, hsources, hvalue] at hrun
    obtain ⟨base, p₁, w₁, hbase, hrun⟩ := run_bind_ok hrun
    obtain ⟨_, p₂, w₂, hrebind, hrun⟩ := run_bind_ok hrun
    cases hrun
    have hreused : Within none (s.reused resolve sources value location f) :=
      Within.orFail.bind fun names => (within_mergeSections _ _ _).bind fun base =>
        (hresolve _ _).bind fun _ => .pure _
    have hsame : p₁.sources = p.sources := hreused hbase
    rw [← hsame] at hstands ⊢
    exact rebinds_of_rebind hstands hrebind

/-- While the directives of a mapping are carried out, the first source has it where it stands, but
for entries that are not in it any more. -/
theorem stands_of_row {es es₁ es₂ : Entries} {p₁ p₂ : Progress} {w₁ w₂ : World}
    (h : Relation.ReflTransGen (s.Substitutes resolve f location (some path)) (es₁, p₁, w₁)
      (es₂, p₂, w₂))
    (hstands : Stands others path (.map es) p₁.sources)
    (hes : ∀ name v, Entries.get? es₁ (.str name) = some v → Entries.get? es (.str name) = some v) :
    ∃ es', Stands others path (.map es') p₂.sources ∧
      ∀ name v, Entries.get? es₂ (.str name) = some v → Entries.get? es' (.str name) = some v := by
  generalize hlast : (es₂, p₂, w₂) = last at h
  induction h generalizing es₂ p₂ w₂ with
  | refl =>
    cases hlast
    exact ⟨es, hstands, hes⟩
  | @tail state last hrow hstep ih =>
    subst hlast
    obtain ⟨es₃, p₃, w₃⟩ := state
    obtain ⟨es', hstands', -⟩ := ih rfl
    obtain ⟨own, new, -, hafter, hnew⟩ := hstep.rebinds hload hresolve hstands'
    exact ⟨es₂, ⟨new, hafter, spot?_replace? hnew⟩, fun _ _ h => h⟩

end Standing

/-! ## The nodes of the document -/

/-- A node that a resolution is about to resolve. -/
structure Visit where
  /-- How deep directives may be nested in it. -/
  room : Nat
  location : String
  path : List Segment
  tree : Tree
  progress : Progress
  world : World

/-- The resolution of one node comes to another: in a mapping, once its directives have been carried
out, to the value of a text key after those before it, provided that none of their keys reads the
same; in a sequence to an item after those before it. -/
inductive Reaches (s : Scope InWorld) (resolve : Tree → String → Resolving InWorld Tree)
    (start : Visit) : Visit → Prop
  | start : Reaches s resolve start start
  | entry {v : Visit} {lead lead' rest : Entries} {name : String} {value : Tree} {p : Progress}
    {w : World} (h : Reaches s resolve start v)
    (htree : v.tree = .map (lead ++ (.str name, value) :: rest))
    (hdirected : isDirected (lead ++ (.str name, value) :: rest) = false)
    (hfresh : ∀ e ∈ lead, Yaml.keyText e.1 ≠ name)
    (hrun : outcome ((resolveEntries (s.resolveMapping resolve v.room) v.location (some v.path)
      lead).run v.progress) v.world = (.ok (lead', p), w)) :
    Reaches s resolve start
      ⟨v.room, SectionPath.childLabel v.location name, v.path ++ [.key name], value, p, w⟩
  | item {v : Visit} {lead lead' rest : List Tree} {t : Tree} {p : Progress} {w : World}
    (h : Reaches s resolve start v) (htree : v.tree = .seq (lead ++ t :: rest))
    (hrun : outcome ((resolveItems (s.resolveMapping resolve v.room) v.location (some v.path) 0
      lead).run v.progress) v.world = (.ok (lead', p), w)) :
    Reaches s resolve start ⟨v.room, SectionPath.indexLabel v.location lead.length,
      v.path ++ [.index lead.length], t, p, w⟩
  | value {v : Visit} {room : Nat} {f : Flattening} {es lead lead' rest : Entries} {name : String}
    {value : Tree} {p₁ p : Progress} {w₁ w : World} (h : Reaches s resolve start v)
    (hroom : v.room = room + 1) (htree : v.tree = .map es) (hdirected : isDirected es = true)
    (hf : (Flattening.take es).2 = .ok f)
    (hsubstitute : outcome ((s.substitute resolve f v.location (some v.path) substitutionLimit
      (Flattening.take es).1).run v.progress) v.world =
        (.ok (lead ++ (.str name, value) :: rest, p₁), w₁))
    (hfresh : ∀ e ∈ lead, Yaml.keyText e.1 ≠ name)
    (hrun : outcome ((resolveEntries (s.resolveMapping resolve room) v.location (some v.path)
      lead).run p₁) w₁ = (.ok (lead', p), w)) :
    Reaches s resolve start
      ⟨room, SectionPath.childLabel v.location name, v.path ++ [.key name], value, p, w⟩

theorem Stands.value {others : List Tree} {path : List Segment} {es : Entries} {name : String}
    {v : Tree} {sources : Option (List Tree)} (h : Stands others path (.map es) sources)
    (hv : Entries.get? es (.str name) = some v) : Stands others (path ++ [.key name]) v sources := by
  obtain ⟨own, hsources, hspot⟩ := h
  refine ⟨own, hsources, ?_⟩
  rw [spot?_append, hspot, Option.bind_some, spot?, hv, Option.bind_some, spot?]

theorem Stands.item {others : List Tree} {path : List Segment} {items : List Tree} {i : Nat}
    {v : Tree} {sources : Option (List Tree)} (h : Stands others path (.seq items) sources)
    (hv : items[i]? = some v) : Stands others (path ++ [.index i]) v sources := by
  obtain ⟨own, hsources, hspot⟩ := h
  refine ⟨own, hsources, ?_⟩
  rw [spot?_append, hspot, Option.bind_some, spot?, hv, Option.bind_some, spot?]

/-- What stands under one name or index stays when another is resolved. -/
theorem Stands.of_touches {others : List Tree} {path : List Segment} {a b : Segment} {v : Tree}
    {before after : Option (List Tree)} (h : Stands others (path ++ [b]) v before) (hne : a ≠ b)
    (htouches : Position.Touches (some (path ++ [a])) before after) :
    Stands others (path ++ [b]) v after := by
  obtain ⟨own, hsources, hspot⟩ := h
  rcases htouches with rfl | ⟨own', new, others', hbefore, rfl, hbeside⟩
  · exact ⟨own, hsources, hspot⟩
  · cases hbefore.symm.trans hsources
    exact ⟨new, rfl, by rw [hbeside.spot?_sibling hne, hspot]⟩

section Reaching

variable {others : List Tree} {onward : MappingResolver InWorld} {path : List Segment} {v : Tree}
  {p p' : Progress} {w w' : World}
  (honward : ∀ es location position, Within position (onward es location position))
include honward

/-- The value of a name stays where it stands while values of keys that read otherwise are
resolved. -/
theorem stands_of_entries {lead lead' : Entries} {name : String}
    (hfresh : ∀ e ∈ lead, Yaml.keyText e.1 ≠ name)
    (hrun : outcome ((resolveEntries onward location (some path) lead).run p) w =
      (.ok (lead', p'), w'))
    (h : Stands others (path ++ [.key name]) v p.sources) :
    Stands others (path ++ [.key name]) v p'.sources := by
  induction lead generalizing lead' p w with
  | nil =>
    unfold resolveEntries at hrun
    cases hrun
    exact h
  | cons e rest ih =>
    obtain ⟨hfirst, hrest⟩ := List.forall_mem_cons.1 hfresh
    unfold resolveEntries at hrun
    obtain ⟨value, p₁, w₁, hvalue, hrun⟩ := run_bind_ok hrun
    obtain ⟨rest', p₂, w₂, hothers, hrun⟩ := run_bind_ok hrun
    cases hrun
    refine ih hrest hothers (h.of_touches (a := .key (Yaml.keyText e.1)) ?_
      (within_resolveTree honward _ _ _ hvalue))
    simpa using hfirst

/-- An item stays where it stands while items before it are resolved. -/
theorem stands_of_items {lead lead' : List Tree} {i j : Nat} (hj : i + lead.length ≤ j)
    (hrun : outcome ((resolveItems onward location (some path) i lead).run p) w =
      (.ok (lead', p'), w'))
    (h : Stands others (path ++ [.index j]) v p.sources) :
    Stands others (path ++ [.index j]) v p'.sources := by
  induction lead generalizing i lead' p w with
  | nil =>
    unfold resolveItems at hrun
    cases hrun
    exact h
  | cons t rest ih =>
    rw [List.length_cons] at hj
    unfold resolveItems at hrun
    obtain ⟨t', p₁, w₁, ht, hrun⟩ := run_bind_ok hrun
    obtain ⟨rest', p₂, w₂, hothers, hrun⟩ := run_bind_ok hrun
    cases hrun
    refine ih (i := i + 1) (by omega) hothers (h.of_touches (a := .index i) ?_
      (within_resolveTree honward _ _ _ ht))
    intro hsame
    cases hsame
    omega

end Reaching

/-- A value before the flattening of a mapping is taken. -/
theorem get?_of_take {es : Entries} {f : Flattening} (hf : (Flattening.take es).2 = .ok f)
    {key v : Tree} (h : Entries.get? (Flattening.take es).1 key = some v) :
    Entries.get? es key = some v := by
  have herase {es : Entries} {name : String} (h : Entries.get? (Entries.erase es (.str name)) key =
      some v) : Entries.get? es key = some v := by
    by_cases hkey : key = .str name
    · obtain ⟨k, hmem, hsame⟩ := Entries.mem_of_get? h
      rw [← hkey] at hmem
      exact absurd hsame (by simp [(Entries.mem_erase.1 hmem).2])
    · rwa [Entries.get?_erase hkey] at h
  rw [Flattening.take_fst hf] at h
  exact herase (herase h)

/-- A text key is not among keys that read otherwise. -/
theorem has_eq_false_of_keyText {es : Entries} {name : String}
    (h : ∀ e ∈ es, Yaml.keyText e.1 ≠ name) : Entries.has es (.str name) = false := by
  rw [Bool.eq_false_iff]
  intro hhas
  obtain ⟨v, hmem⟩ := Entries.has_str.1 hhas
  exact h _ hmem rfl

/-- A node that is reached stands in the first source, as it is about to be resolved. -/
theorem Reaches.stands {others : List Tree} {start v : Visit}
    (hload : ∀ file chain location, Fulfils (fun _ => True) (fun _ => True) True
      (s.load file chain location) fun _ => True)
    (hresolve : ∀ base location, Within none (resolve base location))
    (h : s.Reaches resolve start v)
    (hstart : Stands others start.path start.tree start.progress.sources) :
    Stands others v.path v.tree v.progress.sources := by
  have hmapping := within_resolveMapping hload hresolve
  induction h with
  | start => exact hstart
  | @entry v lead lead' rest name value p w _ htree _ hfresh hrun ih =>
    rw [htree] at ih
    refine stands_of_entries (hmapping _) hfresh hrun (ih.value ?_)
    exact Entries.get?_append_cons (has_eq_false_of_keyText hfresh)
  | @item v lead lead' rest t p w _ htree hrun ih =>
    rw [htree] at ih
    refine stands_of_items (hmapping _) (by simp) hrun (ih.item ?_)
    simp
  | @value v room f es lead lead' rest name value p₁ p w₁ w _ _ htree _ hf hsubstitute hfresh hrun
      ih =>
    rw [htree] at ih
    obtain ⟨es', hstands, hes'⟩ := stands_of_row hload hresolve (substitute_row hsubstitute) ih
      fun name v => get?_of_take hf
    refine stands_of_entries (hmapping _) hfresh hrun (hstands.value (hes' name value ?_))
    exact Entries.get?_append_cons (has_eq_false_of_keyText hfresh)

end Scope

namespace Settings

/-- A document that may refer to itself stands in its own source as it is being resolved. When the
resolution reaches a node, the node is found there by the steps that lead to it. When a directive of
the node is carried out, what has come of the node is found there, all that lies neither below nor
above is as it was, and so are the other sources; and so they are when all of the node has been
resolved. The nodes are those that text keys lead to before which no key reads the same. -/
theorem rebinding_hits_the_node (s : Settings) (o : LoadOptions) (hself : o.selfReferences = true)
    (owner : FilePath) (budget room depth : Nat) (document : Tree) (location : String)
    (l : Ledger) (w : World) :
    let scope := s.scopeFor o owner budget room
    let resolve := scope.resolveReused substitutionLimit
    let others := o.sources.getD []
    ∀ v, scope.Reaches resolve ⟨depth, location, [], document,
        ⟨(o.request owner none).sourcesWith document, l⟩, w⟩ v →
      (∃ own, v.progress.sources = some (own :: others) ∧
        own.at? (stepsOf v.path) = some v.tree) ∧
      (∀ t p' w', outcome ((Scope.resolveTree (scope.resolveMapping resolve v.room) v.location
          (some v.path) v.tree).run v.progress) v.world = (.ok (t, p'), w') →
        ∃ own new, v.progress.sources = some (own :: others) ∧ p'.sources = some (new :: others) ∧
          SameBeside (stepsOf v.path) own new) ∧
      ∀ es f, v.tree = .map es → (Flattening.take es).2 = .ok f →
        ∀ es₁ p₁ w₁, Relation.ReflTransGen (scope.Substitutes resolve f v.location (some v.path))
          ((Flattening.take es).1, v.progress, v.world) (es₁, p₁, w₁) →
        ∀ es₂ p₂ w₂, scope.Substitutes resolve f v.location (some v.path) (es₁, p₁, w₁)
          (es₂, p₂, w₂) →
        ∃ own new, p₁.sources = some (own :: others) ∧ p₂.sources = some (new :: others) ∧
          new.at? (stepsOf v.path) = some (.map es₂) ∧ SameBeside (stepsOf v.path) own new := by
  intro scope resolve others v hreaches
  have hload : ∀ file chain location, Fulfils (fun _ => True) (fun _ => True) True
      (scope.load file chain location) fun _ => True := fun file chain location =>
    (s.scopeFor_loads owner budget room file chain location).mono id fun _ _ => trivial
  have hresolve := Scope.within_resolveReused hload substitutionLimit
  have hstart : Scope.Stands others [] document ((o.request owner none).sourcesWith document) :=
    ⟨document, by simp [LoadOptions.request, Request.sourcesWith, hself, others], rfl⟩
  have hstands := hreaches.stands hload hresolve hstart
  refine ⟨?_, fun t p' w' hrun => ?_, fun es f htree hf es₁ p₁ w₁ hrow es₂ p₂ w₂ hstep => ?_⟩
  · obtain ⟨own, hsources, hspot⟩ := hstands
    exact ⟨own, hsources, by rw [← spot?_eq_at?, hspot]⟩
  · obtain ⟨own, hsources, -⟩ := hstands
    rcases Scope.within_resolveTree (Scope.within_resolveMapping hload hresolve _) _ _ _ hrun with
      hsame | ⟨own', new, others', hbefore, hafter, hbeside⟩
    · exact ⟨own, own, hsources, hsame.trans hsources, .refl _ own⟩
    · cases hbefore.symm.trans hsources
      exact ⟨own, new, hsources, hafter, hbeside⟩
  · rw [htree] at hstands
    obtain ⟨es', hstands', -⟩ := Scope.stands_of_row hload hresolve hrow hstands
      fun name v => Scope.get?_of_take hf
    obtain ⟨own, new, hbefore, hafter, hnew⟩ := hstep.rebinds hload hresolve hstands'
    refine ⟨own, new, hbefore, hafter, ?_, .replace? hnew⟩
    rw [← spot?_eq_at?, spot?_replace? hnew]

/-- A mapping that uses a section before it. -/
def usingEarlier : Tree :=
  .map [(.str "lib", .map [(.str "k", .int 1)]),
    (.str "n", .map [(.str "_use", .str "lib"), (.str "a", .int 2)])]

/-- When the mapping has used the section, it is found where it stands, and so is the section. -/
theorem usingEarlier_rebound :
    ∃ p₁ w₁ p₂ w₂ own new,
      outcome ((layersScope.useStep (layersScope.resolveReused substitutionLimit) Flattening.none
        "n" (some [.key "n"]) [(.str "_use", .str "lib"), (.str "a", .int 2)]).run p₁) w₁ =
          (.ok ([(.str "k", .int 1), (.str "a", .int 2)], p₂), w₂) ∧
      p₁.sources = some [own] ∧ p₂.sources = some [new] ∧
      new.at? [.value (.str "n")] = some (.map [(.str "k", .int 1), (.str "a", .int 2)]) ∧
      new.at? [.value (.str "lib")] = own.at? [.value (.str "lib")] := by
  have hrun : succeeds ((do
      let _ ← Scope.resolveEntries (layersScope.resolveMapping
        (layersScope.resolveReused substitutionLimit) 1) "" (some [])
        [(.str "lib", .map [(.str "k", .int 1)])]
      layersScope.useStep (layersScope.resolveReused substitutionLimit) Flattening.none "n"
        (some [.key "n"]) [(.str "_use", .str "lib"), (.str "a", .int 2)]).run
      ⟨some [usingEarlier], Ledger.empty⟩) (World.holding [])
      (fun r _ => r.1 = [(.str "k", .int 1), (.str "a", .int 2)]) := by decide +kernel
  obtain ⟨⟨es, p₂⟩, w₂, hrun, hes⟩ := succeeds_iff.1 hrun
  obtain rfl := of_decide_eq_true hes
  obtain ⟨lead, p₁, w₁, hlead, huse⟩ := run_bind_ok hrun
  obtain ⟨⟨own₁, hown₁, -⟩, -, hsubstitutes⟩ := rebinding_hits_the_node default LoadOptions.default
    rfl ⟨"/root.yml"⟩ 1 0 1 usingEarlier "" Ledger.empty (World.holding []) _
    (.entry .start rfl (by decide +kernel) (by decide +kernel) hlead)
  have hhas : (p₁.sources.isSome && Entries.has [(.str "_use", .str "lib"), (.str "a", .int 2)]
      (.str useKey)) = true := by
    rw [hown₁]
    rfl
  obtain ⟨own, new, hown, hnew, hthere, hbeside⟩ := hsubstitutes _ Flattening.none rfl
    (by decide +kernel) _ _ _ .refl _ p₂ w₂ (.used hhas huse)
  exact ⟨p₁, w₁, p₂, w₂, own, new, huse, hown, hnew, hthere,
    hbeside _ (by simp [stepsOf, Segment.step]) (by simp [stepsOf, Segment.step])⟩

end Settings

end LayeredConfig
