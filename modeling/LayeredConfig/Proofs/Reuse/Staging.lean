import LayeredConfig.Proofs.Loading
import LayeredConfig.Proofs.Reuse.Document

/-!
# Resolving section after section

The run of a document of sections, from stage to stage. What is made of a section is told by
`Reuse.mapping` at the stage where its turn comes, and what is made of all of them by `Reuse.inTurn`.
-/

namespace LayeredConfig

open Directive Tree Reuse

namespace Scope

variable {s : Scope InWorld} {T : String → Prop} {es : Entries} {others : List Tree}
  {E : Error → Prop} {levels : Nat}

/-- Where pulling in a section fails, in whatever form the document is, the error is in `E`. -/
def FailsWithin (s : Scope InWorld) (levels : Nat) (E : Error → Prop) (T : String → Prop)
    (others : List Tree) (es : Entries) : Prop :=
  ∀ cur, Form T es cur → ∀ names u, target? names = some u → T u → ∀ location p w e w',
    p.sources = some (.map cur :: others) →
    outcome ((s.reused (s.resolveReused levels) (.map cur :: others) names location
      Flattening.none).run p) w = (.error e, w') → E e

section Open

variable {F : Frame} {raw : Tree} (hes : Sectioned F.others T es)
  (hstage : Stage T es (F.entries raw)) (hraw : Entries.get? es (.str F.name) = some raw)
  (herrors : s.FailsWithin levels E T F.others es)
include hes hstage hraw herrors

/-- What the open section pulls in does not depend on how far it has been resolved. -/
theorem pulls_open :
    s.Pulls F (fun content => Form T es (F.entries content)) E
      (fun u => T u ∧ Reuse.Uses es F.name u)
      (F.entries raw) (base (Reuse.find (F.entries raw)) s.room levels)
      (s.resolveReused levels) where
  wellFormed := hstage.sectional.wellFormed
  finishes := finishes_base hstage.sectional s.room levels
  kept hform hspot hnode hnew := hform.replace? hspot (hnode.mono fun _ h => h.1) hnew
  reused {content path node names u} hform hnode hspot hnames htarget location p w hp := by
    obtain ⟨u', htarget', hu, huses⟩ := hnode.target hnames
    cases htarget.symm.trans htarget'
    -- the step has a value, with the section as far as it is resolved
    have hfind : ∀ name, NameIn T name →
        sectionNamed? (F.sources content) name = Reuse.find (F.entries content) name :=
      fun name => sectionNamed?_of_form hes hform
    have hfinds : ∀ sources, sources = some (F.sources content) →
        Finds (NameIn T) (Reuse.find (F.entries content)) sources := by
      rintro _ rfl
      exact ⟨_, rfl, hfind⟩
    have hclosed : ∀ name, NameIn T name → ∀ t, Reuse.find (F.entries content) name = some t →
        OnlyUses (NameIn T) t := by
      intro name _ t ht
      obtain ⟨v, -, ht⟩ := Option.bind_eq_some_iff.1 ht
      exact (hform.sectional.section? ht).onlyUses
    have hcomputes := computes_reused (s := s) (f := Flattening.none)
      (J := (· = some (F.sources content))) hclosed (fun t location ht =>
        computes_resolveReused (s := s) hclosed hfinds levels ht location)
      rfl location (hnode.mono fun _ h => h.1).onlyUses hnames hfind
    rw [names_bind_sections hform.sectional.wellFormed htarget] at hcomputes
    obtain ⟨hsome, hnone⟩ := hcomputes p w hp
    -- which is the value at the beginning
    have hsame : pulled (F.entries raw) (base (Reuse.find (F.entries raw)) s.room levels) u =
        pulled (F.entries content) (base (Reuse.find (F.entries content)) s.room levels) u := by
      by_cases hgrounded : Grounded es u
      · exact agree_grounded hstage hform.sectional s.room levels hu huses hgrounded
      · rw [pulled_not_grounded_raw hes.sectional hstage hraw s.room levels hu hgrounded,
          pulled_not_grounded hes.sectional hstage hform.sectional ?_ s.room levels hu hgrounded]
        intro t ht _
        rw [section?_open hspot] at ht
        cases ht
        refine somewhere_of_spot? hspot (somewhere_map.2 ?_)
        obtain ⟨k, hmem, hkey⟩ := Entries.mem_of_get? hnames
        exact ⟨_, hmem, .inl ⟨same_str.1 hkey, u, htarget, hu, hgrounded⟩⟩
    rw [hsame]
    refine ⟨fun base hbase => ?_, fun hpulled => ?_⟩
    · obtain ⟨sources, rfl, hrun⟩ := hsome base hbase
      rw [hrun, ← hp]
    · obtain ⟨e, w', hrun⟩ := hnone hpulled
      exact ⟨e, w', herrors _ hform names u htarget hu location p w e w' hp hrun, hrun⟩

/-- A section is made into what the traversal makes of it at its stage. -/
theorem rewrites_section {depth : Nat} (hdepth : nesting raw ≤ depth) (location : String) :
    Rewrites F (fun content => Form T es (F.entries content)) E [] raw id
      (resolveTree (s.resolveMapping (s.resolveReused levels) depth) location (some (F.path []))
        raw)
      (Tree.traverse uses (mapping (Reuse.find (F.entries raw))
        (base (Reuse.find (F.entries raw)) s.room levels) depth) raw) := by
  have hsectional : Sectional (fun u => T u ∧ Reuse.Uses es F.name u) raw := by
    refine (hes.sectional.of_get? hraw).restrict.mono fun u ⟨hu, hsome⟩ => ⟨hu, raw, hraw, hsome⟩
  have hpulls := pulls_open hes hstage hraw herrors
  exact rewrites_resolveTree (fun node location path hnode huse hn =>
    rewrites_resolveMapping hpulls hnode huse (Nat.le_trans hn hdepth) location)
    hsectional (Nat.le_refl _) location

end Open

end Scope

/-! ## Section after section -/

namespace Reuse

/-- Resolve the rest of the sections one after the other, each in the document whose sections
before it have been resolved. -/
def inTurn (room levels depth : Nat) : (done rest : Entries) → Option Entries
  | _, [] => some []
  | done, (key, raw) :: rest =>
    let cur := done ++ (key, raw) :: rest
    (Tree.traverse uses (mapping (find cur) (base (find cur) room levels) depth) raw).bind fun value =>
      (inTurn room levels depth (done ++ [(key, value)]) rest).map ((key, value) :: ·)

variable {T : String → Prop} {es done rest : Entries} {others : List Tree}
  {room levels depth : Nat}

/-- The first of the sections that are left, open. -/
theorem exists_frame {name : String} {raw : Tree}
    (hcur : WellFormed (.map (done ++ (.str name, raw) :: rest))) (others : List Tree) :
    ∃ F : Frame, F.name = name ∧ F.others = others ∧
      ∀ t, F.entries t = done ++ (.str name, t) :: rest := by
  refine ⟨⟨done, name, rest, others, ?_⟩, rfl, rfl, fun t => rfl⟩
  have hdistinct := (wellFormed_map.1 hcur).1
  rw [Entries.has, List.any_eq_false]
  intro e he
  rw [Bool.not_eq_true]
  exact (List.pairwise_append.1 hdistinct).2.2 e he _ List.mem_cons_self

/-- A stage at which the rest of the sections are as in the beginning. -/
structure Due (T : String → Prop) (es done rest : Entries) : Prop where
  stage : Stage T es (done ++ rest)
  raw : ∀ e ∈ rest, Entries.get? es e.1 = some e.2

theorem Due.start (h : Sectioned others T es) : Due T es [] es where
  stage := h.stage
  raw _ he := Entries.get?_of_mem h.sectional.wellFormed he

/-- The section that is next in turn, and what is due after it. -/
theorem Due.step (hes : Sectioned others T es) {e : Tree × Tree} (h : Due T es done (e :: rest)) :
    ∃ F : Frame, F.others = others ∧ e.1 = .str F.name ∧ F.entries e.2 = done ++ e :: rest ∧
      Entries.get? es (.str F.name) = some e.2 ∧
      (∀ t, F.entries t = done ++ (e.1, t) :: rest) ∧
      ∀ {room levels depth t}, Tree.traverse uses (mapping (find (F.entries e.2))
        (base (find (F.entries e.2)) room levels) depth) e.2 = some t →
        Due T es (done ++ [(e.1, t)]) rest := by
  obtain ⟨key, raw⟩ := e
  obtain ⟨name, hname⟩ := h.stage.sectional.text (List.mem_append_right _ List.mem_cons_self)
  obtain rfl : key = .str name := hname
  obtain ⟨F, rfl, rfl, hentries⟩ := exists_frame h.stage.sectional.wellFormed others
  have hraw := h.raw _ List.mem_cons_self
  refine ⟨F, rfl, rfl, hentries raw, hraw, hentries, fun {room levels depth t} ht => ⟨?_, ?_⟩⟩
  · have hstage : Stage T es (F.entries raw) := (hentries raw).symm ▸ h.stage
    have hnext := hstage.next hes hraw ht
    rw [hentries] at hnext
    simpa using hnext
  · exact fun e he => h.raw e (List.mem_cons_of_mem _ he)

/-- There is no result if one of the sections that are due is not grounded. -/
theorem inTurn_not_grounded (hes : Sectioned others T es) (h : Due T es done rest) {u : String}
    (hu : Entries.has rest (.str u) = true) (hgrounded : ¬ Grounded es u) :
    inTurn room levels depth done rest = none := by
  induction rest generalizing done with
  | nil => cases hu
  | cons e rest ih =>
    obtain ⟨F, rfl, hkey, hcur, hraw, -, hnext⟩ := h.step hes
    have hstage : Stage T es (F.entries e.2) := hcur ▸ h.stage
    rw [inTurn, ← hcur]
    cases ht : Tree.traverse uses
        (mapping (find (F.entries e.2)) (base (find (F.entries e.2)) room levels) depth) e.2 with
    | none => rfl
    | some t =>
      rw [Option.bind_some, ih (hnext ht), Option.map_none]
      rw [Entries.has, List.any_cons, Bool.or_eq_true, hkey, str_same] at hu
      refine hu.resolve_left fun hname => ?_
      rw [tree_not_grounded hes.sectional hstage hraw (Tree.str.inj hname ▸ hgrounded)] at ht
      cases ht

end Reuse

namespace Scope

variable {s : Scope InWorld} {T : String → Prop} {es done rest : Entries} {others : List Tree}
  {E : Error → Prop} {levels depth : Nat}

/-- The sections that are due are made into what `Reuse.inTurn` makes of them. -/
theorem resolveEntries_run_inTurn (hes : Sectioned others T es) (h : Due T es done rest)
    (herrors : s.FailsWithin levels E T others es)
    (hdepth : ∀ e ∈ rest, nesting e.2 ≤ depth) (location : String) {p : Progress}
    (hp : p.sources = some (.map (done ++ rest) :: others)) (w : World) :
    let run := outcome ((resolveEntries (s.resolveMapping (s.resolveReused levels) depth) location
      (some []) rest).run p) w
    (∀ result, inTurn s.room levels depth done rest = some result →
      ∃ sources, run = (.ok (result, { p with sources := sources }), w)) ∧
    (inTurn s.room levels depth done rest = none → ∃ e w', E e ∧ run = (.error e, w')) := by
  induction rest generalizing done p with
  | nil =>
    unfold inTurn resolveEntries
    refine ⟨fun result hresult => ⟨p.sources, ?_⟩, fun hnone => by cases hnone⟩
    cases hresult
    rfl
  | cons e rest ih =>
    obtain ⟨F, rfl, hkey, hcur, hraw, hentries, hnext⟩ := h.step hes
    have hstage : Stage T es (F.entries e.2) := hcur ▸ h.stage
    obtain ⟨hfirst, hrest⟩ := List.forall_mem_cons.1 hdepth
    have hsection := rewrites_section hes hstage hraw herrors hfirst
      (SectionPath.childLabel location F.name)
    obtain ⟨hsome, hnone⟩ := hsection p w e.2 (by rw [hp, ← hcur]; rfl) hstage.toForm rfl
    intro run
    have hrun : run = outcome ((do
        let value ← resolveTree (s.resolveMapping (s.resolveReused levels) depth)
          (SectionPath.childLabel location F.name) (some (F.path [])) e.2
        return (e.1, value) :: (← resolveEntries (s.resolveMapping (s.resolveReused levels) depth)
          location (some []) rest)).run p) w := by
      change outcome ((resolveEntries _ _ _ (e :: rest)).run p) w = _
      rw [resolveEntries, hkey]
      rfl
    rw [StateT.run_bind, outcome_bind] at hrun
    rw [inTurn, ← hcur]
    cases ht : Tree.traverse uses (mapping (Reuse.find (F.entries e.2))
      (base (Reuse.find (F.entries e.2)) s.room levels) depth) e.2 with
    | none =>
      obtain ⟨error, w', herror, hfailed⟩ := hnone ht
      rw [hfailed] at hrun
      exact ⟨fun _ hresult => (by cases hresult), fun _ => ⟨error, w', herror, hrun⟩⟩
    | some t =>
      obtain ⟨new, hnew, -, hok⟩ := hsome t ht
      obtain rfl : t = new := Option.some_inj.1 hnew
      rw [hok] at hrun
      dsimp only at hrun
      rw [StateT.run_bind, outcome_bind] at hrun
      have hsources : some (F.sources t) =
          some (.map ((done ++ [(e.1, t)]) ++ rest) :: F.others) := by
        rw [Frame.sources, hentries]
        simp
      obtain ⟨hsome', hnone'⟩ := ih (hnext ht) hrest (p := { p with sources := some (F.sources t) })
        hsources
      rw [Option.bind_some]
      refine ⟨fun result hresult => ?_, fun hresult => ?_⟩
      · obtain ⟨rest', hrest', rfl⟩ := Option.map_eq_some_iff.1 hresult
        obtain ⟨sources, hok'⟩ := hsome' rest' hrest'
        rw [hok'] at hrun
        exact ⟨sources, hrun⟩
      · obtain ⟨error, w', herror, hfailed⟩ := hnone' (Option.map_eq_none_iff.1 hresult)
        rw [hfailed] at hrun
        exact ⟨error, w', herror, hrun⟩

end Scope

/-! ## Loading the document -/

namespace Settings

variable {s : Settings} {o : LoadOptions} {path : FilePath} {w : World} {T : String → Prop}
  {es : Entries} {E : Error → Prop}

/-- The load of a document of sections that may refer to itself ends as `Reuse.inTurn` says. -/
theorem load_inTurn (hself : o.selfReferences = true) (hreads : s.Reads o path w (.map es))
    (hes : Sectioned (o.sources.getD []) T es)
    (herrors : ∀ room, (s.scopeFor o (FilePath.normalize w.directory path) w.nodes.length
      room).FailsWithin substitutionLimit E T (o.sources.getD []) es) :
    ∃ room, let value := inTurn room substitutionLimit (room + (Tree.map es).nodeCount) [] es
      (∀ rs, value = some rs → ∃ ledger w', outcome (s.load path o) w =
        (.ok (withPath o.pathField (FilePath.normalize w.directory path) (.map rs), ledger), w')) ∧
      (value = none → ∃ e w', E e ∧ outcome (s.load path o) w = (.error e, w')) := by
  obtain ⟨room, w₁, hok, herror⟩ := hreads.load_ends
  generalize FilePath.normalize w.directory path = file at hok herror herrors ⊢
  have hdepth := hes.nesting_le room
  have hsources : (o.request file none).sourcesWith (.map es) =
      some (.map ([] ++ es) :: o.sources.getD []) := by
    simp [LoadOptions.request, Request.sourcesWith, hself]
  have hposition : (o.request file none).position = some [] := by
    simp [LoadOptions.request, Request.position, hself]
  obtain ⟨hsome, hnone⟩ := Scope.resolveEntries_run_inTurn hes (.start hes) (herrors room) hdepth
    o.label (p := ⟨_, Ledger.empty⟩) hsources w₁
  have hdirected : Scope.isDirected es = false := by
    simp [Scope.isDirected, Entries.without_iff_has.1 hes.sectional.without, hes.undirected]
  have hrun : s.run o file w.nodes.length room (.map es) w₁ = outcome ((do
      return Tree.map (← Scope.resolveEntries
        ((s.scopeFor o file w.nodes.length room).resolveMapping
          ((s.scopeFor o file w.nodes.length room).resolveReused substitutionLimit)
          (room + (Tree.map es).nodeCount)) o.label (some []) es)).run
      ⟨(o.request file none).sourcesWith (.map es), Ledger.empty⟩) w₁ := by
    rw [run, hposition, Scope.resolveDocument, Scope.resolveTree, hdirected, if_neg (by simp)]
    rfl
  rw [StateT.run_bind] at hrun
  refine ⟨room, fun rs hrs => ?_, fun hvalue => ?_⟩
  · obtain ⟨sources, hentries⟩ := hsome rs hrs
    exact hok _ _ _ (hrun.trans (outcome_bind_of_ok hentries _))
  · obtain ⟨e, w₂, he, hentries⟩ := hnone hvalue
    exact ⟨e, w₂, he, herror e w₂ (hrun.trans (outcome_bind_of_error hentries _))⟩

end Settings

end LayeredConfig
