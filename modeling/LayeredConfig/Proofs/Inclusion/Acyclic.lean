import LayeredConfig.Proofs.Accounting
import LayeredConfig.Proofs.Inclusion.Room
import LayeredConfig.Proofs.OwnValues
import LayeredConfig.Proofs.Reuse.Sections
import Mathlib.Logic.Relation

/-!
# Loaded files do not include one another in a circle

`Settings.Includes` says that the document of a file has an `_include` somewhere, with an entry for
which another file is found. If a load succeeds, all `_include`s in its document have been carried
out: none is lost on the way, whatever is pulled in beneath it (`Tree.HasInclude.merge`). So the
files that are found for them have been loaded, each from a longer chain, and this goes on along the
relation. A file that led back to itself would stand in its own chain.
-/

namespace LayeredConfig

open Directive Tree

/-! ## Where includes stand -/

namespace Tree

variable {value t base : Tree} {es : Entries}

/-- Some mapping in the tree, outside of tags and keys, has an `_include` with the value. -/
def HasInclude (t value : Tree) : Prop :=
  t.Somewhere fun k v => k = .str includeKey ∧ v = value

theorem hasInclude_map : HasInclude (.map es) value ↔
    (.str includeKey, value) ∈ es ∨ ∃ e ∈ es, e.2.HasInclude value := by
  rw [HasInclude, somewhere_map]
  constructor
  · rintro ⟨e, he, ⟨hkey, hvalue⟩ | hbelow⟩
    · exact .inl (by rwa [← hkey, ← hvalue])
    · exact .inr ⟨e, he, hbelow⟩
  · rintro (hmem | ⟨e, he, hbelow⟩)
    · exact ⟨_, hmem, .inl ⟨rfl, rfl⟩⟩
    · exact ⟨e, he, .inr hbelow⟩

/-- An `_include` stays where it is when something is placed beneath, unless its value is a mapping,
which names no file. -/
theorem HasInclude.merge (hvalue : ∀ es, value ≠ .map es) (hbase : base.WellFormed)
    (ht : t.WellFormed) (h : t.HasInclude value) : (base.merge t).HasInclude value := by
  induction t using Tree.induction generalizing base with
  | map above ih =>
    cases base with
    | map below =>
      rw [merge_map_map, hasInclude_map]
      have hget : ∀ e ∈ above, ∃ k, (k, laidOver below e.1 e.2) ∈ mergeEntries below above ∧
          k.same e.1 = true := fun e he =>
        Entries.mem_of_get? (get?_mergeEntries_above hbase ht (Entries.get?_of_mem ht he))
      rcases hasInclude_map.1 h with hmem | ⟨e, he, hbelow⟩
      · obtain ⟨k, hmerged, hsame⟩ := hget _ hmem
        have hlaid : laidOver below (.str includeKey) value = value := by
          rw [laidOver]
          split
          · exact merge_of_not_map hvalue
          · rfl
        have hkey : k = .str includeKey := same_str.1 hsame
        dsimp only at hmerged
        rw [hlaid, hkey] at hmerged
        exact .inl hmerged
      · obtain ⟨k, hmerged, -⟩ := hget e he
        refine .inr ⟨_, hmerged, ?_⟩
        dsimp only
        rw [laidOver]
        cases hunder : Entries.get? below e.1 with
        | none => exact hbelow
        | some under =>
          exact (ih e he).2 (hbase.of_get? hunder) ((wellFormed_map.1 ht).2 e he).2 hbelow
    | _ =>
      rw [merge_map_of_not_map (by simp)]
      exact h
  | _ =>
    rw [merge_of_not_map (by simp)]
    exact h

/-- In a well-formed mapping an `_include` is the one there is, or below the values. -/
theorem hasInclude_erase (hes : WellFormed (.map es)) (name : String)
    (h : HasInclude (.map es) value) :
    HasInclude (.map (Entries.erase es (.str name))) value ∨
      ∃ u, Entries.get? es (.str name) = some u ∧
        (name = includeKey ∧ u = value ∨ u.HasInclude value) := by
  rw [hasInclude_map] at h
  have hkept : ∀ e ∈ es, e ∈ Entries.erase es (.str name) ∨
      Entries.get? es (.str name) = some e.2 ∧ e.1 = .str name := by
    intro e he
    by_cases hkey : e.1 = .str name
    · exact .inr ⟨hkey ▸ Entries.get?_of_mem hes he, hkey⟩
    · exact .inl (Entries.mem_erase.2 ⟨he, same_str_eq_false.2 hkey⟩)
  rcases h with hmem | ⟨e, he, hbelow⟩
  · rcases hkept _ hmem with hmem | ⟨hget, hkey⟩
    · exact .inl (hasInclude_map.2 (.inl hmem))
    · exact .inr ⟨value, hget, .inl ⟨(Tree.str.inj hkey).symm, rfl⟩⟩
  · rcases hkept e he with hmem | ⟨hget, -⟩
    · exact .inl (hasInclude_map.2 (.inr ⟨e, hmem, hbelow⟩))
    · exact .inr ⟨e.2, hget, .inr hbelow⟩

end Tree

/-! ## What a resolution has loaded -/

namespace Scope

variable {w₀ : World} {reuse : Bool} {s : Scope InWorld} {f : Flattening} {location : String}
  {position : Position} {value : Tree}

/-- The file is not in the chain, and it has been loaded. -/
def Loaded (s : Scope InWorld) (w₀ : World) (file : FilePath) : Prop :=
  file ∉ s.chain ∧ ∃ location w r w', SameFiles w₀ w ∧
    outcome (s.load file s.chain location) w = (.ok r, w')

/-- The files that are found for the entries of an `_include` have been loaded. -/
def Included (s : Scope InWorld) (w₀ : World) (value : Tree) : Prop :=
  ∀ raws, Directive.names includeKey value = .ok raws → ∀ raw ∈ raws, ∀ entry,
    IncludeEntry.parse raw = .ok entry → ∀ file,
      (s.settings.meeting w₀ s.owner raw entry).found = some file → s.Loaded w₀ file

/-- If the step has a result, with sections looked up in well-formed trees, then it is in `Q`. -/
abbrev Attains {α : Type} (w₀ : World) (reuse : Bool) (x : Resolving InWorld α) (Q : α → Prop) :
    Prop :=
  Ends (SameFiles w₀) (WellFormedSources reuse) (fun _ => True) x Q

theorem attains_orFail {α : Type} {x : Except Directive.Fault α} :
    Attains w₀ reuse (s.orFail location x) fun a => x = .ok a := Ends.orFail fun _ _ => trivial

theorem attains_find (raw : String) (entry : IncludeEntry) :
    Attains w₀ reuse (s.find raw entry location)
      (· = (s.settings.meeting w₀ s.owner raw entry).found) := by
  intro p w hJ hw
  refine ⟨fun found p' w' hrun => ?_, fun _ _ _ => trivial⟩
  have hfound : found = (s.settings.meeting w s.owner raw entry).found := found_of_find hrun
  rw [hw.meeting_eq] at hfound
  have hsteps : Steps (fun _ => True) (SameFiles w₀) (WellFormedSources reuse) True
      (s.find raw entry location) fun _ => True :=
    steps_find (SameFiles.unnoted w₀) raw entry location
  obtain ⟨read, -, hpost⟩ := hsteps p hrun
  obtain ⟨⟨-, hJ'⟩, hw'⟩ := hpost ⟨trivial, hJ⟩ (fun _ _ => trivial) hw
  exact ⟨hfound, hJ', hw'⟩

section Including

variable (hload : ∀ file chain location, Fulfils (fun _ => True) (SameFiles w₀) True
  (s.load file chain location) fun r => r.1.WellFormed)
include hload

theorem attains_includeFile {merged : Tree} (h : merged.WellFormed) (file : FilePath) :
    Attains w₀ reuse (s.includeFile f location merged file)
      fun t => t.WellFormed ∧ s.Loaded w₀ file := by
  intro p w hJ hw
  refine ⟨fun t p' w' hrun => ?_, fun _ _ _ => trivial⟩
  rw [includeFile_run] at hrun
  split at hrun
  · cases hrun
  next hchain =>
    rcases hloaded : outcome (s.load file s.chain location) w with ⟨e | r, w₁⟩
    · rw [hloaded] at hrun
      cases hrun
    · rw [hloaded] at hrun
      dsimp only at hrun
      split at hrun
      · cases hrun
        obtain ⟨read, -, hpost⟩ := hload file s.chain location hloaded
        obtain ⟨hr, hw'⟩ := hpost trivial (fun _ _ => trivial) hw
        refine ⟨⟨h.merge (hr.flatten _ _), by simpa using hchain, ?_⟩, hJ, hw'⟩
        exact ⟨location, w, r, _, hw, hloaded⟩
      · cases hrun

theorem attains_included (value : Tree) :
    Attains w₀ reuse (s.included value location f) fun t => t.WellFormed ∧
      (∃ raws, Directive.names includeKey value = .ok raws) ∧ s.Included w₀ value := by
  suffices hall : ∀ raws merged, merged.WellFormed →
      Attains w₀ reuse (s.includeAll f location merged raws) fun t => t.WellFormed ∧
        ∀ raw ∈ raws, ∀ entry, IncludeEntry.parse raw = .ok entry → ∀ file,
          (s.settings.meeting w₀ s.owner raw entry).found = some file → s.Loaded w₀ file by
    refine attains_orFail.bind fun raws hnames => ?_
    refine (hall raws .empty wellFormed_empty).mono fun t ht =>
      ⟨ht.1, ⟨raws, hnames⟩, fun raws' hnames' => ?_⟩
    cases hnames.symm.trans hnames'
    exact ht.2
  intro raws
  induction raws with
  | nil => exact fun merged h => Ends.pure ⟨h, by simp⟩
  | cons raw rest ih =>
    intro merged h
    unfold includeAll
    refine attains_orFail.bind fun entry hentry => (attains_find raw entry).bind
      fun found hfound => ?_
    cases found with
    | none =>
      refine (ih merged h).mono fun t ht => ⟨ht.1, List.forall_mem_cons.2 ⟨?_, ht.2⟩⟩
      intro entry' hentry' file hfile
      cases hentry.symm.trans hentry'
      cases hfound.trans hfile
    | some file =>
      refine (attains_includeFile hload h file).bind fun merged hmerged => ?_
      refine (ih merged hmerged.1).mono fun t ht => ⟨ht.1, List.forall_mem_cons.2 ⟨?_, ht.2⟩⟩
      intro entry' hentry' file' hfile'
      cases hentry.symm.trans hentry'
      cases hfound.trans hfile'
      exact hmerged.2

end Including

/-! ## The includes of a document -/

/-- If a mapping had the `_include`, what its directives have made of it so far still has it, or its
files have been loaded. -/
structure Accounted (s : Scope InWorld) (w₀ : World) (value : Tree) (own es : Entries) : Prop where
  wellFormed : WellFormed (.map es)
  kept : HasInclude (.map own) value → s.Included w₀ value ∨ HasInclude (.map es) value

theorem accounted_rebindable (own : Entries) :
    Rebindable (WellFormedSources reuse) (s.Accounted w₀ value own) := by
  intro es first others path new hes hJ hnew
  have hkeeps : KeepsEntries [] es es := ⟨hes.wellFormed, Keeps.refl _⟩
  exact wellFormedSources_rebindable es hkeeps hJ hnew

theorem attains_rebind {own es : Entries} (hes : s.Accounted w₀ value own es) :
    Attains w₀ reuse (rebind position es) fun _ => True :=
  Ends.of_steps (P := True ∧ s.Accounted w₀ value own es) (steps_rebind (accounted_rebindable own)
    es) ⟨trivial, hes⟩ fun _ _ _ _ _ => trivial

/-- A flattening is taken from values that have no entries. -/
theorem not_hasInclude_of_take {es : Entries} {f : Flattening}
    (hok : (Flattening.take es).2 = .ok f) {name : String}
    (hname : name ∈ [flattenKey, separatorKey]) {u : Tree}
    (hu : Entries.get? es (.str name) = some u) : ¬ u.HasInclude value := by
  unfold Flattening.take at hok
  rcases List.mem_pair.1 hname with rfl | rfl
  · rw [hu] at hok
    cases u with
    | map es => cases hok
    | seq items => cases hok
    | _ => exact fun hhas => hhas trivial
  · dsimp only at hok
    rw [hu] at hok
    split at hok
    · cases hok
    · cases u with
      | map es => cases hok
      | seq items => cases hok
      | _ => exact fun hhas => hhas trivial

/-- No `_include` is taken off with the flattening. -/
theorem Accounted.take {es : Entries} (hes : WellFormed (.map es)) {f : Flattening}
    (hok : (Flattening.take es).2 = .ok f) :
    s.Accounted w₀ value es (Flattening.take es).1 := by
  have hkept : ∀ {es₁ : Entries}, WellFormed (.map es₁) → ∀ {name},
      name ∈ [flattenKey, separatorKey] →
      Entries.get? es₁ (.str name) = Entries.get? es (.str name) → HasInclude (.map es₁) value →
      HasInclude (.map (Entries.erase es₁ (.str name))) value := by
    intro es₁ hes₁ name hname hsame hhas
    rcases hasInclude_erase hes₁ name hhas with hkept | ⟨u, hu, hhere⟩
    · exact hkept
    · rcases hhere with ⟨rfl, -⟩ | hbelow
      · exact absurd hname (by decide)
      · exact absurd hbelow (not_hasInclude_of_take hok hname (hsame ▸ hu))
  rw [Flattening.take_fst hok]
  have hdepth := hes.erase (.str flattenKey)
  refine ⟨hdepth.erase _, fun hhas => .inr ?_⟩
  refine hkept hdepth (by simp) (Entries.get?_erase (by simp [flattenKey, separatorKey])) ?_
  exact hkept hes (by simp) rfl hhas

section Resolving

variable {raws : List String} (hvalue : Directive.names includeKey value = .ok raws)
include hvalue

/-- When a directive has been carried out, the `_include` is still there, unless it was this. -/
theorem Accounted.underlay {base : Tree} {own es : Entries} (h : s.Accounted w₀ value own es)
    (hbase : base.WellFormed) {name : String} {u : Tree}
    (hu : Entries.get? es (.str name) = some u) {names : List String}
    (hnames : Directive.names name u = .ok names)
    (hdone : name = includeKey → u = value → s.Included w₀ value) :
    s.Accounted w₀ value own (Tree.underlay base (Entries.erase es (.str name))) := by
  have hnotMap : ∀ es, value ≠ .map es := by
    rintro es rfl
    cases hvalue
  have herase : WellFormed (.map (Entries.erase es (.str name))) := h.wellFormed.erase _
  refine ⟨hbase.underlay herase, fun hown => ?_⟩
  rcases h.kept hown with hincluded | hhas
  · exact .inl hincluded
  · rcases hasInclude_erase h.wellFormed name hhas with hkept | ⟨u', hu', hhere⟩
    · rw [map_underlay herase]
      exact .inr (hkept.merge hnotMap hbase herase)
    · cases hu.symm.trans hu'
      rcases hhere with ⟨hname, heq⟩ | hbelow
      · exact .inl (hdone hname heq)
      · exact absurd hbelow (Reuse.not_somewhere_of_names hnames)

section Including

variable (hincludes : s.includes = true)
  (hload : ∀ file chain location, Fulfils (fun _ => True) (SameFiles w₀) True
    (s.load file chain location) fun r => r.1.WellFormed)
include hincludes hload

theorem attains_includeStep {own es : Entries} (h : s.Accounted w₀ value own es) :
    Attains w₀ reuse (s.includeStep f location position es) (s.Accounted w₀ value own) := by
  unfold includeStep
  dsimp only
  rw [if_pos hincludes]
  cases hu : Entries.get? es (.str includeKey) with
  | none => exact Ends.pure h
  | some u =>
    refine (attains_included hload u).bind fun base hbase => ?_
    obtain ⟨hwf, ⟨names, hnames⟩, hincluded⟩ := hbase
    have hunder := h.underlay hvalue hwf hu hnames fun _ heq => heq ▸ hincluded
    exact (attains_rebind hunder).bind fun _ _ => Ends.pure hunder

end Including

variable {resolve : Tree → String → Resolving InWorld Tree}
  (hresolve : ∀ base location, base.WellFormed →
    Attains w₀ reuse (resolve base location) WellFormed)
include hresolve

omit hvalue in
theorem attains_reused {sources : List Tree} (hsources : WellFormedSources reuse (some sources))
    (u : Tree) : Attains w₀ reuse (s.reused resolve sources u location f) fun t =>
      t.WellFormed ∧ ∃ names, Directive.names useKey u = .ok names := by
  unfold reused
  refine attains_orFail.bind fun names hnames => ?_
  refine (ends_mergeSections (H := WellFormed) WellFormed.merge (fun _ _ _ => trivial)
    (fun _ _ _ _ _ => trivial) (fun name _ found hfound => ?_) wellFormed_empty).bind
      fun base hbase => ?_
  · obtain ⟨t, ht, hlookup⟩ := List.exists_of_findSome?_eq_some hfound
    exact WellFormed.lookup (hsources.2 sources rfl t ht) hlookup
  · exact (hresolve base location hbase).bind fun t ht => Ends.pure ⟨ht.flatten _ _, names, hnames⟩

theorem attains_useStep {own es : Entries} (h : s.Accounted w₀ value own es) :
    Attains w₀ reuse (s.useStep resolve f location position es) (s.Accounted w₀ value own) := by
  unfold useStep
  dsimp only
  refine ends_get.bind fun progress hprogress => ?_
  split
  next sources u hsources hu =>
    refine (attains_reused hresolve (hsources ▸ hprogress) u).bind fun base hbase => ?_
    obtain ⟨hwf, names, hnames⟩ := hbase
    have hunder := h.underlay hvalue hwf hu hnames fun hname => absurd hname (by decide)
    exact (attains_rebind hunder).bind fun _ _ => Ends.pure hunder
  · exact Ends.pure h

omit hvalue hresolve in
/-- The files of an `_include` in a tree have been loaded if those of one in a mapping with
directives have. -/
theorem included_follows : Follows WellFormed (fun _ _ => True)
    fun t _ => t.HasInclude value → s.Included w₀ value where
  inItems h := wellFormed_seq.1 h
  inEntries h e he := ((wellFormed_map.1 h).2 e he).2
  leaf {t} _ hseq hmap _ hhas := by
    cases t with
    | seq items => exact absurd rfl (hseq items)
    | map es => exact absurd rfl (hmap es)
    | _ => exact absurd trivial hhas
  seq _ _ h hhas := by
    obtain ⟨t, ht, hbelow⟩ := somewhere_seq.1 hhas
    obtain ⟨-, -, hdone⟩ := exists_of_mem_forall₂ h.flip ht
    exact hdone hbelow
  map _ hdirected _ h hhas := by
    rcases hasInclude_map.1 hhas with hmem | ⟨e, he, hbelow⟩
    · exact absurd rfl (isDirected_eq_false.1 hdirected _ hmem includeKey (by simp [all]))
    · obtain ⟨-, -, -, hdone⟩ := exists_of_mem_forall₂ h.flip he
      exact hdone hbelow

/-- When a mapping with directives has been resolved, no `_include` in it is left. -/
theorem attains_resolveMapping (hincludes : s.includes = true)
    (hload : ∀ file chain location, Fulfils (fun _ => True) (SameFiles w₀) True
      (s.load file chain location) fun r => r.1.WellFormed) (room : Nat) {es : Entries}
    (hes : WellFormed (.map es)) (location : String) (position : Position) :
    Attains w₀ reuse (s.resolveMapping resolve room es location position)
      fun _ => HasInclude (.map es) value → s.Included w₀ value := by
  induction room generalizing es location position with
  | zero => exact Ends.fail trivial
  | succ room ih =>
    unfold resolveMapping
    dsimp only
    refine attains_orFail.bind fun flattening hok => ?_
    refine (ends_substitute_settled (I := s.Accounted w₀ value es) trivial
      (fun h => attains_includeStep hvalue hincludes hload h)
      (fun h => attains_useStep hvalue hresolve h) substitutionLimit (.take hes hok)).bind
        fun es' hdone => ?_
    obtain ⟨hes', sources, -, hsettled⟩ := hdone
    have hvalues : ∀ e ∈ es', ∀ location position, True → Attains w₀ reuse
        (resolveTree (s.resolveMapping resolve room) location position e.2)
        fun _ => e.2.HasInclude value → s.Included w₀ value := by
      intro e he location position _
      exact ends_resolveTree_related included_follows
        (fun es location position _ hes => ih hes location position)
        ((wellFormed_map.1 hes'.wellFormed).2 e he).2 location position
    refine (ends_resolveEntries_related (R := fun t _ => t.HasInclude value → s.Included w₀ value)
      (fun _ _ h => h) hvalues location trivial).bind fun es'' h => Ends.pure fun hhas => ?_
    rcases hes'.kept hhas with hincluded | hleft
    · exact hincluded
    · rcases hasInclude_map.1 hleft with hmem | ⟨e, he, hbelow⟩
      · have hnone := hsettled.1 hincludes
        rw [Entries.has_str.2 ⟨_, hmem⟩] at hnone
        cases hnone
      · obtain ⟨-, -, -, hdone⟩ := exists_of_mem_forall₂ h.flip he
        exact hdone hbelow

end Resolving

/-- When a document has been resolved, no `_include` in it is left. -/
theorem attains_resolveDocument {raws : List String}
    (hvalue : Directive.names includeKey value = .ok raws) (hincludes : s.includes = true)
    (hload : ∀ file chain location, Fulfils (fun _ => True) (SameFiles w₀) True
      (s.load file chain location) fun r => r.1.WellFormed) {document : Tree}
    (hdocument : document.WellFormed) (location : String) (position : Position) :
    Attains w₀ reuse (s.resolveDocument location position document)
      fun _ => document.HasInclude value → s.Included w₀ value := by
  have hresolve : ∀ base location, base.WellFormed →
      Attains w₀ reuse (s.resolveReused substitutionLimit base location) WellFormed :=
    fun base location hbase => Ends.of_steps (steps_resolveReused_wellFormed
      (SameFiles.unnoted w₀) hload substitutionLimit base location) hbase fun _ _ _ _ _ => trivial
  exact ends_resolveTree_related included_follows (fun es location position _ hes =>
    attains_resolveMapping hvalue hresolve hincludes hload _ hes location position) hdocument
    location position

end Scope

/-! ## Files that include one another -/

namespace Settings

variable {s : Settings} {w : World} {g h : FilePath} {chain : List FilePath}

/-- An `_include` in the document of the first file, outside of tags and keys, has an entry for
which the second is found. -/
def Includes (s : Settings) (w : World) (g h : FilePath) : Prop :=
  ∃ document value raws raw entry, (w.document g).1 = some document ∧
    document.HasInclude value ∧ Directive.names includeKey value = .ok raws ∧ raw ∈ raws ∧
    IncludeEntry.parse raw = .ok entry ∧ (s.meeting w g raw entry).found = some h

/-- The file has been loaded at the end of the chain. -/
def LoadedAfter (s : Settings) (w : World) (chain : List FilePath) (g : FilePath) : Prop :=
  ∃ budget request w₁ r w', SameFiles w w₁ ∧ request.path = g ∧ request.chain = chain ∧
    request.includes = true ∧ (∀ list ∈ request.sources, ∀ t ∈ list, t.WellFormed) ∧
    outcome (s.loadFile budget request) w₁ = (.ok r, w')

/-- Loads of files give well-formed trees, and change no file. -/
theorem fulfils_loadFile_sameFiles (hs : s.cache = none) {w₀ : World} (budget : Nat)
    {request : Request} (hsources : ∀ list ∈ request.sources, ∀ t ∈ list, t.WellFormed) :
    Fulfils (fun _ => True) (SameFiles w₀) True (s.loadFile budget request)
      fun r => r.1.WellFormed := by
  intro w₁ r w' hrun
  obtain ⟨read, hread, hpost⟩ := (fulfils_loadFile_wellFormed (S := fun _ => True) (P := True)
    budget hsources) hrun
  refine ⟨read, hread, fun _ _ hw => ⟨(hpost trivial (fun _ _ => trivial) trivial).1, ?_⟩⟩
  obtain ⟨warned, read, -, hgrown, -⟩ := blind_loadFile hs budget request (.refl w₁)
  rw [hrun] at hgrown
  exact hw.trans hgrown.toSameFiles

/-- When a file has been loaded, so has every file that it includes, with a longer chain. -/
theorem LoadedAfter.includes (hs : s.cache = none) (hg : s.LoadedAfter w chain g)
    (hincludes : s.Includes w g h) : h ∉ chain ∧ s.LoadedAfter w (chain ++ [h]) h := by
  obtain ⟨document, value, raws, raw, entry, hdocument, hhas, hnames, hraw, hentry, hfound⟩ :=
    hincludes
  obtain ⟨budget, request, w₁, r, w', hw₁, rfl, rfl, hon, hsources, hrun⟩ := hg
  cases budget with
  | zero => cases hrun
  | succ budget =>
    rcases loadFile_ok hrun with hcached |
      ⟨document', added, tree, consulted, w₂, w₃, w₄, hcached, hread, hadd, hresolve, -⟩
    · rw [storeFor?_eq_none (.inl hs)] at hcached
      cases hcached
    · rw [storeFor?_eq_none (.inl hs)] at hcached
      cases hcached
      rw [hw₁.document_eq, hdocument, Option.some_inj] at hread
      subst hread
      have hw₃ : SameFiles w w₃ := by
        obtain ⟨a, w₃', hrun₃, -, hkept⟩ :=
          (leaves_add (SameFiles.unnoted w).noting Ledger.empty request.path) _
        cases hadd.symm.trans hrun₃
        exact hkept ((SameFiles.unnoted w).parsed hw₁ _)
      let load : FilePath → List FilePath → String → ExceptT Error InWorld (Tree × Ledger) :=
        fun path chain location =>
          s.loadFile budget (s.includedRequest request.pathField path chain location)
      have hload : ∀ file chain location, Fulfils (fun _ => True) (SameFiles w) True
          (load file chain location) fun r => r.1.WellFormed := fun file chain location =>
        fulfils_loadFile_sameFiles hs budget (by simp [includedRequest])
      unfold resolveFor at hresolve
      obtain ⟨room, w₅, hroom, hresolve⟩ := outcome_bind_ok hresolve
      cases hroom
      obtain ⟨⟨t, p⟩, w₆, hresolve, -⟩ := outcome_bind_ok hresolve
      have hdocument : document.WellFormed := document_wellFormed hdocument
      have hattains : Scope.Attains w request.sources.isSome
          ((s.scope load request (Yaml.depthLimit * (w₃.nodes.length + 1))).resolveDocument
            request.location request.position document)
          fun _ => document.HasInclude value → (s.scope load request
            (Yaml.depthLimit * (w₃.nodes.length + 1))).Included w value :=
        Scope.attains_resolveDocument hnames hon hload hdocument _ _
      obtain ⟨hok, -⟩ := hattains ⟨request.sourcesWith document, Ledger.empty⟩ w₃
        (wellFormedSources_with hsources hdocument) hw₃
      obtain ⟨hincluded, -⟩ := hok t p w₆ hresolve
      obtain ⟨hchain, location, w₇, r', w₈, hw₇, hloaded⟩ :=
        hincluded hhas raws hnames raw hraw entry hentry h hfound
      exact ⟨hchain, budget, s.includedRequest request.pathField h request.chain location, w₇, r',
        w₈, hw₇, rfl, rfl, rfl, by simp [includedRequest], hloaded⟩

/-- Files that can be reached from a loaded file have been loaded, with a chain through all files
on the way. -/
theorem LoadedAfter.reach (hs : s.cache = none) (hg : s.LoadedAfter w chain g)
    (hreach : Relation.ReflTransGen (s.Includes w) g h) :
    ∃ further, s.LoadedAfter w (chain ++ further) h ∧ (h = g ∨ h ∈ further) := by
  induction hreach with
  | refl => exact ⟨[], by rwa [List.append_nil], .inl rfl⟩
  | tail _ hincludes ih =>
    obtain ⟨further, hloaded, -⟩ := ih
    obtain ⟨-, hnext⟩ := hloaded.includes hs hincludes
    exact ⟨_, List.append_assoc _ _ _ ▸ hnext, .inr (List.mem_append_right _ List.mem_cons_self)⟩

/-- A loaded file at the end of its chain does not lead back to itself. -/
theorem LoadedAfter.acyclic (hs : s.cache = none) (hg : s.LoadedAfter w chain g)
    (hmem : g ∈ chain) : ¬ Relation.TransGen (s.Includes w) g g := by
  intro hcycle
  obtain ⟨h, hreach, hback⟩ := Relation.TransGen.tail'_iff.1 hcycle
  obtain ⟨further, hloaded, -⟩ := hg.reach hs hreach
  exact (hloaded.includes hs hback).1 (List.mem_append_left _ hmem)

/-- **Including files.** Without a cache a load asks only for files whose chains of includers name
different files, in normal form, and no more of them than there are: it ends the same if all other
requests are refused, with whatever error. It does not end because a document is unbounded, if the
separators asked for are clear of the names of directives. And if it succeeds, no file that is
reached from the loaded one by `_include`s includes itself, be it through others. -/
theorem includes_are_bounded_and_acyclic (hs : s.cache = none) (path : FilePath) (o : LoadOptions)
    (w : World) :
    (∀ refusal, outcome (s.loadIf (fun request => request.chain.Nodup ∧
          (∀ f ∈ request.chain, FilePath.normalize w.directory f = f) ∧
          request.chain.length ≤ w.fileCount + 1) refusal path o) w =
        outcome (s.load path o) w) ∧
      (o.includes = true → (∀ f ∈ o.pathField, f ∉ all) →
        (∀ list ∈ o.sources, ∀ t ∈ list, t.SeparatorsClear) → w.SeparatorsClear →
        ∀ e w', outcome (s.load path o) w = (.error e, w') → ¬ e.IsUnbounded) ∧
      (o.includes = true → (∀ list ∈ o.sources, ∀ t ∈ list, t.WellFormed) →
        ∀ r w', outcome (s.load path o) w = (.ok r, w') →
        ∀ g, Relation.ReflTransGen (s.Includes w) (FilePath.normalize w.directory path) g →
          ¬ Relation.TransGen (s.Includes w) g g) := by
  refine ⟨fun refusal => ?_, fun hincludes hfield hsources hclear e w' hrun => ?_,
    fun hincludes hsources r w' hrun g hreach => ?_⟩
  · refine loadIf_eq hs (fun request h => ⟨h.nodup, fun f hf => ?_, h.length_le⟩) refusal path o
    exact (h.normal f hf).normalize_eq w.directory
  · exact load_bounded hs hincludes hfield hsources hclear hrun
  · rw [load_run] at hrun
    have hfirst : s.LoadedAfter w [FilePath.normalize w.directory path]
        (FilePath.normalize w.directory path) :=
      ⟨_, _, w, r, w', .refl w, rfl, rfl, hincludes,
        LoadOptions.forall_request_sources hsources _ _, hrun⟩
    obtain ⟨further, hg, hthere⟩ := hfirst.reach hs hreach
    refine hg.acyclic hs ?_
    rcases hthere with rfl | hmem
    · exact List.mem_cons_self
    · exact List.mem_append_right _ hmem

/-- A world with a file that includes another, which includes a third under a winding path. -/
def threeFiles : World :=
  including "./a.yml" [(["a.yml"], .file "n: {_include: sub/.././b.yml}
".toUTF8 ⟨5⟩),
    (["b.yml"], .file "k: 2
".toUTF8 ⟨5⟩)]

theorem three_files_are_acyclic :
    (∃ r w', outcome (default.load ⟨"root.yml"⟩ LoadOptions.default) threeFiles = (.ok r, w') ∧
      r.1 = .map [(.str "n", .map [(.str "k", .int 2)]), (.str "k", .int 1)]) ∧
    default.Includes threeFiles ⟨"/root.yml"⟩ ⟨"/a.yml"⟩ ∧
    ¬ Relation.TransGen (default.Includes threeFiles) ⟨"/a.yml"⟩ ⟨"/a.yml"⟩ ∧
    (∀ path refusal, outcome (default.loadIf (fun request => request.chain.Nodup ∧
        (∀ f ∈ request.chain, FilePath.normalize threeFiles.directory f = f) ∧
        request.chain.length ≤ threeFiles.fileCount + 1) refusal path LoadOptions.default)
        threeFiles = outcome (default.load path LoadOptions.default) threeFiles) ∧
    ∀ path e w', outcome (default.load path LoadOptions.default) threeFiles = (.error e, w') →
      ¬ e.IsUnbounded := by
  have hloads : succeeds (default.load ⟨"root.yml"⟩ LoadOptions.default) threeFiles
      (fun r _ => r.1 == .map [(.str "n", .map [(.str "k", .int 2)]), (.str "k", .int 1)]) := by
    decide +kernel
  obtain ⟨r, w', hrun, htree⟩ := succeeds_iff.1 hloads
  have hincludes : default.Includes threeFiles ⟨"/root.yml"⟩ ⟨"/a.yml"⟩ := by
    have hdocument : (threeFiles.document ⟨"/root.yml"⟩).1 = some (.map
        [(.str includeKey, .seq [.str "./a.yml"]), (.str "k", .int 1)]) := by decide +kernel
    refine ⟨_, .seq [.str "./a.yml"], ["./a.yml"], "./a.yml", ⟨"./a.yml", none, false, false⟩,
      hdocument, hasInclude_map.2 (.inl (by simp)), rfl, by simp, ?_, ?_⟩
    · decide +kernel
    · decide +kernel
  have hall (path : FilePath) := includes_are_bounded_and_acyclic (s := default) rfl path
    LoadOptions.default threeFiles
  obtain ⟨-, -, hacyclic⟩ := hall ⟨"root.yml"⟩
  refine ⟨⟨r, w', hrun, eq_of_beq htree⟩, hincludes, ?_, fun path => (hall path).1,
    fun path e w' herror => ?_⟩
  · exact hacyclic rfl (by simp [LoadOptions.default]) r w' hrun _ (.single hincludes)
  · exact (hall path).2.1 rfl (by simp [LoadOptions.default]) (by simp [LoadOptions.default])
      (by decide +kernel) e w' herror

/-- A mapping that stands as a key is left alone, so nothing is found wrong with a file that
includes itself there. -/
theorem include_in_key_is_left :
    succeeds (default.load ⟨"root.yml"⟩ LoadOptions.default)
      (.holding [(["root.yml"], .file "? \x7b_include: root.yml\x7d\n: 1\n".toUTF8 ⟨5⟩)])
      (fun r _ => r.1 == .map [(.map [(.str includeKey, .str "root.yml")], .int 1)]) = true := by
  decide +kernel

end Settings

end LayeredConfig
