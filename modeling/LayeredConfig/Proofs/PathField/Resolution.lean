import LayeredConfig.Proofs.DirectiveFree
import LayeredConfig.Proofs.Nesting
import LayeredConfig.Proofs.PathField.Twins

/-!
# Resolutions with and without the field

Two resolutions of a document, whose included files come with the field for their paths in the one
and without it in the other, are twins: the second goes through the trees that the first goes
through, without the field (`Strips`).

Nodes of the field count for the room in which reused sections are resolved, so the resolutions
have different room. Neither runs out of it, since directives are not deeper than there is room for
(`Tree.Within`).
-/

namespace LayeredConfig

open Directive Tree

/-- The second tree is the first without the field, which does no harm there. -/
structure Strips (f : String) (t t' : Tree) : Prop where
  strip : t' = t.strip f
  carries : t.Carries f

namespace Strips

variable {f : String} {t t' base base' : Tree} {es es' : Entries}

theorem of_mentions (h : t.mentions f = false) (hflat : t.Lacks [flattenKey]) : Strips f t t :=
  ⟨(strip_of_mentions h).symm, carries_of_mentions h hflat⟩

theorem empty : Strips f .empty .empty := of_mentions rfl everywhere_empty

theorem entries (h : Strips f (.map es) (.map es')) : es' = stripEntries f es := by
  simpa using h.strip

theorem merge (hbase : Strips f base base') (h : Strips f t t') :
    Strips f (base.merge t) (base'.merge t') where
  strip := by rw [hbase.strip, h.strip, strip_merge]
  carries := Everywhere.merge (layered_carries f) hbase.carries h.carries

theorem underlay (hbase : Strips f base base') (h : Strips f (.map es) (.map es')) :
    Strips f (.map (Tree.underlay base es)) (.map (Tree.underlay base' es')) where
  strip := by rw [strip_map, strip_underlay, hbase.strip, h.entries]
  carries := Everywhere.underlay (layered_carries f) hbase.carries h.carries

theorem erase (h : Strips f (.map es) (.map es')) (key : Tree) :
    Strips f (.map (Entries.erase es key)) (.map (Entries.erase es' key)) where
  strip := by rw [strip_map, Entries.strip_erase, h.entries]
  carries := Everywhere.erase h.carries key

theorem isMapping (h : Strips f t t') : t'.isMapping = t.isMapping := by
  rw [h.strip, isMapping_strip]

theorem has (h : Strips f (.map es) (.map es')) {name : String} (hname : name ≠ f) :
    Entries.has es' (.str name) = Entries.has es (.str name) := by
  rw [h.entries, Entries.has_strip]
  exact fun heq => hname (Tree.str.inj heq)

theorem get? (h : Strips f (.map es) (.map es')) {name : String} (hname : name ≠ f) :
    Entries.get? es' (.str name) = (Entries.get? es (.str name)).map (Tree.strip f) := by
  rw [h.entries, Entries.get?_strip]
  exact fun heq => hname (Tree.str.inj heq)

/-- Nothing is flattened, and only directives are erased when the flattening is taken off. -/
theorem take (hf : f ∉ all) (h : Strips f (.map es) (.map es')) :
    (Flattening.take es').2 = (Flattening.take es).2 ∧
      ∀ flattening, (Flattening.take es).2 = .ok flattening → flattening.depth = 0 ∧
        Strips f (.map (Flattening.take es).1) (.map (Flattening.take es').1) := by
  have htake := take_strip hf es
  rw [← h.entries] at htake
  refine ⟨by rw [htake], fun flattening hok => ⟨?_, ?_⟩⟩
  · have hnone : Entries.get? es (.str flattenKey) = none := by
      rw [Entries.get?_eq_none]
      intro e he
      rw [same_str_eq_false]
      exact (everywhere_map.1 h.carries e he).1.2.2
    unfold Flattening.take at hok
    rw [hnone] at hok
    dsimp only at hok
    cases hget : Entries.get? es (.str separatorKey) with
    | none =>
      rw [hget] at hok
      cases hok
      rfl
    | some value =>
      rw [hget] at hok
      dsimp only at hok
      cases hseparator : Flattening.separatorOf value with
      | error fault =>
        rw [hseparator] at hok
        cases hok
      | ok separator =>
        rw [hseparator] at hok
        cases hok
        rfl
  · have hok' : (Flattening.take es').2 = .ok flattening := by rw [htake, hok]
    rw [Flattening.take_fst hok, Flattening.take_fst hok']
    exact (h.erase _).erase _

theorem isDirected (hf : f ∉ all) (h : Strips f (.map es) (.map es')) :
    Scope.isDirected es' = Scope.isDirected es := by
  have hname : ∀ name ∈ all, name ≠ f := fun name hmem heq => hf (heq ▸ hmem)
  simp only [Scope.isDirected, List.any_cons, List.any_nil]
  rw [h.has (hname flattenKey (by simp [all])), h.has (hname separatorKey (by simp [all])),
    h.has (hname includeKey (by simp [all])), h.has (hname useKey (by simp [all]))]

/-- The field is an entry of the first tree only. -/
theorem cons_field (hf : f ∉ all) (h : Strips f (.map es) (.map es')) (text : String) :
    Strips f (.map ((.str f, .str text) :: es)) (.map es') where
  strip := by rw [strip_map, stripEntries_self, h.entries]
  carries := by
    refine everywhere_map.2 (List.forall_mem_cons.2 ⟨⟨⟨fun _ => ⟨text, rfl⟩, fun _ => rfl, ?_⟩,
      trivial⟩, everywhere_map.1 h.carries⟩)
    rintro ⟨⟩
    exact hf (by simp [all])

theorem cons {key : Tree} (htext : Yaml.keyText key ≠ f) (hflat : key ≠ .str flattenKey)
    (ht : Strips f t t') (h : Strips f (.map es) (.map es')) :
    Strips f (.map ((key, t) :: es)) (.map ((key, t') :: es')) := by
  have hkey : key ≠ .str f := by
    rintro rfl
    exact htext rfl
  constructor
  · rw [strip_map, stripEntries_cons hkey, h.entries, ht.strip]
  · exact everywhere_map.2 (List.forall_mem_cons.2 ⟨⟨⟨fun heq => absurd heq hkey,
      fun heq => absurd heq htext, hflat⟩, ht.carries⟩, everywhere_map.1 h.carries⟩)

/-- What comes first is the field, or an entry of both trees. -/
theorem cons_cases {key value : Tree} (h : Strips f (.map ((key, value) :: es)) (.map es')) :
    ∃ rest, Strips f (.map es) (.map rest) ∧
      ((∃ text, key = .str f ∧ value = .str text ∧ es' = rest) ∨
        Yaml.keyText key ≠ f ∧ key ≠ .str flattenKey ∧ ∃ value',
          Strips f value value' ∧ es' = (key, value') :: rest) := by
  obtain ⟨⟨hentry, hvalue⟩, hrest⟩ := List.forall_mem_cons.1 (everywhere_map.1 h.carries)
  refine ⟨stripEntries f es, ⟨(strip_map es).symm, everywhere_map.2 hrest⟩, ?_⟩
  by_cases hkey : key = .str f
  · obtain ⟨text, rfl⟩ := hentry.1 hkey
    subst hkey
    refine .inl ⟨text, rfl, rfl, ?_⟩
    rw [h.entries, stripEntries_self]
  · refine .inr ⟨fun htext => hkey (hentry.2.1 htext), hentry.2.2, value.strip f,
      ⟨rfl, hvalue⟩, ?_⟩
    rw [h.entries, stripEntries_cons hkey]

theorem seq {items items' : List Tree} :
    Strips f (.seq items) (.seq items') ↔ List.Forall₂ (Strips f) items items' := by
  constructor
  · intro h
    have hitems : items' = items.map (Tree.strip f) := by
      simpa [stripItems_eq_map] using h.strip
    rw [hitems, List.forall₂_map_right_iff, List.forall₂_same]
    exact fun t ht => ⟨rfl, everywhere_seq.1 h.carries t ht⟩
  · intro h
    constructor
    · rw [strip_seq, stripItems_eq_map]
      induction h with
      | nil => rfl
      | cons ht _ ih => rw [List.map_cons, ht.strip, Tree.seq.inj ih]
    · refine everywhere_seq.2 fun t ht => ?_
      obtain ⟨t', -, hstrips⟩ := exists_of_mem_forall₂ h.flip ht
      exact hstrips.carries

/-- A section that is found is found in the other tree too, unless it is no mapping. -/
theorem lookup (h : Strips f t t') (path : List Segment) :
    (∃ found found', t.lookup path = some found ∧ t'.lookup path = some found' ∧
      Strips f found found') ∨
    t'.lookup path = none ∧ ∀ found, t.lookup path = some found → found.isMapping = false := by
  rw [h.strip]
  rcases lookup_strip h.carries path with hsame | ⟨hnone, s, hs⟩
  · rw [hsame]
    cases hfound : t.lookup path with
    | none => exact .inr ⟨rfl, by simp⟩
    | some found =>
      exact .inl ⟨found, found.strip f, rfl, rfl, rfl, Everywhere.lookup h.carries hfound⟩
  · refine .inr ⟨hnone, fun found hfound => ?_⟩
    cases hs.symm.trans hfound
    rfl

/-- Present forms of a mapping are put into the first source. -/
theorem rebound (ht : Strips f t t') (h : Strips f (.map es) (.map es')) {path : List Segment}
    (hpath : .key f ∉ path) :
    Strips f ((Tree.replace? (.map es) path t).getD t)
      ((Tree.replace? (.map es') path t').getD t') := by
  rw [h.entries, ht.strip, strip_replace? hpath]
  cases hnew : Tree.replace? (.map es) path t with
  | none => exact ⟨rfl, ht.carries⟩
  | some new => exact ⟨rfl, h.carries.replace? ht.carries hpath hnew⟩

end Strips

/-! ## What is pulled in, and where -/

/-- What a tree is in both resolutions once its directives are carried out. A `_use` is left if
sections are not reused, and then it is at most `depth` levels down. -/
structure Outcome (f : String) (reuse : Bool) (pulled depth : Nat) (t t' : Tree) : Prop extends
    Strips f t t' where
  lacks : t'.Lacks (carriedOut true reuse)
  within : t'.Within pulled depth

/-- What an included file is in both resolutions; its `_use` is left. -/
abbrev Included (f : String) (pulled : Nat) (t t' : Tree) : Prop :=
  Outcome f false pulled pulled t t'

namespace Outcome

variable {f : String} {reuse : Bool} {pulled depth : Nat} {t t' base base' : Tree}

theorem empty : Outcome f reuse pulled depth .empty .empty :=
  ⟨Strips.empty, everywhere_empty, within_of_lacks everywhere_empty⟩

theorem merge (hbase : Outcome f reuse pulled depth base base')
    (h : Outcome f reuse pulled depth t t') :
    Outcome f reuse pulled depth (base.merge t) (base'.merge t') :=
  ⟨hbase.toStrips.merge h.toStrips, hbase.lacks.merge h.lacks, hbase.within.merge h.within⟩

end Outcome

/-- Both resolutions leave `_use` alone, or both look sections up in one tree. -/
def StripsSources (f : String) : (reuse : Bool) → (sources sources' : Option (List Tree)) → Prop
  | false, sources, sources' => sources = none ∧ sources' = none
  | true, sources, sources' => ∃ t t', sources = some [t] ∧ sources' = some [t'] ∧ Strips f t t'

theorem StripsSources.isSome {f : String} {reuse : Bool} {sources sources' : Option (List Tree)}
    (h : StripsSources f reuse sources sources') :
    sources.isSome = reuse ∧ sources'.isSome = reuse := by
  cases reuse with
  | false =>
    obtain ⟨rfl, rfl⟩ := h
    exact ⟨rfl, rfl⟩
  | true =>
    obtain ⟨t, t', rfl, rfl, -⟩ := h
    exact ⟨rfl, rfl⟩

/-- The position does not go by the key `f`. -/
def Position.Spares (f : String) (position : Position) : Prop :=
  ∀ path ∈ position, .key f ∉ path

theorem Position.Spares.entry {f name : String} {position : Position} (h : position.Spares f)
    (hname : name ≠ f) : (position.entry name).Spares f := by
  intro path hpath
  obtain ⟨lead, hlead, rfl⟩ := Option.map_eq_some_iff.1 hpath
  rw [List.mem_append, not_or]
  refine ⟨h lead hlead, fun hmem => hname ?_⟩
  exact (Segment.key.inj (List.mem_singleton.1 hmem)).symm

theorem Position.Spares.item {f : String} {position : Position} (h : position.Spares f) (i : Nat) :
    (position.item i).Spares f := by
  intro path hpath
  obtain ⟨lead, hlead, rfl⟩ := Option.map_eq_some_iff.1 hpath
  simpa using h lead hlead

/-- A mapping in the course of a resolution, with `depth` levels below it. -/
structure Underway (f : String) (pulled depth : Nat) (es es' : Entries) : Prop where
  strips : Strips f (.map es) (.map es')
  within : Tree.Within pulled (depth + 1) (.map es')
  taken : Entries.Without [flattenKey, separatorKey] es'

namespace Underway

variable {f : String} {pulled depth : Nat} {es es' : Entries} {base base' : Tree}

/-- What is placed beneath a mapping has no flattening, and its directives are not too deep. -/
theorem underlay (h : Underway f pulled depth es es') (hbase : Strips f base base')
    (hlacks : base'.Lacks [flattenKey, separatorKey]) (hwithin : base'.Within pulled (depth + 1))
    (key : Tree) : Underway f pulled depth (Tree.underlay base (Entries.erase es key))
      (Tree.underlay base' (Entries.erase es' key)) where
  strips := hbase.underlay (h.strips.erase key)
  within := hwithin.underlay (h.within.erase key)
  taken := Entries.Without.underlay hlacks (h.taken.erase key)

/-- Below a mapping with an `_include` there is room for what it pulls in. -/
theorem pulled_le (h : Underway f pulled depth es es') {value : Tree}
    (hvalue : Entries.get? es' (.str includeKey) = some value) : pulled ≤ depth := by
  obtain ⟨key, hmem, hsame⟩ := Entries.mem_of_get? hvalue
  exact (h.within _ hmem).1 (same_str.1 hsame)

end Underway

namespace Scope

/-- The same resolution with another room, and files loaded in another way. -/
def beside (s : Scope InWorld) (room : Nat)
    (load : FilePath → List FilePath → String → ExceptT Error InWorld (Tree × Ledger)) :
    Scope InWorld := { s with room := room, load := load }

variable {K : World → Prop} {f : String} {reuse : Bool} {pulled depth room room' : Nat}
  {s : Scope InWorld}
  {load : FilePath → List FilePath → String → ExceptT Error InWorld (Tree × Ledger)}
  {flattening : Flattening} {location : String} {position : Position}

/-- The present forms of a mapping stay abreast in the first source. -/
theorem twin_rebind {es es' : Entries} (h : Strips f (.map es) (.map es'))
    (hposition : position.Spares f) : TwinStep K (StripsSources f reuse) (fun _ _ => True)
      (rebind position es) (rebind position es') := by
  cases position with
  | none => exact .pure trivial
  | some path =>
    rintro ⟨sources, ledger⟩ ⟨sources', ledger'⟩ ⟨hledger, hsources⟩
    refine Twin.pure ⟨trivial, hledger, ?_⟩
    cases reuse with
    | false =>
      obtain ⟨rfl, rfl⟩ := hsources
      exact ⟨rfl, rfl⟩
    | true =>
      obtain ⟨t, t', rfl, rfl, ht⟩ := hsources
      exact ⟨_, _, rfl, rfl, ht.rebound h (hposition path rfl)⟩

/-! ## Including files -/

section Including

variable (hK : Unnoted K) (hf : f ∉ all) (hincludes : s.includes = true)
  (hload : ∀ file location, Twin K (fun r r' => Included f pulled r.1 r'.1 ∧ r'.2 = r.2)
    (s.load file s.chain location) (load file s.chain location))
include hload

theorem twin_includeFile (hflat : flattening.depth = 0) {merged merged' : Tree}
    (h : Included f pulled merged merged') (file : FilePath) :
    TwinStep K (StripsSources f reuse) (Included f pulled)
      (s.includeFile flattening location merged file)
      ((s.beside room load).includeFile flattening location merged' file) := by
  unfold includeFile
  rw [show (s.beside room load).chain = s.chain from rfl]
  by_cases hchain : s.chain.contains file = true
  · rw [if_pos hchain, if_pos hchain]
    exact .fail_bind
  · rw [if_neg hchain, if_neg hchain]
    refine (TwinStep.lift (hload file location)).bind fun r r' hr => ?_
    obtain ⟨t, l⟩ := r
    obtain ⟨t', l'⟩ := r'
    obtain ⟨ht, hl⟩ := hr
    obtain rfl : l' = l := hl
    refine (TwinStep.ledger fun ledger => ledger.update l').bind fun _ _ _ => ?_
    dsimp only at ht ⊢
    rw [ht.isMapping]
    split
    · exact .fail_bind
    · rw [hflat, flatten_zero, flatten_zero]
      exact .pure (h.merge ht)

include hK

theorem twin_includeAll (hflat : flattening.depth = 0) (raws : List String) {merged merged' : Tree}
    (h : Included f pulled merged merged') :
    TwinStep K (StripsSources f reuse) (Included f pulled)
      (s.includeAll flattening location merged raws)
      ((s.beside room load).includeAll flattening location merged' raws) := by
  induction raws generalizing merged merged' with
  | nil => exact .pure h
  | cons raw rest ih =>
    unfold includeAll
    refine (TwinStep.orFail _).bind fun entry _ hab => ?_
    obtain ⟨-, hentry⟩ := hab
    subst hentry
    refine (twin_find hK raw entry location).bind fun found _ hfound => ?_
    subst hfound
    cases found with
    | none => exact ih h
    | some file => exact (twin_includeFile hload hflat h file).bind fun _ _ hmerged => ih hmerged

include hf hincludes

theorem twin_includeStep (hflat : flattening.depth = 0) (hposition : position.Spares f)
    {es es' : Entries} (h : Underway f pulled depth es es') :
    TwinStep K (StripsSources f reuse) (Underway f pulled depth)
      (s.includeStep flattening location position es)
      ((s.beside room load).includeStep flattening location position es') := by
  have hkey : includeKey ≠ f := fun heq => hf (heq ▸ by simp [all])
  have hget := h.strips.get? hkey
  unfold includeStep
  dsimp only
  rw [show (s.beside room load).includes = s.includes from rfl, hincludes, if_pos rfl, if_pos rfl,
    hget]
  cases hvalue : Entries.get? es (.str includeKey) with
  | none => exact .pure h
  | some value =>
    rw [hvalue] at hget
    dsimp only [Option.map_some]
    have hincluded : TwinStep K (StripsSources f reuse) (Included f pulled)
        (s.included value location flattening)
        ((s.beside room load).included (value.strip f) location flattening) := by
      unfold included
      rw [names_strip]
      refine (TwinStep.orFail _).bind fun raws _ hab => ?_
      obtain ⟨-, hraws⟩ := hab
      subst hraws
      exact twin_includeAll hK hload hflat raws .empty
    refine hincluded.bind fun base base' hbase => ?_
    have hunder := h.underlay hbase.toStrips (hbase.lacks.mono (by simp [carriedOut]))
      (hbase.within.mono (Nat.le_succ_of_le (h.pulled_le hget))) (.str includeKey)
    exact (twin_rebind hunder.strips hposition).bind fun _ _ _ => .pure hunder

end Including

/-! ## Reusing sections -/

section Reusing

theorem sectionNamed?_singleton (t : Tree) (name : String) :
    sectionNamed? [t] name = t.lookup (SectionPath.parse name) := by
  rw [sectionNamed?, List.findSome?_cons]
  cases t.lookup (SectionPath.parse name) <;> rfl

theorem twin_mergeSections {t t' : Tree} (ht : Strips f t t') (names : List String)
    {merged merged' : Tree} (h : Strips f merged merged') :
    TwinStep K (StripsSources f reuse) (Strips f)
      (s.mergeSections [t] location merged names)
      ((s.beside room load).mergeSections [t'] location merged' names) := by
  induction names generalizing merged merged' with
  | nil => exact .pure h
  | cons name rest ih =>
    unfold mergeSections
    rw [sectionNamed?_singleton, sectionNamed?_singleton]
    rcases ht.lookup (SectionPath.parse name) with ⟨found, found', hfound, hfound', hstrips⟩ |
      ⟨hnone, hnot⟩
    · rw [hfound, hfound']
      dsimp only
      rw [hstrips.isMapping]
      split
      · exact ih (h.merge hstrips)
      · exact .fail
    · rw [hnone]
      -- The first resolution may come upon the text of the field, where the second finds nothing.
      cases hfound : t.lookup (SectionPath.parse name) with
      | none => exact .fail
      | some found =>
        dsimp only
        rw [hnot found hfound, if_neg (by simp)]
        exact .fail

variable {resolve resolve' : Tree → String → Resolving InWorld Tree} (hf : f ∉ all)
  (hresolve : reuse = true → ∀ base base' location, Strips f base base' →
    TwinStep K (StripsSources f reuse) (fun t t' => Strips f t t' ∧ t'.Lacks all)
      (resolve base location) (resolve' base' location))
include hf hresolve

theorem twin_useStep (hflat : flattening.depth = 0) (hposition : position.Spares f)
    {es es' : Entries} (h : Underway f pulled depth es es') :
    TwinStep K (StripsSources f reuse) (Underway f pulled depth)
      (s.useStep resolve flattening location position es)
      ((s.beside room load).useStep resolve' flattening location position es') := by
  have hkey : useKey ≠ f := fun heq => hf (heq ▸ by simp [all])
  have hget := h.strips.get? hkey
  unfold useStep
  refine TwinStep.get.bind fun p q hpq => ?_
  have hsources := hpq.sources
  dsimp only
  rw [hget]
  cases reuse with
  | false =>
    obtain ⟨hp, hq⟩ := hsources
    rw [hp, hq]
    exact .pure h
  | true =>
    obtain ⟨t, t', hp, hq, ht⟩ := hsources
    rw [hp, hq]
    cases Entries.get? es (.str useKey) with
    | none => exact .pure h
    | some value =>
      dsimp only [Option.map_some]
      have hreused : TwinStep K (StripsSources f true)
          (fun base base' => Strips f base base' ∧ base'.Lacks all)
          (s.reused resolve [t] value location flattening)
          ((s.beside room load).reused resolve' [t'] (value.strip f) location flattening) := by
        unfold reused
        rw [names_strip]
        refine (TwinStep.orFail _).bind fun names _ hab => ?_
        obtain ⟨-, hnames⟩ := hab
        subst hnames
        refine (twin_mergeSections ht names .empty).bind fun base base' hbase => ?_
        refine (hresolve rfl base base' location hbase).bind fun t t' hresolved => ?_
        rw [hflat, flatten_zero, flatten_zero]
        exact .pure hresolved
      refine hreused.bind fun base base' hab => ?_
      obtain ⟨hbase, hlacks⟩ := hab
      have hunder := h.underlay hbase (hlacks.mono (by simp [all])) (within_of_lacks hlacks)
        (.str useKey)
      exact (twin_rebind hunder.strips hposition).bind fun _ _ _ => .pure hunder

omit hresolve in
theorem twin_isPending (hincludes : s.includes = true) {es es' : Entries}
    (h : Strips f (.map es) (.map es')) :
    TwinStep K (StripsSources f reuse) (fun b b' => b = b' ∧ (b = false → Settled true reuse es'))
      (s.isPending es) ((s.beside room load).isPending es') := by
  intro p q hpq w hw
  obtain ⟨hp, hq⟩ := hpq.sources.isSome
  have hinclude := h.has fun heq : includeKey = f => hf (heq ▸ by simp [all])
  have huse := h.has fun heq : useKey = f => hf (heq ▸ by simp [all])
  refine .inl ⟨_, _, w, isPending_run es p w, isPending_run es' q w, hw, ⟨?_, fun hb => ?_⟩, hpq⟩
  · rw [hinclude, huse, hp, hq]
    rfl
  · rw [hincludes, hp, ← hinclude, ← huse, Bool.or_eq_false_iff] at hb
    refine ⟨fun _ => by simpa using hb.1, fun hreuse => ?_⟩
    rw [hreuse] at hb
    simpa using hb.2

/-- The directives of a mapping are carried out in both resolutions pass by pass. -/
theorem twin_substitute (hK : Unnoted K) (hincludes : s.includes = true)
    (hload : ∀ file location, Twin K (fun r r' => Included f pulled r.1 r'.1 ∧ r'.2 = r.2)
      (s.load file s.chain location) (load file s.chain location))
    (hflat : flattening.depth = 0) (hposition : position.Spares f) (passes : Nat)
    {es es' : Entries} (h : Underway f pulled depth es es') :
    TwinStep K (StripsSources f reuse)
      (fun es es' => Underway f pulled depth es es' ∧ Settled true reuse es')
      (s.substitute resolve flattening location position passes es)
      ((s.beside room load).substitute resolve' flattening location position passes es') := by
  induction passes generalizing es es' with
  | zero =>
    unfold substitute
    refine (twin_isPending hf hincludes h.strips).bind fun pending _ hab => ?_
    obtain ⟨heq, hsettled⟩ := hab
    subst heq
    cases pending with
    | false => exact .pure ⟨h, hsettled rfl⟩
    | true => exact .fail
  | succ passes ih =>
    unfold substitute
    refine (twin_isPending hf hincludes h.strips).bind fun pending _ hab => ?_
    obtain ⟨heq, hsettled⟩ := hab
    subst heq
    cases pending with
    | false => exact .pure ⟨h, hsettled rfl⟩
    | true =>
      refine (twin_includeStep hK hf hincludes hload hflat hposition h).bind fun es es' h => ?_
      refine (twin_useStep hf hresolve hflat hposition h).bind fun es es' h => ?_
      exact ih h

end Reusing

/-! ## Trees -/

section Trees

variable {onward onward' : MappingResolver InWorld}

/-- The entries of the field are left alone, so they may be passed over. -/
theorem twin_resolveEntries (hf : f ∉ all) {es es' : Entries}
    (h : Strips f (.map es) (.map es')) (hwithin : ∀ e ∈ es', e.2.Within pulled depth)
    (hvalues : ∀ e ∈ es, ∀ v', Strips f e.2 v' → v'.Within pulled depth →
      ∀ location position, position.Spares f →
        TwinStep K (StripsSources f reuse) (Outcome f reuse pulled depth)
          (resolveTree onward location position e.2) (resolveTree onward' location position v'))
    (location : String) {position : Position} (hposition : position.Spares f) :
    TwinStep K (StripsSources f reuse)
      (fun out out' => Strips f (.map out) (.map out') ∧ ∀ e ∈ out', (∃ v, (e.1, v) ∈ es') ∧
        e.2.Lacks (carriedOut true reuse) ∧ e.2.Within pulled depth)
      (resolveEntries onward location position es)
      (resolveEntries onward' location position es') := by
  induction es generalizing es' with
  | nil =>
    obtain rfl : es' = [] := h.entries
    exact .pure ⟨h, by simp⟩
  | cons e rest ih =>
    obtain ⟨key, value⟩ := e
    obtain ⟨hfirst, hrest⟩ := List.forall_mem_cons.1 hvalues
    obtain ⟨rest', hstrips, ⟨text, rfl, rfl, rfl⟩ | ⟨htext, hkey, value', hvalue, rfl⟩⟩ :=
      h.cons_cases
    · rw [resolveEntries, resolveTree_of_lacks (t := .str text) trivial, pure_bind,
        ← bind_pure (resolveEntries onward' location position es')]
      refine (ih hstrips hwithin hrest).bind fun out out' hab => ?_
      obtain ⟨hout, hentries⟩ := hab
      exact .pure ⟨hout.cons_field hf text, hentries⟩
    · rw [resolveEntries, resolveEntries]
      obtain ⟨hwithinFirst, hwithinRest⟩ := List.forall_mem_cons.1 hwithin
      refine (hfirst value' hvalue hwithinFirst _ _ (hposition.entry htext)).bind
        fun v v' hv => ?_
      refine (ih hstrips hwithinRest hrest).bind fun out out' hab => ?_
      obtain ⟨hout, hentries⟩ := hab
      refine .pure ⟨.cons htext hkey hv.toStrips hout, List.forall_mem_cons.2 ⟨?_, ?_⟩⟩
      · exact ⟨⟨value', List.mem_cons_self⟩, hv.lacks, hv.within⟩
      · intro e he
        obtain ⟨⟨v, hmem⟩, hgood⟩ := hentries e he
        exact ⟨⟨v, List.mem_cons_of_mem _ hmem⟩, hgood⟩

theorem twin_resolveItems {items items' : List Tree} (h : List.Forall₂ (Strips f) items items')
    (hwithin : ∀ t ∈ items', t.Within pulled depth)
    (hitems : ∀ t ∈ items, ∀ t', Strips f t t' → t'.Within pulled depth →
      ∀ location position, position.Spares f →
        TwinStep K (StripsSources f reuse) (Outcome f reuse pulled depth)
          (resolveTree onward location position t) (resolveTree onward' location position t'))
    (location : String) {position : Position} (hposition : position.Spares f) (i : Nat) :
    TwinStep K (StripsSources f reuse)
      (List.Forall₂ (Outcome f reuse pulled depth))
      (resolveItems onward location position i items)
      (resolveItems onward' location position i items') := by
  induction h generalizing i with
  | nil => exact .pure .nil
  | @cons t t' rest rest' ht _ ih =>
    obtain ⟨hfirst, hrest⟩ := List.forall_mem_cons.1 hitems
    obtain ⟨hwithinFirst, hwithinRest⟩ := List.forall_mem_cons.1 hwithin
    rw [resolveItems, resolveItems]
    refine (hfirst t' ht hwithinFirst _ _ (hposition.item i)).bind fun t t' ht => ?_
    refine (ih hwithinRest hrest (i + 1)).bind fun out out' hout => ?_
    exact .pure (.cons ht hout)

/-- Trees are twins if their mappings with directives are, as deep as these may be. -/
theorem twin_resolveTree (hf : f ∉ all)
    (honward : ∀ depth' ≤ depth, ∀ es es' location position,
      Strips f (.map es) (.map es') → Within pulled depth' (.map es') → isDirected es' = true →
      position.Spares f → TwinStep K (StripsSources f reuse) (Outcome f reuse pulled depth')
        (onward es location position) (onward' es' location position))
    (t : Tree) {t' : Tree} (h : Strips f t t') {depth' : Nat} (hle : depth' ≤ depth)
    (hwithin : t'.Within pulled depth') (location : String) {position : Position}
    (hposition : position.Spares f) :
    TwinStep K (StripsSources f reuse) (Outcome f reuse pulled depth')
      (resolveTree onward location position t) (resolveTree onward' location position t') := by
  induction t using Tree.induction generalizing t' depth' location position with
  | map es ih =>
    obtain ⟨es', rfl⟩ : ∃ es', t' = .map es' := ⟨_, h.strip.trans (strip_map es)⟩
    rw [resolveTree, resolveTree, ← h.isDirected hf]
    by_cases hdirected : isDirected es' = true
    · rw [if_pos hdirected, if_pos hdirected]
      exact honward depth' hle es es' location position h hwithin hdirected hposition
    · rw [if_neg hdirected, if_neg hdirected]
      have hle' : depth' - 1 ≤ depth := Nat.le_trans (Nat.sub_le _ _) hle
      refine (twin_resolveEntries hf h hwithin.value (fun e he v' hv hwithin location position
        hposition => (ih e he).2 hv hle' hwithin location hposition) location hposition).bind
          fun out out' hab => ?_
      obtain ⟨hout, hentries⟩ := hab
      refine .pure ⟨hout, ?_, ?_⟩
      · have hwithout := isDirected_eq_false.1 (Bool.not_eq_true _ ▸ hdirected)
        refine Entries.lacks_map.2 ⟨fun e he name hname => ?_, fun e he => (hentries e he).2.1⟩
        obtain ⟨⟨v, hmem⟩, -⟩ := hentries e he
        exact hwithout _ hmem name (mem_all_of_carriedOut hname)
      · exact hwithin.of_values fun e he => ⟨(hentries e he).1, (hentries e he).2.2⟩
  | seq items ih =>
    obtain ⟨items', rfl⟩ : ∃ items', t' = .seq items' := ⟨_, h.strip.trans (strip_seq items)⟩
    rw [resolveTree, resolveTree]
    have hle' : depth' - 1 ≤ depth := Nat.le_trans (Nat.sub_le _ _) hle
    refine (twin_resolveItems (Strips.seq.1 h) hwithin.item (fun t ht t' hstrips hwithin location
      position hposition => ih t ht hstrips hle' hwithin location hposition) location hposition
        0).bind fun out out' hout => .pure ⟨?_, ?_, ?_⟩
    · exact Strips.seq.2 (hout.imp fun _ _ h => h.toStrips)
    · refine everywhere_seq.2 fun t' ht' => ?_
      obtain ⟨t, -, ht⟩ := exists_of_mem_forall₂ hout ht'
      exact ht.lacks
    · refine Within.of_items fun t' ht' => ?_
      obtain ⟨t, -, ht⟩ := exists_of_mem_forall₂ hout ht'
      exact ht.within
  | _ =>
    have hsame := h.strip
    simp only [strip] at hsame
    subst hsame
    unfold resolveTree
    exact .pure ⟨h, trivial, hwithin⟩

end Trees

/-! ## Documents -/

section Documents

variable (hK : Unnoted K) (hf : f ∉ all) (hincludes : s.includes = true)
  (hload : ∀ file location, Twin K (fun r r' => Included f pulled r.1 r'.1 ∧ r'.2 = r.2)
    (s.load file s.chain location) (load file s.chain location))
include hK hf hincludes hload

/-- Mappings with directives are resolved alike in different rooms, if they are within both. -/
theorem twin_resolveMapping {resolve resolve' : Tree → String → Resolving InWorld Tree}
    (hresolve : reuse = true → ∀ base base' location, Strips f base base' →
      TwinStep K (StripsSources f reuse) (fun t t' => Strips f t t' ∧ t'.Lacks all)
        (resolve base location) (resolve' base' location))
    {room₁ room₂ : Nat} (hroom₁ : depth ≤ room₁) (hroom₂ : depth ≤ room₂) (es es' : Entries)
    (location : String) (position : Position) (h : Strips f (.map es) (.map es'))
    (hwithin : Within pulled depth (.map es')) (hdirected : isDirected es' = true)
    (hposition : position.Spares f) :
    TwinStep K (StripsSources f reuse) (Outcome f reuse pulled depth)
      (s.resolveMapping resolve room₁ es location position)
      ((s.beside room load).resolveMapping resolve' room₂ es' location position) := by
  induction room₁ generalizing depth room₂ es es' location position with
  | zero =>
    obtain ⟨depth, rfl⟩ := exists_succ_of_isDirected hwithin hdirected
    omega
  | succ room₁ ih =>
    obtain ⟨depth, rfl⟩ := exists_succ_of_isDirected hwithin hdirected
    obtain ⟨room₂, rfl⟩ : ∃ n, room₂ = n + 1 := ⟨room₂ - 1, by omega⟩
    obtain ⟨hsame, htaken⟩ := h.take hf
    unfold resolveMapping
    dsimp only
    rw [hsame]
    refine (TwinStep.orFail _).bind fun flattening _ hab => ?_
    obtain ⟨hok, heq⟩ := hab
    subst heq
    obtain ⟨hflat, hstrips⟩ := htaken flattening hok
    have hok' : (Flattening.take es').2 = .ok flattening := hsame.trans hok
    have hunderway : Underway f pulled depth (Flattening.take es).1 (Flattening.take es').1 := by
      refine ⟨hstrips, ?_, Flattening.take_without hok'⟩
      rw [Flattening.take_fst hok']
      exact (hwithin.erase _).erase _
    refine (twin_substitute hf hresolve hK hincludes hload hflat hposition substitutionLimit
      hunderway).bind fun es₁ es₁' hab => ?_
    obtain ⟨hdone, hsettled⟩ := hab
    have hvalues : ∀ e ∈ es₁, ∀ v', Strips f e.2 v' → v'.Within pulled depth →
        ∀ location position, position.Spares f →
          TwinStep K (StripsSources f reuse) (Outcome f reuse pulled depth)
            (resolveTree (s.resolveMapping resolve room₁) location position e.2)
            (resolveTree ((s.beside room load).resolveMapping resolve' room₂) location position
              v') := by
      intro e _ v' hv hwithin location position hposition
      refine twin_resolveTree hf (fun depth' hle => ?_) e.2 hv (Nat.le_refl depth) hwithin location
        hposition
      exact ih (by omega) (by omega)
    refine (twin_resolveEntries hf hdone.strips hdone.within.value hvalues location hposition).bind
      fun out out' hab => ?_
    obtain ⟨hout, hentries⟩ := hab
    refine .pure ⟨hout, ?_, ?_⟩
    · refine Entries.lacks_map.2 ⟨fun e he name hname => ?_, fun e he => (hentries e he).2.1⟩
      obtain ⟨⟨v, hmem⟩, -⟩ := hentries e he
      exact without_of_settled hdone.taken hsettled _ hmem name hname
    · exact hdone.within.of_values fun e he => ⟨(hentries e he).1, (hentries e he).2.2⟩

/-- Reused sections have different room, but enough. -/
theorem twin_resolveReused (hreuse : reuse = true) (hroom₁ : pulled ≤ s.room)
    (hroom₂ : pulled ≤ room) (levels : Nat) (base base' : Tree) (location : String)
    (h : Strips f base base') :
    TwinStep K (StripsSources f reuse) (fun t t' => Strips f t t' ∧ t'.Lacks all)
      (s.resolveReused levels base location)
      ((s.beside room load).resolveReused levels base' location) := by
  subst hreuse
  induction levels generalizing base base' location with
  | zero => exact .fail
  | succ levels ih =>
    have hcount : base'.nodeCount ≤ base.nodeCount := by
      rw [h.strip]
      exact nodeCount_strip_le base
    have hwithin : base'.Within pulled (pulled + base'.nodeCount) := within_nodeCount base'
    have hroom : (s.beside room load).room = room := rfl
    refine (twin_resolveTree hf (fun depth' hle => ?_) base h (Nat.le_refl _) hwithin location
      (by simp [Position.Spares])).mono fun t t' ht => ⟨ht.toStrips, ht.lacks⟩
    exact twin_resolveMapping hK hf hincludes hload (fun _ => ih) (by omega) (by omega)

/-- A document is resolved alike with and without the field. -/
theorem twin_resolveDocument (hreuse : reuse = true → pulled ≤ s.room ∧ pulled ≤ room)
    {t t' : Tree} (h : Strips f t t') (hwithin : t'.Within pulled depth)
    (hroom₁ : depth ≤ s.room) (hroom₂ : depth ≤ room) (hposition : position.Spares f) :
    TwinStep K (StripsSources f reuse) (Outcome f reuse pulled depth)
      (s.resolveDocument location position t)
      ((s.beside room load).resolveDocument location position t') := by
  have hroom : (s.beside room load).room = room := rfl
  refine twin_resolveTree hf (fun depth' hle => ?_) t h (Nat.le_refl _) hwithin location hposition
  exact twin_resolveMapping hK hf hincludes hload
    (fun hreuse' base base' location hbase => twin_resolveReused hK hf hincludes hload hreuse'
      (hreuse hreuse').1 (hreuse hreuse').2 substitutionLimit base base' location hbase)
    (by omega) (by omega)

end Documents

end Scope

end LayeredConfig
