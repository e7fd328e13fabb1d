import LayeredConfig.Proofs.Ledger.Histories
import LayeredConfig.Proofs.Memory

/-!
# Collapsing ledgers

To collapse a ledger is to go through its paths with some patterns, each path as far as the first
pattern that matches it. If a path comes to a pattern that cannot be read, nothing is changed at
all; otherwise each record stays where it is, and those of the matched paths become pointers
(`collapse_is_all_or_nothing`). The directory is recorded last, so it has not met the patterns
before the same is done again.
-/

namespace LayeredConfig.Ledger

/-! ## Reading patterns -/

section Patterns

variable {patterns : List String} {path : FilePath} {fault : Glob.Fault}

/-- Some of the patterns can be read and matches the path. -/
def Matched (patterns : List String) (path : FilePath) : Prop :=
  ∃ text ∈ patterns, ∃ pattern, Glob.Pattern.parse text = .ok pattern ∧
    pattern.isMatch path.text = true

/-- The path comes to a pattern that cannot be read: none of those before it matches. -/
def StumblesAt (patterns : List String) (path : FilePath) (fault : Glob.Fault) : Prop :=
  ∃ before text after, patterns = before ++ text :: after ∧
    (∀ other ∈ before, ∃ pattern, Glob.Pattern.parse other = .ok pattern ∧
      pattern.isMatch path.text = false) ∧
    Glob.Pattern.parse text = .error fault

theorem stumblesAt_cons {text : String} : StumblesAt (text :: patterns) path fault ↔
    Glob.Pattern.parse text = .error fault ∨
      (∃ pattern, Glob.Pattern.parse text = .ok pattern ∧ pattern.isMatch path.text = false) ∧
        StumblesAt patterns path fault := by
  constructor
  · rintro ⟨before, bad, after, hsplit, hbefore, hbad⟩
    cases before with
    | nil =>
      obtain ⟨rfl, rfl⟩ := List.cons_eq_cons.1 hsplit
      exact .inl hbad
    | cons first before =>
      obtain ⟨rfl, rfl⟩ := List.cons_eq_cons.1 hsplit
      obtain ⟨hfirst, hbefore⟩ := List.forall_mem_cons.1 hbefore
      exact .inr ⟨hfirst, before, bad, after, rfl, hbefore, hbad⟩
  · rintro (hbad | ⟨hfirst, before, bad, after, rfl, hbefore, hbad⟩)
    · exact ⟨[], text, patterns, rfl, List.forall_mem_nil _, hbad⟩
    · exact ⟨text :: before, bad, after, rfl, List.forall_mem_cons.2 ⟨hfirst, hbefore⟩, hbad⟩

/-- Going through the patterns fails where the path comes to one that cannot be read. -/
theorem anyMatches_eq_error_iff :
    anyMatches path patterns = .error fault ↔ StumblesAt patterns path fault := by
  induction patterns with
  | nil =>
    refine ⟨nofun, ?_⟩
    rintro ⟨before, text, after, hsplit, -⟩
    cases before <;> cases hsplit
  | cons text rest ih =>
    rw [anyMatches, stumblesAt_cons]
    cases Glob.Pattern.parse text with
    | error fault' => simp
    | ok pattern => cases hmatch : pattern.isMatch path.text <;> simp [hmatch, ih]

/-- If it does not fail it tells whether some pattern matches, also of those not looked at. -/
theorem matched_iff {hit : Bool} (h : anyMatches path patterns = .ok hit) :
    Matched patterns path ↔ hit = true := by
  induction patterns with
  | nil =>
    cases h
    simp [Matched]
  | cons text rest ih =>
    rw [anyMatches] at h
    cases hparse : Glob.Pattern.parse text with
    | error fault =>
      rw [hparse] at h
      cases h
    | ok pattern =>
      rw [hparse] at h
      dsimp only at h
      split at h
      next hmatch =>
        cases h
        exact iff_of_true ⟨text, List.mem_cons_self, pattern, hparse, hmatch⟩ rfl
      next hmatch =>
        rw [← ih h, Matched, List.exists_mem_cons_iff]
        refine or_iff_right ?_
        rintro ⟨pattern', hparse', hmatch'⟩
        cases hparse.symm.trans hparse'
        exact hmatch hmatch'

end Patterns

/-! ## Pointing records to a directory -/

section Pointing

variable {patterns : List String} {base : FilePath} {records pointed : List (FilePath × Record)}

/-- A record of a path becomes a pointer if some pattern matches the path, unless it is that of the
directory. -/
def Points (patterns : List String) (base : FilePath) (e e' : FilePath × Record) : Prop :=
  ∃ hit, anyMatches e.1 patterns = .ok hit ∧
    e' = (e.1, if hit && !e.1.same base then .pointer base else e.2)

theorem pointTo_eq_ok_iff : pointTo patterns base records = .ok pointed ↔
    List.Forall₂ (Points patterns base) records pointed := by
  refine ⟨pointTo_ok, fun h => ?_⟩
  induction h with
  | nil => rfl
  | @cons e e' rest rest' hfirst _ ih =>
    obtain ⟨hit, hhit, rfl⟩ := hfirst
    rw [pointTo, hhit, ih]
    rfl

theorem pointTo_eq_error {fault : Glob.Fault} (h : pointTo patterns base records = .error fault) :
    ∃ e ∈ records, StumblesAt patterns e.1 fault := by
  induction records with
  | nil => cases h
  | cons e rest ih =>
    rw [pointTo] at h
    cases hfirst : anyMatches e.1 patterns with
    | error fault' =>
      rw [hfirst] at h
      cases h
      exact ⟨e, List.mem_cons_self, anyMatches_eq_error_iff.1 hfirst⟩
    | ok hit =>
      rw [hfirst] at h
      cases hrest : pointTo patterns base rest with
      | error fault' =>
        rw [hrest] at h
        cases h
        obtain ⟨e', he', hstumbles⟩ := ih hrest
        exact ⟨e', List.mem_cons_of_mem _ he', hstumbles⟩
      | ok rest' =>
        rw [hrest] at h
        cases h

/-- What has been pointed to the directory stays so. -/
theorem Points.again {e e' : FilePath × Record} (h : Points patterns base e e') :
    Points patterns base e' e' := by
  obtain ⟨hit, hhit, rfl⟩ := h
  refine ⟨hit, hhit, ?_⟩
  dsimp only
  split <;> rfl

theorem pointTo_pointed (h : pointTo patterns base records = .ok pointed) :
    pointTo patterns base pointed = .ok pointed := by
  rw [pointTo_eq_ok_iff] at h ⊢
  induction h with
  | nil => exact .nil
  | cons hfirst _ ih => exact .cons hfirst.again ih

/-- The directory itself only has to come through the patterns. -/
theorem pointTo_concat (h : pointTo patterns base records = .ok pointed) (r : Record) :
    pointTo patterns base (records ++ [(base, r)]) =
      match anyMatches base patterns with
      | .error fault => .error fault
      | .ok _ => .ok (pointed ++ [(base, r)]) := by
  rw [pointTo_eq_ok_iff] at h
  induction h with
  | nil =>
    rw [List.nil_append, pointTo]
    cases anyMatches base patterns with
    | error fault => rfl
    | ok hit =>
      change Except.ok [(base, if hit && !base.same base then Record.pointer base else r)] = _
      rw [FilePath.same_refl, Bool.not_true, Bool.and_false, if_neg Bool.false_ne_true]
  | @cons e e' rest rest' hfirst _ ih =>
    obtain ⟨hit, hhit, rfl⟩ := hfirst
    rw [List.cons_append, pointTo, hhit, ih]
    cases anyMatches base patterns <;> rfl

theorem covers_pointed (h : pointTo patterns base records = .ok pointed) (path : FilePath) :
    covers pointed path = covers records path := by
  have hpaths (l : List (FilePath × Record)) : covers l path =
      (l.map Prod.fst).any (·.same path) := by
    rw [covers, List.any_map]
    rfl
  rw [hpaths, hpaths, pointTo_paths h]

end Pointing

/-! ## Collapsing -/

section Collapse

variable {l : Ledger} {patterns : List String} {directory base : FilePath}
  {attributes : Named String} {w : World}

/-- If a path comes to a pattern that cannot be read, the world is left as it is. -/
theorem collapse_of_error (hbase : FilePath.normalize w.directory directory = base)
    {fault : Glob.Fault} (h : pointTo patterns base l.records = .error fault) :
    outcome (l.collapse patterns directory attributes) w = (.ok (.error fault), w) := by
  have hnormalize : outcome (Host.normalize directory : ExceptT Error InWorld _) w =
      (.ok base, w) := congrArg (fun p => (Except.ok p, w)) hbase
  rw [collapse, outcome_bind_of_ok hnormalize, h]
  rfl

theorem collapse_of_covers (hbase : FilePath.normalize w.directory directory = base)
    {pointed : List (FilePath × Record)} (h : pointTo patterns base l.records = .ok pointed)
    (hcovers : covers pointed base = true) :
    outcome (l.collapse patterns directory attributes) w =
      (.ok (.ok { l with records := pointed }), w) := by
  have hnormalize (p : FilePath) : outcome (Host.normalize p : ExceptT Error InWorld _) w =
      (.ok (FilePath.normalize w.directory p), w) := rfl
  have htrack : outcome (Ledger.track { l with records := pointed } base .observed attributes :
      ExceptT Error InWorld _) w = (.ok { l with records := pointed }, w) := by
    rw [track, outcome_bind_of_ok (hnormalize base), ← hbase, FilePath.normalize_normalize, hbase]
    dsimp only
    rw [has_eq, hcovers]
    rfl
  rw [collapse, outcome_bind_of_ok (hnormalize directory), hbase, h]
  exact outcome_bind_of_ok htrack _

theorem collapse_of_not_covers (attributes : Named String)
    (hbase : FilePath.normalize w.directory directory = base)
    {pointed : List (FilePath × Record)} (h : pointTo patterns base l.records = .ok pointed)
    (hcovers : covers pointed base = false) :
    ∃ memo, outcome (l.collapse patterns directory attributes) w =
      (.ok (.ok { l with records := pointed ++ [(base, w.observed base attributes)] }),
        { w with gitMemo := memo }) := by
  have hnormalize (p : FilePath) : outcome (Host.normalize p : ExceptT Error InWorld _) w =
      (.ok (FilePath.normalize w.directory p), w) := rfl
  obtain ⟨memo, hobserve, -⟩ := observe_run base attributes w
  have htrack : outcome (Ledger.track { l with records := pointed } base .observed attributes :
      ExceptT Error InWorld _) w =
        (.ok { l with records := pointed ++ [(base, w.observed base attributes)] },
          { w with gitMemo := memo }) := by
    rw [track, outcome_bind_of_ok (hnormalize base), ← hbase, FilePath.normalize_normalize, hbase]
    dsimp only
    rw [has_eq, hcovers, if_neg Bool.false_ne_true, outcome_bind_of_ok hobserve, outcome_pure,
      addRecord, note_of_not_covers hcovers]
  refine ⟨memo, ?_⟩
  rw [collapse, outcome_bind_of_ok (hnormalize directory), hbase, h]
  exact outcome_bind_of_ok htrack _

/-- What a ledger becomes when a directory stands for the paths that the patterns match. -/
structure CollapsesTo (patterns : List String) (base : FilePath) (l l' : Ledger) : Prop where
  /-- Paths stay in their order, and the directory comes last if it was not there. -/
  paths : l'.records.map Prod.fst = l.records.map Prod.fst ++ if l.has base then [] else [base]
  /-- The record of a matched path is a pointer and nothing else, in its old place. -/
  pointed : ∀ (i : Nat) (path : FilePath) (r : Record), l.records[i]? = some (path, r) →
    path.same base = false → Matched patterns path → l'.records[i]? = some (path, .pointer base)
  /-- All others are as they were, that of the directory among them. -/
  kept : ∀ (i : Nat) (path : FilePath) (r : Record), l.records[i]? = some (path, r) →
    path.same base = true ∨ ¬ Matched patterns path → l'.records[i]? = some (path, r)
  /-- So are the files that were not found. -/
  missed : l'.missed = l.missed

theorem collapsesTo_of_pointTo {pointed : List (FilePath × Record)}
    (h : pointTo patterns base l.records = .ok pointed) (more : List (FilePath × Record))
    (hmore : more.map Prod.fst = if l.has base then [] else [base]) :
    CollapsesTo patterns base l { l with records := pointed ++ more } := by
  have hplace : ∀ (i : Nat) (path : FilePath) (r : Record), l.records[i]? = some (path, r) →
      ∃ hit, anyMatches path patterns = .ok hit ∧ (pointed ++ more)[i]? =
        some (path, if hit && !path.same base then .pointer base else r) := by
    intro i path r hr
    obtain ⟨hi, hget⟩ := List.getElem?_eq_some_iff.1 hr
    have hi' : i < pointed.length := (pointTo_ok h).length_eq ▸ hi
    obtain ⟨hit, hhit, hpointed⟩ := (pointTo_ok h).get hi hi'
    simp only [List.get_eq_getElem, hget] at hhit hpointed
    exact ⟨hit, hhit, by rw [List.getElem?_append_left hi', List.getElem?_eq_getElem hi', hpointed]⟩
  exact {
    paths := by rw [List.map_append, pointTo_paths h, hmore]
    pointed := fun i path r hr hother hmatched => by
      obtain ⟨hit, hhit, hplaced⟩ := hplace i path r hr
      rw [hplaced, (matched_iff hhit).1 hmatched, hother]
      rfl
    kept := fun i path r hr hkept => by
      obtain ⟨hit, hhit, hplaced⟩ := hplace i path r hr
      rw [hplaced, if_neg]
      rw [matched_iff hhit] at hkept
      rcases hkept with hown | hunmatched
      · rw [hown, Bool.not_true, Bool.and_false]
        exact Bool.false_ne_true
      · rw [Bool.eq_false_iff.2 hunmatched, Bool.false_and]
        exact Bool.false_ne_true
    missed := rfl }

example :
    let l := empty.edited (.track ⟨"/d/a.yml"⟩ .observed []) smallWorld
    let once := l.edited (.collapse ["/d/*.yml", "["] ⟨"/d"⟩ []) smallWorld
    (once.records.map fun e => (e.1.text, e.2.kind)) = [("/d/a.yml", .pointer), ("/d", .full)] ∧
      (pointTo ["/d/*.yml", "["] ⟨"/d"⟩ once.records).toOption = none := by
  decide +kernel

end Collapse

end LayeredConfig.Ledger
