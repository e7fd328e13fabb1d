import LayeredConfig.Proofs.Cache.Answer
import LayeredConfig.Proofs.Number.Rounding

/-!
# How exactly changes are noticed

A ledger compares times as doubles of seconds (`Instant.epochSeconds`), which two roundings lead to:
that of the fraction of a second, and that of its sum with the whole seconds. Both are monotone, so
that what is taken for a change is one. Both have a bounded error, together `(2 ^ k + 1) / 2 ^ 54`
seconds less than `2 ^ k` seconds from 1970, so that a change that is later by more than twice that
is noticed. Smaller ones may not be: the times of input files are compared as they are, those of a
ledger are not.
-/

namespace LayeredConfig

open Binary64

namespace Instant

/-- Less than `2 ^ k` seconds before or after the start of 1970. -/
def IsWithin (t : Instant) (k : Nat) : Prop := t.nanoseconds.natAbs < twoPow k * perSecond

instance (t : Instant) (k : Nat) : Decidable (t.IsWithin k) :=
  inferInstanceAs (Decidable (_ < _))

/-- So many nanoseconds later. -/
def plus (t : Instant) (gap : Nat) : Instant := ⟨t.nanoseconds + gap⟩

/-! ## The sum of whole seconds and a fraction -/

/-- The two doubles nearest to the whole seconds and to the fraction, added without rounding. -/
def parts (n : Nat) : Int :=
  (ofRatio false (n / perSecond) 1).scaled + (ofRatio false (n % perSecond) perSecond).scaled

/-- A distance in nanoseconds as a double of seconds. -/
def secondsOf (n : Nat) : Binary64 :=
  (ofRatio false (n / perSecond) 1).add (ofRatio false (n % perSecond) perSecond)

theorem secondsOf_eq (n : Nat) : secondsOf n = ofScaled (parts n) := by
  rw [secondsOf, add, parts]

theorem epochSeconds_eq (t : Instant) :
    t.epochSeconds = if t.nanoseconds < 0 then (secondsOf t.nanoseconds.natAbs).neg
      else secondsOf t.nanoseconds.natAbs := rfl

theorem isNearest_whole {s : Nat} (hs : s < twoPow 53) :
    IsNearest (ofRatio false s 1) (s * 2 ^ 1074) := by
  have hless : (s : ℚ) / (1 : Nat) * 2 ^ 1074 < 2 ^ 53 * 2 ^ 1074 := by
    rw [Nat.cast_one, div_one, ← cast_twoPow 53]
    exact mul_lt_mul_of_pos_right (by exact_mod_cast hs) (by positivity)
  have hnearest := isNearest_ofRatio s one_ne_zero (by decide) hless
  rwa [Nat.cast_one, div_one] at hnearest

/-- A fraction of a second is rounded in units of `2 ^ (-53)` at most. -/
theorem isNearest_fraction {r : Nat} (hr : r < perSecond) :
    IsNearest (ofRatio false r perSecond) (r / perSecond * 2 ^ 1074) ∧
      (r / perSecond * 2 ^ 1074 : ℚ) < 2 ^ 53 * 2 ^ 1021 := by
  have hless : (r / perSecond * 2 ^ 1074 : ℚ) < 2 ^ 53 * 2 ^ 1021 := by
    rw [← pow_add]
    refine mul_lt_of_lt_one_left (by positivity) ?_
    rw [div_lt_one (by norm_num [perSecond])]
    exact_mod_cast hr
  exact ⟨isNearest_ofRatio r (by decide) (by decide) hless, hless⟩

/-- A fraction of a second is not rounded to a whole one. -/
theorem scaled_fraction_lt {r : Nat} (hr : r < perSecond) :
    ((ofRatio false r perSecond).scaled : ℚ) < 2 ^ 1074 := by
  obtain ⟨hnearest, hless⟩ := isNearest_fraction hr
  have herror := (abs_le.1 (hnearest.error hless)).2
  have hr : (r : ℚ) + 1 ≤ perSecond := by exact_mod_cast hr
  have hper : (perSecond : ℚ) = 1000000000 := by norm_num [perSecond]
  rw [hper] at herror hr
  have hsplit : (2 : ℚ) ^ 1074 = 2 ^ 53 * 2 ^ 1021 := by rw [← pow_add]
  have hpos : (0 : ℚ) < 2 ^ 1021 := by positivity
  rw [hsplit] at herror ⊢
  generalize (2 : ℚ) ^ 1021 = u at herror hpos ⊢
  have hprod : (r : ℚ) * u ≤ (1000000000 - 1) * u :=
    mul_le_mul_of_nonneg_right (by linarith) hpos.le
  linarith

/-! ## The rounded sum -/

variable {k m n : Nat}

theorem seconds_lt (h : n < twoPow k * perSecond) : n / perSecond < twoPow k :=
  (Nat.div_lt_iff_lt_mul (by decide)).2 h

theorem fraction_lt (n : Nat) : n % perSecond < perSecond := Nat.mod_lt n (by decide)

/-- Whole seconds are not rounded. -/
theorem cast_parts (h : n < twoPow 53 * perSecond) :
    (parts n : ℚ) =
      (n / perSecond : Nat) * 2 ^ 1074 + (ofRatio false (n % perSecond) perSecond).scaled := by
  have hs := seconds_lt h
  rw [parts, Int.cast_add, (isNearest_whole hs).exact hs]

/-- The parts stay below the next whole second. -/
theorem parts_lt_whole (h : n < twoPow 53 * perSecond) {s : Nat} (hs : n / perSecond < s) :
    (parts n : ℚ) < s * 2 ^ 1074 := by
  have hfraction := scaled_fraction_lt (fraction_lt n)
  have hs : ((n / perSecond : Nat) : ℚ) + 1 ≤ s := by exact_mod_cast hs
  calc (parts n : ℚ)
      = (n / perSecond : Nat) * 2 ^ 1074 + (ofRatio false (n % perSecond) perSecond).scaled :=
        cast_parts h
    _ < (n / perSecond : Nat) * 2 ^ 1074 + 2 ^ 1074 := add_lt_add_of_le_of_lt le_rfl hfraction
    _ = ((n / perSecond : Nat) + 1) * 2 ^ 1074 := by rw [add_mul, one_mul]
    _ ≤ s * 2 ^ 1074 := mul_le_mul_of_nonneg_right hs (by positivity)

theorem parts_lt (hk : k ≤ 53) (h : n < twoPow k * perSecond) :
    (parts n : ℚ) < 2 ^ 53 * 2 ^ (k + 1021) := by
  have hfar : n < twoPow 53 * perSecond :=
    h.trans_le (Nat.mul_le_mul_right _ (Nat.pow_le_pow_right two_pos hk))
  have hsplit : (2 : ℚ) ^ 53 * 2 ^ (k + 1021) = 2 ^ k * 2 ^ 1074 := by
    rw [pow_add, mul_left_comm, ← pow_add]
  rw [hsplit, ← cast_twoPow k]
  exact parts_lt_whole hfar (seconds_lt h)

theorem parts_nonneg (h : n < twoPow 53 * perSecond) : 0 ≤ parts n :=
  Int.add_nonneg (isNearest_whole (seconds_lt h)).nonneg
    (isNearest_fraction (fraction_lt n)).1.nonneg

theorem isNearest_secondsOf (h : n < twoPow 53 * perSecond) : IsNearest (secondsOf n) (parts n) :=
  isNearest_add (parts_nonneg h) (by decide : 53 + 1021 ≤ 2000) (parts_lt le_rfl h)

/-- Later times have no smaller parts. -/
theorem parts_mono (hmn : m ≤ n) (h : n < twoPow 53 * perSecond) : parts m ≤ parts n := by
  -- The whole seconds decide, and within one second the rounded fractions do.
  rcases (Nat.div_le_div_right hmn : m / perSecond ≤ n / perSecond).lt_or_eq with hless | hsame
  · have hnonneg : (0 : ℚ) ≤ (ofRatio false (n % perSecond) perSecond).scaled := by
      exact_mod_cast (isNearest_fraction (fraction_lt n)).1.nonneg
    have hle : (parts m : ℚ) ≤ parts n :=
      calc (parts m : ℚ) ≤ (n / perSecond : Nat) * 2 ^ 1074 :=
            (parts_lt_whole (hmn.trans_lt h) hless).le
        _ ≤ (n / perSecond : Nat) * 2 ^ 1074 +
              (ofRatio false (n % perSecond) perSecond).scaled := le_add_of_nonneg_right hnonneg
        _ = parts n := (cast_parts h).symm
    exact_mod_cast hle
  · rw [parts, parts, hsame]
    refine Int.add_le_add_left ?_ _
    have hr : m % perSecond ≤ n % perSecond := by
      have hm := Nat.div_add_mod m perSecond
      have hn := Nat.div_add_mod n perSecond
      rw [hsame] at hm
      omega
    rcases hr.lt_or_eq with hless | hsame
    · refine (isNearest_fraction (fraction_lt m)).1.scaled_le (isNearest_fraction (fraction_lt n)).1
        (mul_lt_mul_of_pos_right ?_ (by positivity))
      exact div_lt_div_of_pos_right (by exact_mod_cast hless) (by norm_num [perSecond])
    · rw [hsame]

theorem secondsOf_mono (hmn : m ≤ n) (h : n < twoPow 53 * perSecond) :
    (secondsOf m).scaled ≤ (secondsOf n).scaled := by
  -- Monotonicity of rounding is for values that differ.
  rcases (parts_mono hmn h).lt_or_eq with hlt | heq
  · exact (isNearest_secondsOf (hmn.trans_lt h)).scaled_le (isNearest_secondsOf h)
      (by exact_mod_cast hlt)
  · rw [secondsOf_eq, secondsOf_eq, heq]

theorem secondsOf_error (hk : k ≤ 53) (h : n < twoPow k * perSecond) :
    |(secondsOf n).scaled - (n : ℚ) / perSecond * 2 ^ 1074| ≤ (2 ^ k + 1) * 2 ^ 1021 / 2 := by
  have hfar : n < twoPow 53 * perSecond :=
    h.trans_le (Nat.mul_le_mul_right _ (Nat.pow_le_pow_right two_pos hk))
  have hsum := (isNearest_secondsOf hfar).error (parts_lt hk h)
  obtain ⟨hnearest, hless⟩ := isNearest_fraction (fraction_lt n)
  have hfraction := hnearest.error hless
  rw [cast_parts hfar, pow_add] at hsum
  rw [cast_ratio n (by decide)]
  generalize (2 : ℚ) ^ 1074 = u at hsum hfraction ⊢
  generalize (2 : ℚ) ^ 1021 = v at hsum hfraction ⊢
  rw [abs_le] at hsum hfraction ⊢
  constructor <;> linarith [hsum.1, hsum.2, hfraction.1, hfraction.2]

/-! ## Times as doubles -/

variable {t u : Instant}

theorem IsWithin.mono {j : Nat} (h : t.IsWithin j) (hjk : j ≤ k) : t.IsWithin k :=
  lt_of_lt_of_le h (Nat.mul_le_mul_right _ (Nat.pow_le_pow_right two_pos hjk))

theorem isNaN_epochSeconds (h : t.IsWithin 53) : t.epochSeconds.isNaN = false := by
  rw [epochSeconds_eq]
  split
  · rw [(scaled_neg _).2, (isNearest_secondsOf h).1]
  · exact (isNearest_secondsOf h).1

theorem scaled_epochSeconds (t : Instant) :
    t.epochSeconds.scaled = if t.nanoseconds < 0 then -(secondsOf t.nanoseconds.natAbs).scaled
      else (secondsOf t.nanoseconds.natAbs).scaled := by
  rw [epochSeconds_eq]
  split
  · rw [(scaled_neg _).1]
  · rfl

/-- Later instants are no earlier as doubles. -/
theorem epochSeconds_mono (ht : t.IsWithin 53) (hu : u.IsWithin 53)
    (h : t.nanoseconds ≤ u.nanoseconds) : t.epochSeconds.scaled ≤ u.epochSeconds.scaled := by
  rw [scaled_epochSeconds, scaled_epochSeconds]
  split <;> split
  · exact neg_le_neg (secondsOf_mono (by omega) ht)
  · have ht := (isNearest_secondsOf ht).nonneg
    have hu := (isNearest_secondsOf hu).nonneg
    omega
  · omega
  · exact secondsOf_mono (by omega) hu

/-- How far the double of an instant is from it, in units of the smallest positive number. -/
theorem epochSeconds_error (hk : k ≤ 53) (h : t.IsWithin k) :
    |t.epochSeconds.scaled - (t.nanoseconds : ℚ) / perSecond * 2 ^ 1074| ≤
      (2 ^ k + 1) * 2 ^ 1021 / 2 := by
  have herror := secondsOf_error hk h
  rw [Nat.cast_natAbs] at herror
  rw [scaled_epochSeconds]
  split
  next hbefore =>
    rw [abs_of_neg hbefore, Int.cast_neg, neg_div, neg_mul, sub_neg_eq_add] at herror
    rwa [Int.cast_neg, ← neg_add', abs_neg]
  next hsince =>
    rwa [abs_of_nonneg (not_lt.1 hsince)] at herror

/-- An instant that is later by more than twice the error is later as a double. -/
theorem epochSeconds_lt {gap : Nat} (hk : k ≤ 53)
    (hgap : perSecond * (twoPow k + 1) ≤ gap * twoPow 53) (ht : t.IsWithin k) (hu : u.IsWithin k)
    (h : t.nanoseconds + gap < u.nanoseconds) : t.epochSeconds.lt u.epochSeconds = true := by
  have hless : (t.epochSeconds.scaled : ℚ) < u.epochSeconds.scaled := by
    have hterror := (abs_le.1 (epochSeconds_error hk ht)).2
    have huerror := (abs_le.1 (epochSeconds_error hk hu)).1
    have hper : (0 : ℚ) < perSecond := by norm_num [perSecond]
    have hgap : (2 ^ k + 1 : ℚ) ≤ gap / perSecond * 2 ^ 53 := by
      rw [div_mul_eq_mul_div, le_div_iff₀ hper, mul_comm, ← cast_twoPow, ← cast_twoPow]
      exact_mod_cast hgap
    have hlater : (gap / perSecond : ℚ) <
        u.nanoseconds / perSecond - t.nanoseconds / perSecond := by
      rw [← sub_div]
      refine div_lt_div_of_pos_right ?_ hper
      rw [lt_sub_iff_add_lt']
      exact_mod_cast h
    have hsplit : (2 : ℚ) ^ 1074 = 2 ^ 53 * 2 ^ 1021 := by rw [← pow_add]
    have hpos : (0 : ℚ) < 2 ^ 1021 := by positivity
    rw [hsplit] at hterror huerror
    -- Kept apart, since arithmetic would try to evaluate the power.
    generalize (2 : ℚ) ^ 1021 = unit at hterror huerror hpos
    have herrors := mul_le_mul_of_nonneg_right hgap hpos.le
    have hdistance := mul_lt_mul_of_pos_right hlater (mul_pos (by norm_num : (0 : ℚ) < 2 ^ 53) hpos)
    linarith
  rw [Binary64.lt, isNaN_epochSeconds (ht.mono hk), isNaN_epochSeconds (hu.mono hk)]
  simpa using (by exact_mod_cast hless : t.epochSeconds.scaled < u.epochSeconds.scaled)

/-- What is later as a double is later. -/
theorem lt_of_epochSeconds_lt (ht : t.IsWithin 53) (hu : u.IsWithin 53)
    (h : t.epochSeconds.lt u.epochSeconds = true) : t.nanoseconds < u.nanoseconds := by
  by_contra hle
  have hmono := epochSeconds_mono hu ht (not_lt.1 hle)
  rw [Binary64.lt, Bool.and_eq_true, decide_eq_true_eq] at h
  exact absurd h.2 (not_lt.2 hmono)

end Instant

/-! ## Ledgers and answers -/

/-- What a record says of its path does not hold in a world, or the path was changed after an
instant, by however little. -/
inductive Record.Outdated (w : World) (instant : Instant) (path : FilePath) (r : Record) : Prop
  | appeared (t : Instant) (missing : r.missing = true) (there : w.modified? path = some t)
  | gone (present : r.missing = false) (absent : w.modified? path = none)
  | newer (t : Instant) (present : r.missing = false) (there : w.modified? path = some t)
      (later : instant.nanoseconds < t.nanoseconds)

namespace Ledger

/-- Something recorded in a world has changed after an instant, by however little. -/
def ChangedAfter (l : Ledger) (w : World) (instant : Instant) (packages : Packages) : Prop :=
  (∃ e ∈ l.records, e.2.Outdated w instant e.1) ∨
    ∃ e ∈ l.missed, ∃ p, e.2.target packages w = some p ∧ (w.find? p).isSome

/-- What is recorded was changed less than `2 ^ k` seconds before or after the start of 1970. -/
def DatedWithin (l : Ledger) (w : World) (k : Nat) : Prop :=
  ∀ e ∈ l.records, ∀ t ∈ w.modified? e.1, t.IsWithin k

instance (l : Ledger) (w : World) (k : Nat) : Decidable (l.DatedWithin w k) :=
  inferInstanceAs (Decidable (∀ e ∈ l.records, ∀ t ∈ w.modified? e.1, t.IsWithin k))

theorem DatedWithin.mono {l : Ledger} {w : World} {j k : Nat} (h : l.DatedWithin w j)
    (hjk : j ≤ k) : l.DatedWithin w k := fun e he t ht => (h e he t ht).mono hjk

variable {l : Ledger} {w : World} {reference : Instant} {packages : Packages} {k gap : Nat}

theorem changedIn_iff : l.changedIn w reference packages = true ↔
    (∃ e ∈ l.records, e.2.staleIn w reference.epochSeconds e.1 = true) ∨
      ∃ e ∈ l.missed, ∃ p, e.2.target packages w = some p ∧ (w.find? p).isSome := by
  simp only [changedIn, Bool.or_eq_true, List.any_eq_true, Option.any_eq_true]

/-- A change that is later by more than the rounding errors is noticed. -/
theorem changedIn_of_changedAfter (hk : k ≤ 53)
    (hgap : Instant.perSecond * (twoPow k + 1) ≤ gap * twoPow 53) (hdated : l.DatedWithin w k)
    (hreference : reference.IsWithin k) (h : l.ChangedAfter w (reference.plus gap) packages) :
    l.changedIn w reference packages = true := by
  refine changedIn_iff.2 (h.imp_left ?_)
  rintro ⟨e, he, houtdated⟩
  refine ⟨e, he, ?_⟩
  cases houtdated with
  | appeared t missing there => simp only [Record.staleIn, there, missing, Bool.true_or]
  | gone present absent => simp only [Record.staleIn, absent, present, Bool.not_false]
  | newer t present there later =>
    simp only [Record.staleIn, there, present, Bool.false_or]
    exact Instant.epochSeconds_lt hk hgap hreference (hdated e he t there) later

/-- What is taken for a change is one. -/
theorem changedAfter_of_changedIn (hdated : l.DatedWithin w 53) (hreference : reference.IsWithin 53)
    (h : l.changedIn w reference packages = true) : l.ChangedAfter w reference packages := by
  refine (changedIn_iff.1 h).imp_left ?_
  rintro ⟨e, he, hstale⟩
  refine ⟨e, he, ?_⟩
  cases hmissing : e.2.missing <;> cases hthere : w.modified? e.1 <;>
    simp only [Record.staleIn, hmissing, hthere, Bool.not_true, Bool.false_or, Bool.false_eq_true]
      at hstale
  case true.some t => exact .appeared t hmissing hthere
  case false.none => exact .gone hmissing hthere
  case false.some t =>
    exact .newer t hmissing hthere
      (Instant.lt_of_epochSeconds_lt hreference (hdated e he t hthere) hstale)

/-- **Changes are noticed up to the rounding of times.** Less than `2 ^ k` seconds from 1970, two
roundings make no more than `gap` nanoseconds of difference. Then asking a ledger whether something
has changed has an answer and changes nothing; the answer is yes if there is a change later than the
reference by more than that, and no if there is none at all. A request is never answered with an
entry older than a file that was asked for, nor older by more than that than anything in its
ledger. -/
theorem staleness_is_exact_up_to_rounding (hk : k ≤ 53)
    (hgap : Instant.perSecond * (twoPow k + 1) ≤ gap * twoPow 53) (w : World) :
    (∀ (l : Ledger) (reference : Instant) (packages : Packages), l.DatedWithin w k →
      reference.IsWithin k → ∃ changed,
        outcome (l.hasChanged reference packages : ExceptT Error InWorld Bool) w =
          (.ok changed, w) ∧
        (l.ChangedAfter w (reference.plus gap) packages → changed = true) ∧
        (changed = true → l.ChangedAfter w reference packages)) ∧
    ∀ (s : Store) (paths : List FilePath) (settings : List String) (t : Tree) (l : Ledger)
      (w' : World), outcome (s.lookup paths settings) w = (.ok (some (t, l)), w') →
      ∃ written, w.modified? (s.fileIn w paths settings) = some written ∧
        (∀ p ∈ paths, ∃ u, w.modified? p = some u ∧ u.nanoseconds ≤ written.nanoseconds) ∧
        (l.DatedWithin w k → written.IsWithin k →
          ¬ l.ChangedAfter w (written.plus gap) s.packages) := by
  refine ⟨fun l reference packages hdated hreference => ?_, fun s paths settings t l w' h => ?_⟩
  · exact ⟨_, hasChanged_run w l reference packages,
      changedIn_of_changedAfter hk hgap hdated hreference,
      changedAfter_of_changedIn (hdated.mono hk) (hreference.mono hk)⟩
  · obtain ⟨-, e, written, hanswers, hhit⟩ :=
      Store.answer_eq_some_iff.1 (Store.answer_of_lookup h)
    obtain ⟨rfl, rfl⟩ := Prod.mk.inj hhit
    refine ⟨written, hanswers.dated, hanswers.fresh, fun hdated hwritten hchanged => ?_⟩
    have hstale := changedIn_of_changedAfter hk hgap hdated hwritten hchanged
    rw [hanswers.unchanged] at hstale
    cases hstale

/-- When an entry was written. -/
def entryTime : Instant := Instant.ofSeconds 1700000000 0

/-- What it was computed from. -/
def entryLedger : Ledger := ⟨[(⟨"/a.yml"⟩, Record.blank)], []⟩

/-- The store it is in. -/
def entryStore : Store := ⟨⟨"/cache"⟩, Packages.none⟩

/-- A world with the entry, and a file of its ledger that was changed so many nanoseconds later. -/
def changedBy (late : Nat) : World :=
  World.holding [
    (["r.yml"], .file "a: 1\n".toUTF8 entryTime),
    (["a.yml"], .file "a: 1\n".toUTF8 (entryTime.plus late)),
    (["cache"], .directory entryTime),
    (["cache", Cache.key ⟨"/"⟩ [⟨"/r.yml"⟩] [] ++ ".yml"], .file
      ("engine: " ++ engineName ++ "\ninputs: []\ntree: 1\ndeps:\n  deps:\n    /a.yml:\n" ++
        "      missing: false\n").toUTF8 entryTime)]

/-- A change by a microsecond is noticed. One by a nanosecond is not, and the entry is an answer. -/
theorem microsecond_is_noticed :
    outcome (entryLedger.hasChanged entryTime Packages.none : ExceptT Error InWorld Bool)
      (changedBy 1000) = (.ok true, changedBy 1000) ∧
    ∃ t, outcome (entryStore.lookup [⟨"/r.yml"⟩] []) (changedBy 1) =
        (.ok (some (t, entryLedger)), changedBy 1) ∧
      entryLedger.ChangedAfter (changedBy 1) entryTime Packages.none ∧
      ¬ entryLedger.ChangedAfter (changedBy 1) (entryTime.plus 239) Packages.none := by
  have hk : 31 ≤ 53 := by decide
  have hgap : Instant.perSecond * (twoPow 31 + 1) ≤ 239 * twoPow 53 := by decide +kernel
  have hentry : entryTime.IsWithin 31 := by decide +kernel
  have hlate : ∀ late ∈ [1, 1000],
      (changedBy late).modified? ⟨"/a.yml"⟩ = some (entryTime.plus late) := by decide +kernel
  have hdated : ∀ late ∈ [1, 1000], entryLedger.DatedWithin (changedBy late) 31 := by
    decide +kernel
  constructor
  · obtain ⟨changed, hrun, hnoticed, -⟩ :=
      (staleness_is_exact_up_to_rounding hk hgap (changedBy 1000)).1 entryLedger entryTime
        Packages.none (hdated 1000 (by decide)) hentry
    have hchanged : entryLedger.ChangedAfter (changedBy 1000) (entryTime.plus 239) Packages.none :=
      .inl ⟨_, List.mem_singleton_self _, .newer _ rfl (hlate 1000 (by decide)) (by decide)⟩
    rw [hrun, hnoticed hchanged]
  · obtain ⟨hhit, hwritten⟩ : (entryStore.answer (changedBy 1) [⟨"/r.yml"⟩] []).1.map Prod.snd =
          some entryLedger ∧
        (changedBy 1).modified? (entryStore.fileIn (changedBy 1) [⟨"/r.yml"⟩] []) =
          some entryTime := by decide +kernel
    obtain ⟨⟨t, l⟩, hhit, rfl⟩ := Option.map_eq_some_iff.1 hhit
    obtain ⟨e, _, hanswers, heq⟩ := Store.answer_fst_eq_some_iff.1 hhit
    have hrun := hanswers.lookup_run
    rw [← heq] at hrun
    obtain ⟨written, hdate, -, hunchanged⟩ :=
      (staleness_is_exact_up_to_rounding hk hgap (changedBy 1)).2 _ _ _ _ _ _ hrun
    -- The instant the theorem speaks of is the one the entry was put there with.
    obtain rfl := Option.some.inj (hdate.symm.trans hwritten)
    refine ⟨t, hrun, ?_, hunchanged (hdated 1 (by decide)) hentry⟩
    exact .inl ⟨_, List.mem_singleton_self _, .newer _ rfl (hlate 1 (by decide)) (by decide)⟩

end Ledger

end LayeredConfig
