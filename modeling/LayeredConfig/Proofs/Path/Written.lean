import LayeredConfig.Path.Section
import LayeredConfig.Proofs.Trimming

/-!
# Writing section paths

Any steps can be written as a section path: a key between double quotes in brackets, with a
backslash before each backslash and each double quote in it, and an index in brackets. What the
keys hold does not matter, nor whether it looks like a part of a path itself. Only the indices are
bounded, because the reader takes nothing for an index that is not a word (`parse_write_iff`).

There is a lemma for each state that the reader is in while it passes a written step; it says where
the reader is after a stretch of the text, and what it has read.
-/

namespace LayeredConfig

namespace Segment

/-! ## Indices -/

/-- The step can stand in a section path: any text is a key, but an index is a word. -/
def Fits : Segment → Prop
  | .key _ => True
  | .index i => i < twoPow 64

@[simp] theorem fits_key (name : String) : (Segment.key name).Fits := trivial

/-- Digits are read as the number that they write. -/
theorem foldl_toDigits (i : Nat) :
    (Nat.toDigits 10 i).foldl (fun n c => n * 10 + (c.toNat - 48)) 0 = i := by
  have hdigits := Nat.ofDigitChars_ten_toDigits (n := i)
  simp only [Nat.ofDigitChars_eq_foldl, Nat.mul_comm] at hdigits
  exact hdigits

theorem isDigit_of_mem_toDigits {i : Nat} {c : Char} (h : c ∈ Nat.toDigits 10 i) :
    c.isDigit = true :=
  Nat.isDigit_of_mem_toDigits (by decide) (by decide) h

/-- A word is read where it is written. -/
theorem word?_toDigits {i : Nat} (h : i < twoPow 64) : word? (Nat.toDigits 10 i) = some i := by
  have hall : (Nat.toDigits 10 i).all Char.isDigit = true :=
    List.all_eq_true.2 fun _ => isDigit_of_mem_toDigits
  unfold word?
  split
  next rest hplus =>
    -- no digit is a plus sign
    have hdigit := isDigit_of_mem_toDigits (hplus ▸ List.mem_cons_self : '+' ∈ Nat.toDigits 10 i)
    contradiction
  · simp [hall, foldl_toDigits, h]

theorem lt_of_word? {s : List Char} {i : Nat} (h : word? s = some i) : i < twoPow 64 := by
  unfold word? at h
  extract_lets digits n at h
  split at h
  · cases h
  · split at h
    next hlt => exact Option.some.inj h ▸ hlt
    · cases h

theorem trimBoth_toDigits (i : Nat) : Text.trimBoth (Nat.toDigits 10 i) = Nat.toDigits 10 i := by
  have hvisible : ∀ c ∈ Nat.toDigits 10 i, Text.isBlank c = false := fun _ hc =>
    Text.isBlank_of_isDigit (isDigit_of_mem_toDigits hc)
  exact Text.Tight.trimBoth_eq
    ⟨fun c hc => hvisible c (List.mem_of_head? hc),
      fun c hc => hvisible c (List.mem_of_getLast? hc)⟩

/-- A bracket with a word in it is an index. -/
theorem ofBracket_toDigits {i : Nat} (h : i < twoPow 64) :
    ofBracket (Nat.toDigits 10 i) = [.index i] := by
  rw [ofBracket]
  simp only [trimBoth_toDigits, word?_toDigits h]

/-! ## Written steps -/

/-- A key with a backslash before each backslash and each double quote. -/
def escaped (key : List Char) : List Char :=
  key.flatMap fun c => if c = '\\' ∨ c = '"' then ['\\', c] else [c]

/-- A step in brackets. -/
def written : Segment → List Char
  | .key name => '[' :: '"' :: escaped name.toList ++ ['"', ']']
  | .index i => '[' :: (toString i).toList ++ [']']

end Segment

namespace SectionPath

/-- Steps as a section path. -/
def write (steps : List Segment) : String := String.ofList (steps.flatMap Segment.written)

/-! ## What the reader makes of them -/

/-- Within quotes a character stands for itself, if it is neither a quote nor a backslash. -/
theorem read_quoted_cons {quote c : Char} (hbackslash : c ≠ '\\') (hquote : c ≠ quote)
    (piece rest : List Char) :
    read (.quoted quote piece) (c :: rest) = read (.quoted quote (c :: piece)) rest := by
  rw [read.eq_def]
  exact (if_neg hbackslash).trans (if_neg hquote)

/-- Within quotes any character stands for itself behind a backslash. -/
theorem read_quoted_backslash (quote c : Char) (piece rest : List Char) :
    read (.quoted quote piece) ('\\' :: c :: rest) = read (.quoted quote (c :: piece)) rest := by
  rw [read.eq_def]
  exact (if_pos rfl).trans (by rw [read])

/-- Between double quotes a key is read as it was before it was escaped. -/
theorem read_quoted (key piece rest : List Char) :
    read (.quoted '"' piece) (Segment.escaped key ++ '"' :: ']' :: rest) =
      .key (String.ofList (piece.reverse ++ key)) :: read (.bare []) rest := by
  -- what has been read of the key is in the state, backwards
  induction key generalizing piece with
  | nil => simp [Segment.escaped, read]
  | cons c key ih =>
    have hnext := ih (c :: piece)
    rw [List.reverse_cons, List.append_assoc, List.singleton_append] at hnext
    rw [Segment.escaped, List.flatMap_cons, List.append_assoc]
    split
    · exact (read_quoted_backslash '"' c piece _).trans hnext
    next hplain =>
      obtain ⟨hbackslash, hquote⟩ := not_or.1 hplain
      exact (read_quoted_cons hbackslash hquote piece _).trans hnext

/-- Up to the closing bracket everything belongs to the bracket. -/
theorem read_bracket {content : List Char} (h : ']' ∉ content) (piece rest : List Char) :
    read (.bracket piece) (content ++ ']' :: rest) =
      Segment.ofBracket (piece.reverse ++ content) ++ read (.bare []) rest := by
  induction content generalizing piece with
  | nil => simp [read]
  | cons c content ih =>
    obtain ⟨hc, hcontent⟩ := not_or.1 (List.mem_cons.not.1 h)
    rw [List.cons_append, read, if_neg (Ne.symm hc), ih hcontent]
    simp

/-- A bracket opens behind anything. -/
theorem read_bare_bracket (piece rest : List Char) :
    read (.bare piece) ('[' :: rest) = Segment.ofBare piece.reverse ++ read .opened rest := by
  simp [read]

/-- An index is read where it is written. -/
theorem read_index {i : Nat} (h : i < twoPow 64) (piece rest : List Char) :
    read (.bare piece) ('[' :: (Nat.toDigits 10 i ++ ']' :: rest)) =
      Segment.ofBare piece.reverse ++ .index i :: read (.bare []) rest := by
  have hother : ∀ c, c ∈ Nat.toDigits 10 i → c ≠ ']' ∧ c ≠ '"' ∧ c ≠ '\'' := by
    intro c hc
    have hdigit := Segment.isDigit_of_mem_toDigits hc
    refine ⟨?_, ?_, ?_⟩ <;> rintro rfl <;> contradiction
  have hcontent := Segment.ofBracket_toDigits h
  rw [read_bare_bracket]
  cases hdigits : Nat.toDigits 10 i with
  | nil => exact absurd hdigits Nat.toDigits_ne_nil
  | cons c digits =>
    rw [hdigits] at hother hcontent
    obtain ⟨⟨hclose, hdouble, hsingle⟩, hrest⟩ := List.forall_mem_cons.1 hother
    have hclosed : ']' ∉ digits := fun hmem => (hrest _ hmem).1 rfl
    rw [List.cons_append, read, if_neg (not_or.2 ⟨hdouble, hsingle⟩), if_neg hclose,
      read_bracket hclosed]
    rw [List.reverse_singleton, List.singleton_append, hcontent]
    rfl

/-- A step is read where it is written. -/
theorem read_written {step : Segment} (h : step.Fits) (rest : List Char) :
    read (.bare []) (step.written ++ rest) = step :: read (.bare []) rest := by
  cases step with
  | key name =>
    have hquoted := read_quoted name.toList [] rest
    rw [List.reverse_nil, List.nil_append, String.ofList_toList] at hquoted
    rw [← hquoted]
    simp [Segment.written, read, Segment.ofBare]
  | index i =>
    have hindex := read_index h [] rest
    rw [← List.nil_append (Segment.index i :: _)]
    simpa [Segment.written, Nat.toString_eq_ofList_toDigits, Segment.ofBare] using hindex

/-- Steps are read where they are written. -/
theorem read_write {steps : List Segment} (h : ∀ step ∈ steps, step.Fits) :
    read (.bare []) (steps.flatMap Segment.written) = steps := by
  induction steps with
  | nil => rfl
  | cons step steps ih =>
    obtain ⟨hstep, hsteps⟩ := List.forall_mem_cons.1 h
    rw [List.flatMap_cons, read_written hstep, ih hsteps]

/-! ## Section paths -/

theorem fits_of_mem_ofBare {name : List Char} {step : Segment} (h : step ∈ Segment.ofBare name) :
    step.Fits := by
  unfold Segment.ofBare at h
  split at h
  · cases h
  · exact List.mem_singleton.1 h ▸ trivial

theorem fits_of_mem_ofBracket {content : List Char} {step : Segment}
    (h : step ∈ Segment.ofBracket content) : step.Fits := by
  unfold Segment.ofBracket at h
  dsimp only at h
  split at h
  next i hword =>
    obtain rfl := List.mem_singleton.1 h
    exact Segment.lt_of_word? hword
  · split at h
    · cases h
    · exact List.mem_singleton.1 h ▸ trivial

/-- The reader gives no index that is not a word. -/
theorem fits_of_mem_read {state : Reading} {s : List Char} {step : Segment}
    (h : step ∈ read state s) : step.Fits := by
  fun_induction read state s <;>
    grind [Segment.fits_key, fits_of_mem_ofBare, fits_of_mem_ofBracket]

/-- **Any steps can be written as a section path**, as long as the indices are words. -/
theorem parse_write_iff (steps : List Segment) :
    parse (write steps) = steps ↔ ∀ step ∈ steps, step.Fits := by
  constructor
  · intro h step hstep
    rw [← h, parse] at hstep
    split at hstep
    · cases hstep
    · exact fits_of_mem_read hstep
  · intro h
    rw [parse, write, String.toList_ofList, read_write h]
    split
    next hblank =>
      -- only the empty list is written without a bracket
      cases steps with
      | nil => rfl
      | cons step steps =>
        have hbracket : '[' ∈ (step :: steps).flatMap Segment.written := by
          cases step <;> simp [Segment.written]
        exact absurd (List.isEmpty_iff.1 hblank) (Text.trimBoth_ne_nil hbracket (by decide))
    · rfl

example : write [.key "a\"]", .index 7] = "[\"a\\\"]\"][7]" := by decide +kernel

end SectionPath

end LayeredConfig
