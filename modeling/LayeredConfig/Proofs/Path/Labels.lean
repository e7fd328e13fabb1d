import LayeredConfig.Proofs.Path.Written

/-!
# Reading labels back

A label names a node by the steps that lead to it. It is made step by step, an entry behind a dot
and an item in brackets, and it is read by `parse`, which knows nothing of that. Where the keys are
legible, the reader finds each step where it was put (`read_label`), so no two nodes share a label.
It is only that a section path of white space names no steps at all (`parse_label_iff`).
-/

namespace LayeredConfig

namespace Segment

/-- The step can be read off a label: the key is there and has nothing that ends it, and the index
is a word. -/
def Legible : Segment → Prop
  | .key name => name ≠ "" ∧ '.' ∉ name.toList ∧ '[' ∉ name.toList ∧ '\\' ∉ name.toList
  | .index i => i < twoPow 64

instance : DecidablePred Legible
  | .key _ => inferInstanceAs (Decidable (_ ≠ "" ∧ _ ∉ _ ∧ _ ∉ _ ∧ _ ∉ _))
  | .index i => inferInstanceAs (Decidable (i < twoPow 64))

theorem Legible.plain {name : String} (h : (Segment.key name).Legible) :
    ∀ c ∈ name.toList, c ≠ '.' ∧ c ≠ '[' ∧ c ≠ '\\' := by
  obtain ⟨-, hdot, hbracket, hbackslash⟩ := h
  exact fun c hc => ⟨ne_of_mem_of_not_mem hc hdot, ne_of_mem_of_not_mem hc hbracket,
    ne_of_mem_of_not_mem hc hbackslash⟩

/-- What the step adds to a label. -/
def tail : Segment → List Char
  | .key name => '.' :: name.toList
  | .index i => '[' :: (Nat.toDigits 10 i ++ [']'])

end Segment

namespace SectionPath

/-! ## Labels -/

/-- A label that is extended by one step. -/
def extend (label : String) : Segment → String
  | .key name => childLabel label name
  | .index i => indexLabel label i

/-- The label of the node that the steps lead to, from a node that has a label. -/
def labelFrom (label : String) (steps : List Segment) : String := steps.foldl extend label

/-- The label of the node that the steps lead to. -/
def label (steps : List Segment) : String := labelFrom "" steps

@[simp] theorem labelFrom_nil (label : String) : labelFrom label [] = label := rfl

@[simp] theorem labelFrom_cons (label : String) (step : Segment) (steps : List Segment) :
    labelFrom label (step :: steps) = labelFrom (extend label step) steps := rfl

theorem labelFrom_append (label : String) (steps more : List Segment) :
    labelFrom label (steps ++ more) = labelFrom (labelFrom label steps) more :=
  List.foldl_append

/-- Behind anything a step adds its own text. -/
theorem toList_extend {label : String} (h : label ≠ "") (step : Segment) :
    (extend label step).toList = label.toList ++ step.tail := by
  cases step with
  | key name =>
    rw [extend, childLabel, if_neg (by simpa using h)]
    simp [Segment.tail]
  | index i =>
    simp [extend, indexLabel, Segment.tail]

theorem extend_ne {label : String} (h : label ≠ "") (step : Segment) : extend label step ≠ "" := by
  intro hempty
  have htext := toList_extend h step
  rw [hempty] at htext
  cases step <;> simp [Segment.tail] at htext

/-- Behind anything steps add their texts. -/
theorem toList_labelFrom {label : String} (h : label ≠ "") (steps : List Segment) :
    (labelFrom label steps).toList = label.toList ++ steps.flatMap Segment.tail := by
  induction steps generalizing label with
  | nil => simp
  | cons step steps ih =>
    rw [labelFrom_cons, ih (extend_ne h step), toList_extend h, List.flatMap_cons,
      List.append_assoc]

/-! ## What the reader makes of them -/

/-- Outside of brackets a character stands for itself, if it neither ends a key nor is a
backslash. -/
theorem read_bare_cons {c : Char} (h : c ≠ '.' ∧ c ≠ '[' ∧ c ≠ '\\') (piece rest : List Char) :
    read (.bare piece) (c :: rest) = read (.bare (c :: piece)) rest := by
  obtain ⟨hdot, hbracket, hbackslash⟩ := h
  rw [read, if_neg hbackslash, if_neg hdot, if_neg hbracket]

theorem read_bare_append {name : List Char} (h : ∀ c ∈ name, c ≠ '.' ∧ c ≠ '[' ∧ c ≠ '\\')
    (piece rest : List Char) :
    read (.bare piece) (name ++ rest) = read (.bare (name.reverse ++ piece)) rest := by
  induction name generalizing piece with
  | nil => rfl
  | cons c name ih =>
    obtain ⟨hc, hname⟩ := List.forall_mem_cons.1 h
    rw [List.cons_append, read_bare_cons hc, ih hname]
    simp

theorem ofBare_key {name : String} (h : name ≠ "") :
    Segment.ofBare name.toList = [.key name] := by
  simp [Segment.ofBare, h]

/-- What steps add to a label ends the key before it. -/
theorem read_tails (piece : List Char) (more : List Segment) :
    read (.bare piece) (more.flatMap Segment.tail) =
      Segment.ofBare piece.reverse ++ read (.bare []) (more.flatMap Segment.tail) := by
  cases more with
  | nil => simp [read, Segment.ofBare]
  | cons step more =>
    rw [List.flatMap_cons]
    cases step <;> simp [Segment.tail, read, Segment.ofBare]

/-- What legible steps add to a label is read as these steps, whatever follows them. -/
theorem read_tails_append {steps : List Segment} (h : ∀ step ∈ steps, step.Legible)
    (piece : List Char) (more : List Segment) :
    read (.bare piece) ((steps ++ more).flatMap Segment.tail) =
      Segment.ofBare piece.reverse ++ (steps ++ read (.bare []) (more.flatMap Segment.tail)) := by
  -- a key ends only where the next step begins, so each step is read with the key before it in hand
  induction steps generalizing piece with
  | nil => exact read_tails piece more
  | cons step steps ih =>
    obtain ⟨hstep, hsteps⟩ := List.forall_mem_cons.1 h
    rw [List.cons_append, List.flatMap_cons]
    cases step with
    | key name =>
      have hplain := hstep.plain
      obtain ⟨hname, -⟩ := hstep
      have hread := ih hsteps name.toList.reverse
      rw [List.reverse_reverse, ofBare_key hname] at hread
      rw [Segment.tail, List.cons_append, read, if_neg (by decide), if_pos rfl,
        read_bare_append hplain, List.append_nil, hread]
      rfl
    | index i =>
      rw [Segment.tail, List.cons_append, List.append_assoc, List.singleton_append,
        read_index hstep, ih hsteps]
      rfl

/-- The label of a node is read as the legible steps that begin the way to it, and then on. -/
theorem read_label_append {steps : List Segment} (h : ∀ step ∈ steps, step.Legible)
    (hne : steps ≠ []) (more : List Segment) :
    read (.bare []) (label (steps ++ more)).toList =
      steps ++ read (.bare []) (more.flatMap Segment.tail) := by
  obtain ⟨step, steps, rfl⟩ := List.exists_cons_of_ne_nil hne
  obtain ⟨hstep, hsteps⟩ := List.forall_mem_cons.1 h
  rw [List.cons_append, label, labelFrom_cons]
  cases step with
  | key name =>
    -- the first key stands at the start, without a dot
    have hplain := hstep.plain
    obtain ⟨hname, -⟩ := hstep
    have hfirst : extend "" (.key name) = name := by simp [extend, childLabel]
    have hread := read_tails_append hsteps name.toList.reverse more
    rw [List.reverse_reverse, ofBare_key hname] at hread
    rw [hfirst, toList_labelFrom hname, read_bare_append hplain, List.append_nil, hread]
    rfl
  | index i =>
    have hfirst : (extend "" (.index i)).toList = (Segment.index i).tail := by
      simp [extend, indexLabel, Segment.tail]
    have hnonempty : extend "" (.index i) ≠ "" := by
      intro hempty
      rw [hempty] at hfirst
      cases hfirst
    rw [toList_labelFrom hnonempty, hfirst, ← List.flatMap_cons, ← List.cons_append]
    exact read_tails_append h [] more

/-- A label is read as the steps it was made of. -/
theorem read_label {steps : List Segment} (h : ∀ step ∈ steps, step.Legible) :
    read (.bare []) (label steps).toList = steps := by
  by_cases hne : steps = []
  · rw [hne]
    rfl
  · have hread := read_label_append h hne []
    rw [List.append_nil] at hread
    exact hread.trans (List.append_nil steps)

theorem label_eq_empty {steps : List Segment} (h : ∀ step ∈ steps, step.Legible) :
    label steps = "" ↔ steps = [] := by
  constructor
  · intro hempty
    rw [← read_label h, hempty]
    rfl
  · rintro rfl
    rfl

/-- Distinct nodes have distinct labels. -/
theorem label_injective {p q : List Segment} (hp : ∀ step ∈ p, step.Legible)
    (hq : ∀ step ∈ q, step.Legible) (h : label p = label q) : p = q := by
  rw [← read_label hp, h, read_label hq]

/-! ## What labels name -/

/-- The label is not white space. -/
def Readable (label : String) : Prop := label = "" ∨ ¬ Text.Blank label.toList

instance (label : String) : Decidable (Readable label) :=
  inferInstanceAs (Decidable (label = "" ∨ ¬ Text.Blank label.toList))

theorem parse_eq_read {path : String} (h : ¬ Text.Blank path.toList) :
    parse path = read (.bare []) path.toList := by
  rw [parse, if_neg (by rwa [List.isEmpty_iff, Text.trimBoth_eq_nil])]

/-- A label names the steps it was made of, if it is readable. -/
theorem parse_label_iff {steps : List Segment} (h : ∀ step ∈ steps, step.Legible) :
    parse (label steps) = steps ↔ Readable (label steps) := by
  rw [Readable, label_eq_empty h]
  by_cases hblank : Text.Blank (label steps).toList
  · rw [parse, if_pos (List.isEmpty_iff.2 (Text.trimBoth_eq_nil.2 hblank))]
    simp [hblank, eq_comm]
  · simp [hblank, parse_eq_read hblank, read_label h]

/-- The steps that begin the way to a node begin what its label names, if it is readable. -/
theorem prefix_parse_label {steps more : List Segment} (h : ∀ step ∈ steps, step.Legible)
    (hreadable : Readable (label (steps ++ more))) : steps <+: parse (label (steps ++ more)) := by
  by_cases hne : steps = []
  · rw [hne]
    exact List.nil_prefix
  · have hread := read_label_append h hne more
    rcases hreadable with hempty | hblank
    · rw [hempty] at hread
      exact absurd (List.append_eq_nil_iff.1 hread.symm).1 hne
    · rw [parse_eq_read hblank, hread]
      exact List.prefix_append _ _

end SectionPath

end LayeredConfig
