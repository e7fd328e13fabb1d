import LayeredConfig.Ledger.Basic
import LayeredConfig.Proofs.Path.NormalForm
import Mathlib.Data.List.Induction

/-!
# Joining ledgers

What is noted under paths one after the other is the list of it with repetitions dropped: of each
path the first counts, whatever its spelling. So it makes no difference whether a ledger takes up
entries one by one or from other ledgers that have taken them up before.
-/

namespace LayeredConfig

namespace FilePath

variable {p q r : FilePath}

theorem same_refl (p : FilePath) : p.same p = true := beq_self_eq_true _

theorem same_comm (p q : FilePath) : p.same q = q.same p := Bool.beq_comm

theorem same_trans (h : p.same q = true) (h' : q.same r = true) : p.same r = true := by
  rw [same, beq_iff_eq] at *
  exact h.trans h'

end FilePath

namespace Ledger

variable {α : Type}

/-- Note values under paths one after the other. -/
def notes (l es : List (FilePath × α)) : List (FilePath × α) :=
  es.foldl (fun l e => note l e.1 e.2) l

/-- The path has an entry. -/
def covers (l : List (FilePath × α)) (path : FilePath) : Bool := l.any fun e => e.1.same path

/-- The entries without those whose path has come before. -/
def firsts (es : List (FilePath × α)) : List (FilePath × α) :=
  es.eraseDupsBy fun later earlier => later.1.same earlier.1

theorem covers_iff {l : List (FilePath × α)} {path : FilePath} :
    covers l path = true ↔ ∃ e ∈ l, e.1.same path = true := List.any_eq_true

theorem covers_congr {p q : FilePath} (h : p.same q = true) (l : List (FilePath × α)) :
    covers l p = covers l q := by
  have hiff : covers l p = true ↔ covers l q = true := by
    rw [covers_iff, covers_iff]
    constructor
    · rintro ⟨e, he, hsame⟩
      exact ⟨e, he, FilePath.same_trans hsame h⟩
    · rintro ⟨e, he, hsame⟩
      exact ⟨e, he, FilePath.same_trans hsame (FilePath.same_comm p q ▸ h)⟩
  exact Bool.eq_iff_iff.2 hiff

theorem covers_append (l m : List (FilePath × α)) (path : FilePath) :
    covers (l ++ m) path = (covers l path || covers m path) := List.any_append

/-! ## One entry -/

theorem note_of_covers {l : List (FilePath × α)} {path : FilePath} (h : covers l path = true)
    (a : α) : note l path a = l := if_pos h

theorem note_of_not_covers {l : List (FilePath × α)} {path : FilePath}
    (h : covers l path = false) (a : α) : note l path a = l ++ [(path, a)] :=
  if_neg (by simpa [covers] using h)

theorem covers_note (l : List (FilePath × α)) (path : FilePath) (a : α) (p : FilePath) :
    covers (note l path a) p = (covers l p || path.same p) := by
  cases hpath : covers l path with
  | true =>
    rw [note_of_covers hpath]
    cases hsame : path.same p with
    | true => rw [← covers_congr hsame, hpath, Bool.or_true]
    | false => rw [Bool.or_false]
  | false =>
    rw [note_of_not_covers hpath, covers_append]
    simp [covers]

/-! ## Many entries -/

@[simp] theorem notes_nil (l : List (FilePath × α)) : notes l [] = l := rfl

@[simp] theorem notes_cons (l : List (FilePath × α)) (e : FilePath × α)
    (es : List (FilePath × α)) : notes l (e :: es) = notes (note l e.1 e.2) es := rfl

theorem notes_append (l es fs : List (FilePath × α)) :
    notes l (es ++ fs) = notes (notes l es) fs := List.foldl_append

theorem covers_notes (l es : List (FilePath × α)) (path : FilePath) :
    covers (notes l es) path = (covers l path || covers es path) := by
  induction es generalizing l with
  | nil => simp [covers]
  | cons e rest ih =>
    rw [notes_cons, ih, covers_note, Bool.or_assoc]
    rfl

/-- Entries that were noted elsewhere before are noted as if they came one after the other. -/
theorem notes_notes (l m es : List (FilePath × α)) :
    notes l (notes m es) = notes (notes l m) es := by
  induction es using List.reverseRecOn with
  | nil => rfl
  | append_singleton es e ih =>
    have hlast : ∀ l : List (FilePath × α), notes l (es ++ [e]) = note (notes l es) e.1 e.2 :=
      fun l => notes_append l es [e]
    rw [hlast, hlast, ← ih]
    cases hcovers : covers (notes m es) e.1 with
    | true =>
      have hwide : covers (notes l (notes m es)) e.1 = true := by
        rw [covers_notes, hcovers, Bool.or_true]
      rw [note_of_covers hcovers, note_of_covers hwide]
    | false => rw [note_of_not_covers hcovers, notes_append, notes_cons, notes_nil]

/-- What is added is every entry whose path was not there, without repetitions. -/
theorem notes_eq (l es : List (FilePath × α)) :
    notes l es = l ++ firsts (es.filter fun e => !covers l e.1) := by
  induction es generalizing l with
  | nil => simp [firsts]
  | cons e rest ih =>
    rw [notes_cons, List.filter_cons]
    cases hcovers : covers l e.1 with
    | true =>
      rw [note_of_covers hcovers, ih]
      rfl
    | false =>
      have hrest : rest.filter (fun f => !covers (l ++ [e]) f.1) =
          (rest.filter fun f => !covers l f.1).filter
            fun f => decide (f.1.same e.1 = false) := by
        rw [List.filter_filter]
        refine List.filter_congr fun f _ => ?_
        rw [covers_append, FilePath.same_comm f.1 e.1]
        cases covers l f.1 <;> simp [covers]
      rw [note_of_not_covers hcovers, ih, hrest]
      simp [firsts, List.eraseDupsBy_cons]

theorem notes_empty (es : List (FilePath × α)) : notes [] es = firsts es := by
  have hall : es.filter (fun e => !covers ([] : List (FilePath × α)) e.1) = es := by simp [covers]
  rw [notes_eq, hall, List.nil_append]

theorem mem_of_mem_notes {l es : List (FilePath × α)} {e : FilePath × α} (h : e ∈ notes l es) :
    e ∈ l ∨ e ∈ es := by
  induction es generalizing l with
  | nil => exact .inl h
  | cons f rest ih =>
    rw [notes_cons] at h
    rcases ih h with h | h
    · cases hcovers : covers l f.1 with
      | true =>
        rw [note_of_covers hcovers] at h
        exact .inl h
      | false =>
        rw [note_of_not_covers hcovers, List.mem_append, List.mem_singleton] at h
        exact h.imp_right fun heq => List.mem_cons.2 (.inl heq)
    · exact .inr (List.mem_cons_of_mem _ h)

/-- The paths noted are the paths of the entries without repetitions, if they are in normal form. -/
theorem map_fst_firsts {es : List (FilePath × α)} (h : ∀ e ∈ es, e.1.IsNormal) :
    (firsts es).map Prod.fst = (es.map Prod.fst).eraseDups := by
  induction hn : es.length using Nat.strongRecOn generalizing es with
  | ind n ih =>
    cases es with
    | nil => rfl
    | cons e rest =>
      obtain ⟨he, hrest⟩ := List.forall_mem_cons.1 h
      have hfilter : (rest.filter fun f => decide (f.1.same e.1 = false)).map Prod.fst =
          (rest.map Prod.fst).filter fun p => !p == e.1 := by
        rw [List.filter_map]
        refine congrArg _ (List.filter_congr fun f hf => ?_)
        have hsame := (hrest f hf).same_iff he
        cases hc : f.1.same e.1 <;> simp_all
      have hlength : (rest.filter fun f => decide (f.1.same e.1 = false)).length < n := by
        have := List.length_filter_le (fun f => decide (f.1.same e.1 = false)) rest
        rw [← hn, List.length_cons]
        omega
      rw [firsts, List.eraseDupsBy_cons, List.map_cons, List.map_cons, List.eraseDups_cons,
        ← hfilter]
      exact congrArg _ (ih _ hlength (fun f hf => hrest f (List.mem_filter.1 hf).1) rfl)

/-! ## Ledgers -/

theorem update_eq (l m : Ledger) :
    l.update m = ⟨notes l.records m.records, notes l.missed m.missed⟩ := rfl

/-- Taking up a ledger that has taken up another is taking up both in turn. -/
theorem update_update (l m n : Ledger) : l.update (m.update n) = (l.update m).update n := by
  simp only [update_eq, notes_notes]

end Ledger

end LayeredConfig
