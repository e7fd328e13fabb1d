import LayeredConfig.Proofs.Ledger.Union
import LayeredConfig.Proofs.Memory
import Mathlib.Data.Finset.Card
import Mathlib.Data.Finset.Lattice.Lemmas

/-!
# Directories are asked about once

A memo gets calls one after the other. Each names a directory and brings a prober of its own, which
may answer what no other prober answers, or that there is nothing. A `Transcript` holds what is seen
of the calls: the answer of each, when the prober was run, and how many directories the memo knows.

One call is either answered from the memo, and then nothing is run (`next_of_kept`), or the prober is
run once and its answer is kept (`next_of_new`). Both do the same to what the memo knows of the
directories: what was known stays, and the directory of the call is known if it was not
(`Answered`). So after any calls the memo knows of a directory what its first call was answered
(`Faithful`). A directory that is known to have nothing is known all the same.
-/

namespace LayeredConfig

namespace GitMemo

variable {m : Type → Type} {σ : Type}

/-! ## Watching a memo -/

/-- A call: a directory, and what is run if nothing is known of it. -/
structure Inquiry (m : Type → Type) where
  dir : FilePath
  probe : FilePath → m (Option GitInfo)

/-- The prober of a call, with a note of what it is run on and what it answers. -/
def Inquiry.noted [Monad m] (call : Inquiry m) (dir : FilePath) :
    StateT (List (FilePath × Option GitInfo)) m (Option GitInfo) := do
  let info ← call.probe dir
  modify (· ++ [(dir, info)])
  return info

/-- What is seen of a call. -/
structure Turn where
  answer : Option GitInfo
  /-- What the prober was run on and what it answered, each time it was run. -/
  runs : List (FilePath × Option GitInfo)
  /-- How many directories have an answer afterwards. -/
  size : Nat
deriving DecidableEq, Repr

/-- What is seen of calls one after the other, and the memo that they leave. -/
structure Transcript where
  turns : List Turn
  memo : GitMemo

/-- One call more. -/
def Transcript.next [Monad m] (seen : Transcript) (call : Inquiry m) : m Transcript := do
  let ((answer, memo), runs) ← (seen.memo.ask call.dir call.noted).run []
  return ⟨seen.turns ++ [⟨answer, runs, memo.size⟩], memo⟩

/-- The calls one after the other, the first to a memo that knows nothing. -/
def transcript [Monad m] (calls : List (Inquiry m)) : m Transcript :=
  calls.foldlM Transcript.next ⟨[], empty⟩

/-- Where the first call for a directory stands, however that is spelled. -/
def firstFor (calls : List (Inquiry m)) (dir : FilePath) : Nat :=
  calls.findIdx fun call => call.dir.same dir

/-- The directories that are asked for, whatever their spellings. -/
def directories (calls : List (Inquiry m)) : Finset (List FilePath.Part) :=
  (calls.map fun call => call.dir.parts).toFinset

/-! ## One call -/

variable {seen : Transcript} {call : Inquiry m} {memo memo' : GitMemo} {dir : FilePath}
  {info : Option GitInfo} {turn : Turn}

/-- The notes stand beside the call: its answer and the memo are those without them. -/
theorem ask_noted [Monad m] [LawfulMonad m] (memo : GitMemo) (call : Inquiry m) :
    Prod.fst <$> (memo.ask call.dir call.noted).run [] = memo.ask call.dir call.probe := by
  cases h : memo.find? call.dir with
  | some info => simp [ask, h]
  | none => simp [ask, h, Inquiry.noted]

/-- An answer that is kept is given, and nothing is run. -/
theorem next_of_kept [Monad m] [LawfulMonad m] (h : seen.memo.find? call.dir = some info) :
    seen.next call = pure ⟨seen.turns ++ [⟨info, [], seen.memo.size⟩], seen.memo⟩ := by
  simp [Transcript.next, ask, h]

/-- The prober is run for a directory without an answer, and what it gives is kept. -/
theorem next_of_new [Monad m] [LawfulMonad m] (h : seen.memo.find? call.dir = none) :
    seen.next call = do
      let info ← call.probe call.dir
      let memo := seen.memo.add call.dir info
      return ⟨seen.turns ++ [⟨info, [(call.dir, info)], memo.size⟩], memo⟩ := by
  simp [Transcript.next, ask, h, Inquiry.noted]

theorem size_add (memo : GitMemo) (dir : FilePath) (info : Option GitInfo) :
    (memo.add dir info).size = memo.size + 1 := List.length_append

theorem find?_congr {p q : FilePath} (h : p.same q = true) (memo : GitMemo) :
    memo.find? p = memo.find? q := by
  have hparts : p.parts = q.parts := beq_iff_eq.1 h
  unfold find? FilePath.same
  rw [hparts]

/-- What a call does: the prober is run if nothing was known of the directory, and afterwards the
answer is known. What was known of this and other directories stays. -/
structure Answered (memo memo' : GitMemo) (dir : FilePath) (turn : Turn) : Prop where
  runs_eq : turn.runs = if (memo.find? dir).isSome then [] else [(dir, turn.answer)]
  answer_eq : memo'.find? dir = some turn.answer
  find?_eq : ∀ other : FilePath, memo'.find? other =
    (memo.find? other).or (if dir.same other then some turn.answer else none)
  size_eq : memo'.size = memo.size + turn.runs.length
  turn_size : turn.size = memo'.size

theorem answered_of_kept (h : memo.find? dir = some info) :
    Answered memo memo dir ⟨info, [], memo.size⟩ where
  runs_eq := by rw [h]; rfl
  answer_eq := h
  find?_eq other := by
    by_cases hsame : dir.same other = true
    · rw [← find?_congr hsame, h, Option.some_or]
    · rw [if_neg hsame, Option.or_none]
  size_eq := rfl
  turn_size := rfl

theorem answered_of_new (h : memo.find? dir = none) (info : Option GitInfo) :
    Answered memo (memo.add dir info) dir ⟨info, [(dir, info)], (memo.add dir info).size⟩ where
  runs_eq := by rw [h]; rfl
  answer_eq := by rw [find?_add, h, Option.none_or, if_pos (FilePath.same_refl dir)]
  find?_eq other := find?_add memo dir other info
  size_eq := size_add memo dir info
  turn_size := rfl

theorem run_next (seen : Transcript) (call : Inquiry (StateM σ)) (world : σ) :
    ∃ turn memo world', (seen.next call).run world = (⟨seen.turns ++ [turn], memo⟩, world') ∧
      Answered seen.memo memo call.dir turn := by
  cases hfind : seen.memo.find? call.dir with
  -- with an answer that is kept, the world stays as it is
  | some info => exact ⟨_, _, world, by rw [next_of_kept hfind]; rfl, answered_of_kept hfind⟩
  | none => exact ⟨_, _, _, by rw [next_of_new hfind]; rfl, answered_of_new hfind _⟩

/-! ## Calls one after the other -/

section Calls

variable {calls : List (Inquiry m)} {i : Nat}

theorem firstFor_concat (calls : List (Inquiry m)) (call : Inquiry m) (dir : FilePath) :
    firstFor (calls ++ [call]) dir =
      if firstFor calls dir < calls.length then firstFor calls dir
      else if call.dir.same dir then calls.length else calls.length + 1 := by
  unfold firstFor
  rw [List.findIdx_append, List.findIdx_singleton]
  refine if_congr Iff.rfl rfl ?_
  split <;> omega

/-- A call is the first for its directory, or stands behind that. -/
theorem firstFor_le (h : calls[i]? = some call) : firstFor calls call.dir ≤ i := by
  obtain ⟨hi, rfl⟩ := List.getElem?_eq_some_iff.1 h
  by_contra hlt
  have hother := List.not_of_lt_findIdx (Nat.lt_of_not_le hlt)
  rw [FilePath.same_refl] at hother
  cases hother

theorem directories_concat (calls : List (Inquiry m)) (call : Inquiry m) :
    directories (calls ++ [call]) = insert call.dir.parts (directories calls) := by
  rw [directories, List.map_append, List.toFinset_append, Finset.union_comm]
  rfl

theorem mem_directories (calls : List (Inquiry m)) (dir : FilePath) :
    dir.parts ∈ directories calls ↔ firstFor calls dir < calls.length := by
  rw [directories, List.mem_toFinset, List.mem_map, firstFor, List.findIdx_lt_length]
  exact exists_congr fun call => and_congr_right fun _ => beq_iff_eq.symm

/-- What a turn tells of the call at its place: the prober was run if no call before it was for the
directory, the answer is that of the first call for the directory, and the memo knows the
directories so far. -/
structure Fits (turns : List Turn) (calls : List (Inquiry m)) (i : Nat) (call : Inquiry m)
    (turn : Turn) : Prop where
  runs_eq : turn.runs = if firstFor calls call.dir = i then [(call.dir, turn.answer)] else []
  answer_eq : turns[firstFor calls call.dir]?.map Turn.answer = some turn.answer
  size_eq : turn.size = (directories (calls.take (i + 1))).card

/-- After the calls, the memo knows of a directory what the first call for it was answered. -/
structure Faithful (seen : Transcript) (calls : List (Inquiry m)) : Prop where
  length_eq : seen.turns.length = calls.length
  find?_eq : ∀ dir : FilePath,
    seen.memo.find? dir = seen.turns[firstFor calls dir]?.map Turn.answer
  size_eq : seen.memo.size = (directories calls).card
  fits : ∀ i call turn, calls[i]? = some call → seen.turns[i]? = some turn →
    Fits seen.turns calls i call turn

theorem Faithful.nil : Faithful ⟨[], empty⟩ ([] : List (Inquiry m)) where
  length_eq := rfl
  find?_eq _ := rfl
  size_eq := rfl
  fits _ _ _ h := by cases h

namespace Faithful

variable (h : Faithful seen calls)
include h

theorem isSome_find?_iff (dir : FilePath) :
    (seen.memo.find? dir).isSome = true ↔ firstFor calls dir < calls.length := by
  rw [h.find?_eq, Option.isSome_map, isSome_getElem?, h.length_eq]

/-- What a turn tells is not changed by a later call. -/
theorem fits_concat {turn' : Turn} (call' : Inquiry m) (hfits : Fits seen.turns calls i call turn)
    (hcall : calls[i]? = some call) :
    Fits (seen.turns ++ [turn']) (calls ++ [call']) i call turn := by
  have hi : i < calls.length := (List.getElem?_eq_some_iff.1 hcall).1
  have hfirst : firstFor calls call.dir < calls.length := (firstFor_le hcall).trans_lt hi
  refine ⟨?_, ?_, ?_⟩
  · rw [firstFor_concat, if_pos hfirst, hfits.runs_eq]
  · rw [firstFor_concat, if_pos hfirst, List.getElem?_append_left (h.length_eq ▸ hfirst),
      hfits.answer_eq]
  · rw [List.take_append_of_le_length hi, hfits.size_eq]

variable (hturn : Answered seen.memo memo call.dir turn)
include hturn

theorem find?_concat (dir : FilePath) :
    memo.find? dir = (seen.turns ++ [turn])[firstFor (calls ++ [call]) dir]?.map Turn.answer := by
  rw [hturn.find?_eq, firstFor_concat]
  by_cases hfirst : firstFor calls dir < calls.length
  · -- the first call for the directory is an earlier one, and its turn is where it was
    obtain ⟨info, hinfo⟩ := Option.isSome_iff_exists.1 ((h.isSome_find?_iff dir).2 hfirst)
    rw [if_pos hfirst, List.getElem?_append_left (h.length_eq ▸ hfirst), ← h.find?_eq, hinfo,
      Option.some_or]
  · have hnone : seen.memo.find? dir = none := by
      rwa [← h.isSome_find?_iff, Option.not_isSome_iff_eq_none] at hfirst
    -- no earlier call was for the directory, so what is known comes from the last turn
    rw [if_neg hfirst, hnone, Option.none_or, ← h.length_eq]
    by_cases hsame : call.dir.same dir = true
    · rw [if_pos hsame, if_pos hsame, List.getElem?_concat_length, Option.map_some]
    · rw [if_neg hsame, if_neg hsame, List.getElem?_eq_none (by simp), Option.map_none]

theorem size_concat : memo.size = (directories (calls ++ [call])).card := by
  have hknown := (h.isSome_find?_iff call.dir).trans (mem_directories calls call.dir).symm
  rw [hturn.size_eq, hturn.runs_eq, h.size_eq, directories_concat]
  by_cases hmem : call.dir.parts ∈ directories calls
  · rw [if_pos (hknown.2 hmem), Finset.insert_eq_of_mem hmem, List.length_nil, Nat.add_zero]
  · rw [if_neg (mt hknown.1 hmem), Finset.card_insert_of_notMem hmem, List.length_singleton]

/-- The last turn tells what it should. -/
theorem fits_last :
    Fits (seen.turns ++ [turn]) (calls ++ [call]) calls.length call turn where
  runs_eq := by
    have hfirst : firstFor (calls ++ [call]) call.dir = calls.length ↔
        ¬ firstFor calls call.dir < calls.length := by
      rw [firstFor_concat]
      split
      next hlt => exact iff_of_false hlt.ne (not_not_intro hlt)
      next hle => rw [if_pos (FilePath.same_refl call.dir)]; exact iff_of_true rfl hle
    rw [hturn.runs_eq, if_congr hfirst rfl rfl, ite_not,
      if_congr (h.isSome_find?_iff call.dir) rfl rfl]
  answer_eq := by rw [← h.find?_concat hturn, hturn.answer_eq]
  size_eq := by
    rw [hturn.turn_size, h.size_concat hturn, List.take_of_length_le (by simp)]

/-- One call more keeps the transcript faithful. -/
theorem concat : Faithful ⟨seen.turns ++ [turn], memo⟩ (calls ++ [call]) where
  length_eq := by rw [List.length_append, List.length_append, h.length_eq]; rfl
  find?_eq := h.find?_concat hturn
  size_eq := h.size_concat hturn
  fits i call' turn' hcall' hturn' := by
    obtain hi | rfl | hi := Nat.lt_trichotomy i calls.length
    · rw [List.getElem?_append_left hi] at hcall'
      rw [List.getElem?_append_left (h.length_eq ▸ hi)] at hturn'
      exact h.fits_concat call (h.fits i call' turn' hcall' hturn') hcall'
    · rw [List.getElem?_concat_length] at hcall'
      rw [← h.length_eq, List.getElem?_concat_length] at hturn'
      obtain rfl := Option.some.inj hcall'
      obtain rfl := Option.some.inj hturn'
      exact h.fits_last hturn
    · rw [List.getElem?_eq_none (by rw [List.length_append]; exact hi)] at hcall'
      cases hcall'

end Faithful

end Calls

/-- Whatever the calls and the world that the probers run in, the transcript is faithful. -/
theorem faithful_transcript (calls : List (Inquiry (StateM σ))) (world : σ) :
    Faithful ((transcript calls).run world).1 calls := by
  -- from the end, as a call meets the memo that all calls before it have left
  induction calls using List.reverseRecOn with
  | nil => exact .nil
  | append_singleton calls call ih =>
    obtain ⟨turn, memo, world', hrun, hturn⟩ :=
      run_next ((transcript calls).run world).1 call ((transcript calls).run world).2
    have hconcat : (transcript (calls ++ [call])).run world =
        (((transcript calls).run world).1.next call).run ((transcript calls).run world).2 := by
      rw [transcript, List.foldlM_append]
      rfl
    rw [hconcat, hrun]
    exact ih.concat hturn

/-- Each directory is asked about once, and its answer stays. The prober of a call is run exactly if
the call is the first for its directory, on that directory. Every call is answered as the first for
its directory was, also if there was nothing. The memo knows as many directories as there are
different ones among the calls so far. -/
theorem directories_are_asked_once (calls : List (Inquiry (StateM σ))) (world : σ) :
    let seen := ((transcript calls).run world).1
    seen.turns.length = calls.length ∧ seen.memo.size = (directories calls).card ∧
    ∀ i call turn, calls[i]? = some call → seen.turns[i]? = some turn →
      turn.runs = (if firstFor calls call.dir = i then [(call.dir, turn.answer)] else []) ∧
      seen.turns[firstFor calls call.dir]?.map Turn.answer = some turn.answer ∧
      turn.size = (directories (calls.take (i + 1))).card := by
  have h := faithful_transcript calls world
  refine ⟨h.length_eq, h.size_eq, fun i call turn hcall hturn => ?_⟩
  have hfits := h.fits i call turn hcall hturn
  exact ⟨hfits.runs_eq, hfits.answer_eq, hfits.size_eq⟩

/-- A call whose prober counts its runs, and finds nothing in the first one only. -/
def counting (dir : String) : Inquiry (StateM Nat) where
  dir := ⟨dir⟩
  probe _ := do
    let count ← getModify (· + 1)
    return if count = 0 then none else some ⟨"main", "v1", []⟩

/-- Three calls, the first and the last for one directory. -/
def nowhereTwice : List (Inquiry (StateM Nat)) :=
  [counting "/nowhere", counting "/repo", counting "//nowhere/."]

/-- That there is nothing is remembered, also under another spelling. -/
theorem absence_is_remembered :
    nowhereTwice[2]? = some (counting "//nowhere/.") ∧
    ((transcript nowhereTwice).run 0).1.turns[2]? = some ⟨none, [], 2⟩ ∧
    ((transcript nowhereTwice).run 0).1.turns[firstFor nowhereTwice ⟨"//nowhere/."⟩]?.map
      Turn.answer = some none ∧
    (directories (nowhereTwice.take 3)).card = 2 := by
  have hturn : ((transcript nowhereTwice).run 0).1.turns[2]? = some ⟨none, [], 2⟩ := by
    decide +kernel
  obtain ⟨-, hanswer, hsize⟩ :=
    (directories_are_asked_once nowhereTwice 0).2.2 2 (counting "//nowhere/.") _ rfl hturn
  exact ⟨rfl, hturn, hanswer, hsize.symm⟩

end GitMemo

end LayeredConfig
