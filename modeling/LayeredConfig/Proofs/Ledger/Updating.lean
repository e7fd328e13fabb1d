import LayeredConfig.Ledger.Text
import LayeredConfig.Proofs.Ledger.Histories
import LayeredConfig.Proofs.Yaml

/-!
# Taking up ledgers

A ledger that takes up another has its own entries followed by those of the other that are new to
it, and of each path what the first of the two has of it (`Unites`). So the order in which ledgers
are grouped does not matter, nor that one is taken up again (`update_is_ordered_union`).

No ledger has a path twice, whether it has come about by edits or been read from a text (`Keyed`).
-/

namespace LayeredConfig.Ledger

variable {α : Type}

/-! ## Paths that are there once -/

/-- No path is recorded twice, and none is missed twice. -/
structure Keyed (l : Ledger) : Prop where
  records : Distinct l.records
  missed : Distinct l.missed

theorem Keyed.update {a b : Ledger} (h : a.Keyed) : (a.update b).Keyed where
  records := h.records.notes b.records
  missed := h.missed.notes b.missed

theorem Built.keyed {l : Ledger} (h : Built l) : l.Keyed :=
  ⟨h.sound.distinct, h.sound.missedDistinct⟩

theorem distinct_iff {l : List (FilePath × α)} :
    Distinct l ↔ l.Pairwise fun e f => e.1.same f.1 = false := by
  rw [Distinct, List.pairwise_map]

/-- Putting and noting differ in the value of a path that is there, not in the paths. -/
theorem map_fst_assign (l : List (FilePath × α)) (path : FilePath) (a : α) :
    (assign l path a).map Prod.fst = (note l path a).map Prod.fst := by
  induction l with
  | nil => rfl
  | cons e rest ih =>
    rw [assign, note, List.any_cons]
    cases hsame : e.1.same path with
    | true => rfl
    | false =>
      rw [if_neg Bool.false_ne_true, List.map_cons, ih, note, Bool.false_or]
      split <;> rfl

theorem Distinct.assign {l : List (FilePath × α)} (h : Distinct l) (path : FilePath) (a : α) :
    Distinct (assign l path a) := by
  rw [Distinct, map_fst_assign]
  exact h.note path a

theorem distinct_foldl_assign (es : List (String × α)) {l : List (FilePath × α)}
    (h : Distinct l) : Distinct (es.foldl (fun l (p, a) => Ledger.assign l ⟨p⟩ a) l) := by
  induction es generalizing l with
  | nil => exact h
  | cons e rest ih => exact ih (h.assign ⟨e.1⟩ e.2)

/-- Of a path that stands in a text twice, the second counts. -/
theorem yields_byPath (value : Yaml.Decoder α) (fields : Nat × List (String × Yaml.Node))
    (name : String) :
    Yaml.Yields (Yaml.Decoder.fieldOr fields name [] (byPath value)) Distinct := by
  unfold Yaml.Decoder.fieldOr
  split
  · exact (Yaml.Yields.trivial _).bind fun es _ =>
      Yaml.Yields.pure (distinct_foldl_assign es .nil)
  · exact Yaml.Yields.pure .nil

/-- A ledger that is read has no path twice. -/
theorem keyed_of_ofText {text : String} {l : Ledger} (h : ofText text = .ok l) : l.Keyed := by
  refine Yaml.Yields.decode (Q := Keyed) (fun node => ?_) h
  exact (Yaml.Yields.trivial _).bind fun fields _ =>
    (yields_byPath Record.decoder fields "deps").bind fun _ hrecords =>
      (yields_byPath Missed.decoder fields "failed").bind fun _ hmissed =>
        Yaml.Yields.pure ⟨hrecords, hmissed⟩

/-! ## Uniting -/

/-- The entries of one list and those of another that are new to it. -/
structure Unites (l es united : List (FilePath × α)) : Prop where
  /-- All entries of the first stand before the new ones of the second, each in their order. -/
  order : united = l ++ es.filter fun e => !covers l e.1
  /-- The first that has something of a path decides. -/
  first : ∀ path, lookup united path = (lookup l path).or (lookup es path)

theorem covers_eq_isSome (l : List (FilePath × α)) (path : FilePath) :
    covers l path = (lookup l path).isSome := by
  rw [lookup, Option.isSome_map, List.isSome_find?]
  rfl

theorem lookup_append (l es : List (FilePath × α)) (path : FilePath) :
    lookup (l ++ es) path = (lookup l path).or (lookup es path) := by
  rw [lookup, lookup, lookup, List.find?_append]
  cases l.find? fun e => e.1.same path <;> rfl

theorem lookup_singleton (path : FilePath) (a : α) (p : FilePath) :
    lookup [(path, a)] p = if path.same p then some a else none := by
  rw [lookup, List.find?_singleton]
  split <;> rfl

theorem lookup_note (l : List (FilePath × α)) (path : FilePath) (a : α) (p : FilePath) :
    lookup (note l path a) p = (lookup l p).or (lookup [(path, a)] p) := by
  cases hcovers : covers l path with
  | false => rw [note_of_not_covers hcovers, lookup_append]
  | true =>
    rw [note_of_covers hcovers, lookup_singleton]
    split
    next hsame =>
      rw [covers_congr hsame, covers_eq_isSome] at hcovers
      obtain ⟨b, hb⟩ := Option.isSome_iff_exists.1 hcovers
      rw [hb, Option.some_or]
    · rw [Option.or_none]

/-- What is found of a path after noting entries is what was there before, or else the first of the
entries. -/
theorem lookup_notes (l es : List (FilePath × α)) (path : FilePath) :
    lookup (notes l es) path = (lookup l path).or (lookup es path) := by
  induction es generalizing l with
  | nil => exact Option.or_none.symm
  | cons e rest ih =>
    have hcons : lookup (e :: rest) path = (lookup [e] path).or (lookup rest path) :=
      lookup_append [e] rest path
    rw [notes_cons, ih, lookup_note, hcons, Option.or_assoc]

/-- Nothing is new of the paths that are there. -/
theorem notes_of_covered {l es : List (FilePath × α)} (h : ∀ e ∈ es, covers l e.1 = true) :
    notes l es = l := by
  induction es with
  | nil => rfl
  | cons e rest ih =>
    obtain ⟨hfirst, hrest⟩ := List.forall_mem_cons.1 h
    rw [notes_cons, note_of_covers hfirst, ih hrest]

theorem firsts_of_distinct {es : List (FilePath × α)} (h : Distinct es) : firsts es = es := by
  rw [distinct_iff] at h
  induction es with
  | nil => rfl
  | cons e rest ih =>
    obtain ⟨hfirst, hrest⟩ := List.pairwise_cons.1 h
    have hall : rest.filter (fun f => decide (f.1.same e.1 = false)) = rest :=
      List.filter_eq_self.2 fun f hf => decide_eq_true (FilePath.same_comm f.1 e.1 ▸ hfirst f hf)
    rw [firsts, List.eraseDupsBy_cons, hall]
    exact congrArg _ (ih hrest)

theorem unites_notes (l : List (FilePath × α)) {es : List (FilePath × α)} (h : Distinct es) :
    Unites l es (notes l es) where
  order := by
    have hnew : Distinct (es.filter fun e => !covers l e.1) :=
      distinct_iff.2 ((distinct_iff.1 h).filter _)
    rw [notes_eq, firsts_of_distinct hnew]
  first := lookup_notes l es

/-! ## Ledgers -/

theorem covers_of_mem {l : List (FilePath × α)} {e : FilePath × α} (h : e ∈ l) :
    covers l e.1 = true := covers_iff.2 ⟨e, h, FilePath.same_refl e.1⟩

/-- A ledger that has nothing new is taken up without a trace. -/
theorem update_of_covered {a b : Ledger} (hrecords : ∀ e ∈ b.records, covers a.records e.1 = true)
    (hmissed : ∀ e ∈ b.missed, covers a.missed e.1 = true) : a.update b = a := by
  rw [update_eq, notes_of_covered hrecords, notes_of_covered hmissed]

theorem empty_update {a : Ledger} (h : a.Keyed) : empty.update a = a := by
  rw [update_eq]
  change Ledger.mk (notes [] a.records) (notes [] a.missed) = a
  rw [notes_empty, notes_empty, firsts_of_distinct h.records, firsts_of_distinct h.missed]

theorem update_self (a : Ledger) : a.update a = a :=
  update_of_covered (fun _ => covers_of_mem) fun _ => covers_of_mem

theorem update_again (a b : Ledger) : (a.update b).update b = a.update b := by
  rw [← update_update, update_self]

/-- Ledgers may be taken up one by one, or some of them together first. -/
theorem foldl_update_append {a : Ledger} (xs ys : List Ledger) :
    (xs ++ ys).foldl update a = (xs.foldl update a).update (ys.foldl update empty) := by
  rw [List.foldl_append]
  -- The last of the later ledgers is taken up last on both sides.
  induction ys using List.reverseRecOn with
  | nil => rfl
  | append_singleton ys y ih =>
    rw [List.foldl_append, List.foldl_append, List.foldl_cons, List.foldl_nil, List.foldl_cons,
      List.foldl_nil, ih, update_update]

/-- The first of several ledgers that has something of a path decides. -/
theorem lookup_foldl_update (part : Ledger → List (FilePath × α))
    (hpart : ∀ a b, part (a.update b) = notes (part a) (part b)) (ls : List Ledger) (a : Ledger)
    (path : FilePath) : lookup (part (ls.foldl update a)) path =
      (a :: ls).findSome? fun l => lookup (part l) path := by
  induction ls generalizing a with
  | nil =>
    rw [List.foldl_nil, List.findSome?_cons, List.findSome?_nil]
    cases lookup (part a) path <;> rfl
  | cons b rest ih =>
    rw [List.foldl_cons, ih, List.findSome?_cons, hpart, lookup_notes, List.findSome?_cons,
      List.findSome?_cons]
    cases lookup (part a) path <;> rfl

/-- **Taking up ledgers is an ordered union in which the first writer wins.** It is associative, the
empty ledger is neutral, and what has been taken up is not taken up again. With several ledgers it
makes no difference which of them are joined first, and each path is as in the first that has it. -/
theorem update_is_ordered_union {a b : Ledger} (ha : a.Keyed) (hb : b.Keyed) (c : Ledger) :
    (Unites a.records b.records (a.update b).records ∧
      Unites a.missed b.missed (a.update b).missed ∧ (a.update b).Keyed) ∧
    (a.update b).update c = a.update (b.update c) ∧
    (empty.update a = a ∧ a.update empty = a) ∧
    (a.update a = a ∧ (a.update b).update b = a.update b) ∧
    ∀ ls : List Ledger,
      (∀ more, (ls ++ more).foldl update a = (ls.foldl update a).update (more.foldl update empty)) ∧
      ∀ path,
        lookup (ls.foldl update a).records path =
          ((a :: ls).findSome? fun l => lookup l.records path) ∧
        lookup (ls.foldl update a).missed path =
          ((a :: ls).findSome? fun l => lookup l.missed path) :=
  ⟨⟨unites_notes a.records hb.records, unites_notes a.missed hb.missed, ha.update⟩,
    (update_update a b c).symm, ⟨empty_update ha, rfl⟩, ⟨update_self a, update_again a b⟩,
    fun ls => ⟨foldl_update_append ls, fun path =>
      ⟨lookup_foldl_update records (fun _ _ => rfl) ls a path,
        lookup_foldl_update missed (fun _ _ => rfl) ls a path⟩⟩⟩

/-- The text of a ledger that spells the path of a recorded file in another way. -/
def respelled : String :=
  "deps:\n  /d//a.yml:\n    origin: /d\n  /e.yml:\n    missing: true\n" ++
    "failed:\n  /c.yml:\n    path: /c.yml\n    origin: /z.yml\n"

/-- A ledger that was built takes up one that was read, and of the paths of both keeps what it
has. -/
theorem built_takes_up_read : ∃ read, ofText respelled = .ok read ∧ small.Keyed ∧ read.Keyed ∧
    Unites small.records read.records (small.update read).records ∧
    (small.update read).update small = small.update (read.update small) ∧
    ((small.update read).records.map fun e => (e.1.text, e.2.kind)) =
      [("/d/a.yml", .full), ("/b.yml", .sentinel), ("/e.yml", .sentinel)] ∧
    ((small.update read).missed.map fun e => (e.1.text, e.2.origin.text)) =
      [("/c.yml", "/d/a.yml")] := by
  have hread : (ofText respelled).toOption.any (fun read =>
      ((small.update read).records.map fun e => (e.1.text, e.2.kind)) =
          [("/d/a.yml", .full), ("/b.yml", .sentinel), ("/e.yml", .sentinel)] ∧
        ((small.update read).missed.map fun e => (e.1.text, e.2.origin.text)) =
          [("/c.yml", "/d/a.yml")]) = true := by
    decide +kernel
  cases htext : ofText respelled with
  | error fault =>
    rw [htext] at hread
    cases hread
  | ok read =>
    rw [htext] at hread
    obtain ⟨⟨hunion, -, -⟩, hassoc, -⟩ :=
      update_is_ordered_union small_built.keyed (keyed_of_ofText htext) small
    exact ⟨read, rfl, small_built.keyed, keyed_of_ofText htext, hunion, hassoc,
      of_decide_eq_true hread⟩

end LayeredConfig.Ledger
