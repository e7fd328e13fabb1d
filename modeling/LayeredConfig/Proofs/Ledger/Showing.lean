import LayeredConfig.Ledger.Display
import LayeredConfig.Proofs.Ledger.Histories
import Mathlib.Data.List.Perm.Subperm

/-!
# What outlines of ledgers show

An outline goes from a record to the pointers to it, against the chain of origins. A record has one
origin at most and paths are different, so there is one way at most from the top to a record
(`Way.unique`), and no record is on its own way. A way is then no longer than the ledger, and no
branch that starts at the top meets the limit on its levels (`full_branchOf`), whatever cycles the
pointers form elsewhere. Every record whose chain of origins ends at the top has a way, and is in
the outline once (`outline_shows_ledger`).
-/

namespace LayeredConfig

namespace Ledger

/-! ## Branches -/

/-- A record in an outline, with the pointers to it that are shown below. -/
inductive Branch where
  | node (entry : FilePath × Record) (below : List Branch)

namespace Branch

/-- The record at the top. -/
def entry : Branch → FilePath × Record
  | .node e _ => e

mutual

/-- The labels of a branch. -/
def outline : Branch → Outline
  | .node e below => .node (e.2.label e.1) (outlines below)

/-- The labels of some branches. -/
def outlines : List Branch → List Outline
  | [] => []
  | b :: rest => b.outline :: outlines rest

end

mutual

/-- The records of a branch, each with the one that it is directly below. -/
def placed (above : Option (FilePath × Record)) :
    Branch → List (Option (FilePath × Record) × (FilePath × Record))
  | .node e below => (above, e) :: placedAll (some e) below

/-- The records of some branches that are below the same record. -/
def placedAll (above : Option (FilePath × Record)) :
    List Branch → List (Option (FilePath × Record) × (FilePath × Record))
  | [] => []
  | b :: rest => b.placed above ++ placedAll above rest

end

/-- All pointers to a record of the branch are below it. -/
inductive Full (l : Ledger) : Branch → Prop
  | node {e : FilePath × Record} {below : List Branch}
      (hbelow : below.map entry = l.pointersTo e.1) (h : ∀ b ∈ below, Full l b) :
      Full l (.node e below)

theorem outlines_eq (bs : List Branch) : outlines bs = bs.map outline := by
  induction bs with
  | nil => rfl
  | cons b rest ih => rw [outlines, ih, List.map_cons]

theorem placedAll_eq (above : Option (FilePath × Record)) (bs : List Branch) :
    placedAll above bs = bs.flatMap (placed above) := by
  induction bs with
  | nil => rfl
  | cons b rest ih => rw [placedAll, ih, List.flatMap_cons]

theorem placed_node (above : Option (FilePath × Record)) (e : FilePath × Record)
    (below : List Branch) :
    (node e below).placed above = (above, e) :: below.flatMap (placed (some e)) := by
  rw [placed, placedAll_eq]

theorem outline_node (e : FilePath × Record) (below : List Branch) :
    (node e below).outline = .node (e.2.label e.1) (below.map outline) := by
  rw [outline, outlines_eq]

end Branch

variable {l : Ledger} {e a : FilePath × Record} {b : Branch}

/-- The branches are all of the ledger from the top, however far down it goes. -/
def Shows (l : Ledger) (branches : List Branch) : Prop :=
  branches.map Branch.entry = l.roots ∧ ∀ b ∈ branches, b.Full l

/-- There is one full branch of a record only. -/
theorem Branch.Full.unique (h : b.Full l) {b' : Branch} (h' : b'.Full l)
    (hentry : b'.entry = b.entry) : b' = b := by
  induction h generalizing b' with
  | @node e below hbelow _ ih =>
    obtain @⟨e', below', hbelow', hfull'⟩ := h'
    obtain rfl : e' = e := hentry
    have hall : List.Forall₂ (fun b' b => b' = b) below' below := by
      have hentries : List.Forall₂ (fun b' b => b'.entry = b.entry) below' below := by
        rw [← List.forall₂_map_right_iff, ← List.forall₂_map_left_iff, List.forall₂_eq_eq_eq,
          hbelow', hbelow]
      rw [List.forall₂_iff_get] at hentries ⊢
      refine ⟨hentries.1, fun i hi hi' => ?_⟩
      exact ih _ (List.get_mem _ _) (hfull' _ (List.get_mem _ _)) (hentries.2 i hi hi')
    rw [List.forall₂_eq_eq_eq] at hall
    rw [hall]

theorem Shows.unique {branches branches' : List Branch} (h : l.Shows branches)
    (h' : l.Shows branches') : branches' = branches := by
  refine List.ext_getElem ?_ fun i hi hi' => ?_
  · have hlength := congrArg List.length (h'.1.trans h.1.symm)
    rwa [List.length_map, List.length_map] at hlength
  · refine (h.2 _ (List.getElem_mem hi')).unique (h'.2 _ (List.getElem_mem hi)) ?_
    have hentries := h'.1.trans h.1.symm
    have hget := List.getElem_of_eq hentries (by rwa [List.length_map])
    rwa [List.getElem_map, List.getElem_map] at hget

/-! ## Ways -/

theorem mem_pointersTo {path : FilePath} : e ∈ l.pointersTo path ↔
    e ∈ l.records ∧ e.1.same path = false ∧
      ∃ origin, e.2.origin = some origin ∧ origin.same path = true := by
  rw [pointersTo, List.mem_filter, Bool.and_eq_true, Bool.not_eq_true', Option.any_eq_true]

theorem mem_roots : e ∈ l.roots ↔ e ∈ l.records ∧ e.2.origin = none := by
  rw [roots, List.mem_filter, Option.isNone_iff_eq_none]

instance {α : Type} (es : List (FilePath × α)) : Decidable (Distinct es) :=
  inferInstanceAs (Decidable (List.Pairwise _ _))

/-- A record is its path's only one. -/
theorem Distinct.eq_of_same {α : Type} {es : List (FilePath × α)} (h : Distinct es)
    {e e' : FilePath × α} (he : e ∈ es) (he' : e' ∈ es) (hsame : e.1.same e'.1 = true) :
    e = e' := by
  rw [Distinct, List.pairwise_map] at h
  by_contra hne
  have : Std.Symm fun a b : FilePath × α => a.1.same b.1 = false :=
    ⟨fun a b hab => (FilePath.same_comm b.1 a.1).trans hab⟩
  exact Bool.false_ne_true ((h.forall he he' hne).symm.trans hsame)

theorem Distinct.nodup {α : Type} {es : List (FilePath × α)} (h : Distinct es) : es.Nodup := by
  rw [Distinct, List.pairwise_map] at h
  refine h.imp fun hapart heq => ?_
  rw [heq, FilePath.same_refl] at hapart
  cases hapart

/-- The records above a record, the nearest first, up to one that is no pointer. -/
inductive Way (l : Ledger) : FilePath × Record → List (FilePath × Record) → Prop
  | root {e : FilePath × Record} (h : e ∈ l.roots) : Way l e []
  | step {e a : FilePath × Record} {above : List (FilePath × Record)} (h : Way l a above)
      (he : e ∈ l.pointersTo a.1) : Way l e (a :: above)

namespace Way

variable {w : List (FilePath × Record)}

theorem mem (h : Way l e w) : e ∈ l.records := by
  cases h with
  | root h => exact (mem_roots.1 h).1
  | step _ he => exact (mem_pointersTo.1 he).1

theorem subset (h : Way l e w) : w ⊆ l.records := by
  induction h with
  | root _ => exact List.nil_subset _
  | step h _ ih => exact List.cons_subset.2 ⟨h.mem, ih⟩

/-- Every record on a way has the rest of it as its own. -/
theorem of_append {u v : List (FilePath × Record)} (h : Way l e w) (hw : w = u ++ a :: v) :
    Way l a v := by
  induction h generalizing u with
  | root _ => exact absurd hw (by simp)
  | @step _ c above h _ ih =>
    cases u with
    | nil =>
      obtain ⟨rfl, rfl⟩ := List.cons.inj hw
      exact h
    | cons b u => exact ih (List.cons.inj hw).2

/-- What is directly above a record is the one that its origin names. -/
theorem unique (hd : Distinct l.records) {w' : List (FilePath × Record)} (h : Way l e w)
    (h' : Way l e w') : w' = w := by
  induction h generalizing w' with
  | root h =>
    cases h' with
    | root _ => rfl
    | step _ he =>
      obtain ⟨-, -, origin, horigin, -⟩ := mem_pointersTo.1 he
      rw [(mem_roots.1 h).2] at horigin
      cases horigin
  | @step e a above h he ih =>
    obtain ⟨-, -, origin, horigin, hsame⟩ := mem_pointersTo.1 he
    cases h' with
    | root h' =>
      rw [(mem_roots.1 h').2] at horigin
      cases horigin
    | @step _ a' above' h' he' =>
      obtain ⟨-, -, origin', horigin', hsame'⟩ := mem_pointersTo.1 he'
      obtain rfl : origin = origin' := Option.some.inj (horigin.symm.trans horigin')
      obtain rfl : a = a' :=
        hd.eq_of_same h.mem h'.mem (FilePath.same_trans (FilePath.same_comm _ _ ▸ hsame) hsame')
      rw [ih h']

/-- No record is on its own way: it would have two, one of them longer. -/
theorem notMem (hd : Distinct l.records) (h : Way l e w) : e ∉ w := by
  intro hmem
  obtain ⟨u, v, rfl⟩ := List.append_of_mem hmem
  have hlength := congrArg List.length (h.unique hd (h.of_append rfl))
  rw [List.length_append, List.length_cons] at hlength
  omega

theorem nodup (hd : Distinct l.records) (h : Way l e w) : (e :: w).Nodup := by
  induction h with
  | root h => exact List.nodup_singleton _
  | step h he ih => exact List.nodup_cons.2 ⟨(h.step he).notMem hd, ih⟩

theorem length_lt (hd : Distinct l.records) (h : Way l e w) : w.length < l.records.length :=
  (List.Nodup.subperm (h.nodup hd) (List.cons_subset.2 ⟨h.mem, h.subset⟩)).length_le

end Way

/-! ## Levels -/

/-- The branch of a record, with so many levels of pointers below it. -/
def branchOf (l : Ledger) : (levels : Nat) → FilePath × Record → Branch
  | 0, e => .node e []
  | levels + 1, e => .node e ((l.pointersTo e.1).map (l.branchOf levels))

@[simp] theorem entry_branchOf (levels : Nat) (e : FilePath × Record) :
    (l.branchOf levels e).entry = e := by
  cases levels with
  | zero => rfl
  | succ levels => rfl

theorem map_entry_branchOf (levels : Nat) (es : List (FilePath × Record)) :
    (es.map (l.branchOf levels)).map Branch.entry = es := by
  rw [List.map_map]
  exact List.map_id'' (entry_branchOf levels) es

theorem outlineOf_eq (levels : Nat) (e : FilePath × Record) :
    l.outlineOf levels e = (l.branchOf levels e).outline := by
  induction levels generalizing e with
  | zero => rfl
  | succ levels ih =>
    rw [outlineOf, branchOf, Branch.outline_node, List.map_map]
    exact congrArg _ (List.map_congr_left fun c _ => ih c)

/-- The levels do not cut a branch off if they go on for longer than ways can. -/
theorem full_branchOf (hd : Distinct l.records) {w : List (FilePath × Record)} (h : Way l e w)
    {levels : Nat} (hlevels : l.records.length ≤ w.length + 1 + levels) :
    (l.branchOf levels e).Full l := by
  induction levels generalizing e w with
  | zero =>
    refine .node ?_ (List.forall_mem_nil _)
    refine (List.eq_nil_iff_forall_not_mem.2 fun c hc => ?_).symm
    have hlength := (h.step hc).length_lt hd
    rw [List.length_cons] at hlength
    omega
  | succ levels ih =>
    refine .node (map_entry_branchOf levels _) (List.forall_mem_map.2 fun c hc => ?_)
    refine ih (h.step hc) ?_
    rw [List.length_cons]
    omega

theorem shows_branchOf (hd : Distinct l.records) {levels : Nat}
    (hlevels : l.records.length ≤ levels + 1) : l.Shows (l.roots.map (l.branchOf levels)) :=
  ⟨map_entry_branchOf levels _,
    List.forall_mem_map.2 fun e he => full_branchOf hd (.root he) (by rw [List.length_nil]; omega)⟩

/-! ## Places -/

variable {above p : Option (FilePath × Record)} {w : List (FilePath × Record)}

/-- What is placed in a branch goes on from the way of its record. -/
theorem Branch.Full.way_of_placed (h : b.Full l) (hw : Way l b.entry w)
    (hmem : (p, e) ∈ b.placed w.head?) :
    ∃ u, Way l e u ∧ u.head? = p ∧ b.entry :: w <:+ e :: u := by
  induction h generalizing w with
  | @node a below hbelow hfull ih =>
    rw [placed_node, List.mem_cons] at hmem
    rcases hmem with heq | hmem
    · obtain ⟨rfl, rfl⟩ := Prod.mk.inj heq
      exact ⟨w, hw, rfl, List.suffix_rfl⟩
    · obtain ⟨c, hc, hmem⟩ := List.mem_flatMap.1 hmem
      have hpointer : c.entry ∈ l.pointersTo a.1 := hbelow ▸ List.mem_map_of_mem hc
      obtain ⟨u, hu, hhead, hsuffix⟩ := ih c hc (hw.step hpointer) hmem
      exact ⟨u, hu, hhead, (List.suffix_cons c.entry (a :: w)).trans hsuffix⟩

/-- What is below a record of a full branch is placed there. -/
theorem Branch.Full.placed_step (h : b.Full l) (ha : (p, a) ∈ b.placed above)
    (he : e ∈ l.pointersTo a.1) : (some a, e) ∈ b.placed above := by
  induction h generalizing above with
  | @node c below hbelow hfull ih =>
    rw [placed_node, List.mem_cons] at ha ⊢
    rcases ha with heq | hmem
    · obtain ⟨rfl, rfl⟩ := Prod.mk.inj heq
      rw [← hbelow] at he
      obtain ⟨d, hd, rfl⟩ := List.mem_map.1 he
      refine .inr (List.mem_flatMap.2 ⟨d, hd, ?_⟩)
      cases d with
      | node d below => rw [placed_node]; exact List.mem_cons_self
    · obtain ⟨d, hd, hmem⟩ := List.mem_flatMap.1 hmem
      exact .inr (List.mem_flatMap.2 ⟨d, hd, ih d hd hmem⟩)

/-- Records below different records have different ways. -/
theorem eq_of_suffix {x y z : FilePath × Record} {u : List (FilePath × Record)}
    (hx : x :: w <:+ z :: u) (hy : y :: w <:+ z :: u) : x = y := by
  have hsuffix : x :: w <:+ y :: w :=
    List.suffix_of_suffix_length_le hx hy (by rw [List.length_cons, List.length_cons])
  exact (List.cons.inj (hsuffix.eq_of_length (by rw [List.length_cons, List.length_cons]))).1

/-- Branches of different records with the same way share nothing. -/
theorem nodup_flatMap_placed (hd : Distinct l.records) {bs : List Branch}
    (hfull : ∀ b ∈ bs, b.Full l) (hway : ∀ b ∈ bs, Way l b.entry w)
    (hentries : (bs.map Branch.entry).Nodup)
    (hnodup : ∀ b ∈ bs, (b.placed w.head?).Nodup) : (bs.flatMap (Branch.placed w.head?)).Nodup := by
  refine List.nodup_flatMap.2 ⟨hnodup, ?_⟩
  rw [List.Nodup, List.pairwise_map] at hentries
  refine hentries.imp_of_mem fun {b c} hb hc hne => List.disjoint_left.2 ?_
  rintro ⟨p, e⟩ hmem hmem'
  obtain ⟨u, hu, -, hsuffix⟩ := (hfull b hb).way_of_placed (hway b hb) hmem
  obtain ⟨u', hu', -, hsuffix'⟩ := (hfull c hc).way_of_placed (hway c hc) hmem'
  obtain rfl := hu.unique hd hu'
  exact hne (eq_of_suffix hsuffix hsuffix')

theorem nodup_pointersTo (hd : Distinct l.records) (path : FilePath) :
    (l.pointersTo path).Nodup := hd.nodup.filter _

/-- A branch shows no record twice. -/
theorem Branch.Full.nodup_placed (hd : Distinct l.records) (h : b.Full l) (hw : Way l b.entry w) :
    (b.placed w.head?).Nodup := by
  induction h generalizing w with
  | @node a below hbelow hfull ih =>
    have hway : ∀ c ∈ below, Way l c.entry (a :: w) := fun c hc =>
      hw.step (hbelow ▸ List.mem_map_of_mem hc)
    rw [placed_node]
    refine List.nodup_cons.2 ⟨fun hmem => ?_, ?_⟩
    · obtain ⟨c, hc, hmem⟩ := List.mem_flatMap.1 hmem
      obtain ⟨u, hu, -, hsuffix⟩ := (hfull c hc).way_of_placed (hway c hc) hmem
      obtain rfl := hw.unique hd hu
      have hlength := hsuffix.length_le
      simp only [List.length_cons] at hlength
      omega
    · exact nodup_flatMap_placed (w := a :: w) hd hfull hway
        (hbelow ▸ nodup_pointersTo hd a.1) fun c hc => ih c hc (hway c hc)

/-! ## The whole ledger -/

/-- The record that the origin of a record names. -/
def above? (l : Ledger) (e : FilePath × Record) : Option (FilePath × Record) :=
  e.2.origin.bind fun origin => l.records.find? fun a => a.1.same origin

/-- The chain of origins of a record leads to a record that is no pointer. -/
inductive Grounded (l : Ledger) : FilePath × Record → Prop
  | root {e : FilePath × Record} (h : e.2.origin = none) : Grounded l e
  | step {e a : FilePath × Record} (ha : l.above? e = some a) (h : Grounded l a) : Grounded l e

/-- The record that is found under a path is the only one of it. -/
theorem Distinct.find?_eq_some_iff {α : Type} {es : List (FilePath × α)} (h : Distinct es)
    {path : FilePath} {e : FilePath × α} :
    (es.find? fun e => e.1.same path) = some e ↔ e ∈ es ∧ e.1.same path = true := by
  constructor
  · intro hfind
    exact ⟨List.mem_of_find?_eq_some hfind, by simpa using List.find?_some hfind⟩
  · rintro ⟨he, hsame⟩
    have hfound : (es.find? fun e => e.1.same path).isSome := List.find?_isSome.2 ⟨e, he, hsame⟩
    obtain ⟨e', hfind⟩ := Option.isSome_iff_exists.1 hfound
    have hsame' : e'.1.same path = true := by simpa using List.find?_some hfind
    rw [hfind, h.eq_of_same (List.mem_of_find?_eq_some hfind) he
      (FilePath.same_trans hsame' (FilePath.same_comm e.1 path ▸ hsame))]

theorem above?_eq_some (hd : Distinct l.records) : l.above? e = some a ↔
    a ∈ l.records ∧ ∃ origin, e.2.origin = some origin ∧ origin.same a.1 = true := by
  simp only [above?, Option.bind_eq_some_iff, hd.find?_eq_some_iff, FilePath.same_comm a.1]
  exact ⟨fun ⟨origin, horigin, ha, hsame⟩ => ⟨ha, origin, horigin, hsame⟩,
    fun ⟨ha, origin, horigin, hsame⟩ => ⟨origin, horigin, ha, hsame⟩⟩

theorem Way.head?_eq (hd : Distinct l.records) (h : Way l e w) : w.head? = l.above? e := by
  cases h with
  | root h => rw [above?, (mem_roots.1 h).2]; rfl
  | step h he =>
    obtain ⟨-, -, horigin⟩ := mem_pointersTo.1 he
    exact ((above?_eq_some hd).2 ⟨h.mem, horigin⟩).symm

/-- A record whose chain of origins ends is no pointer to itself, so it is below its origin. -/
theorem Grounded.way (hd : Distinct l.records) (h : l.Grounded e) (he : e ∈ l.records) :
    ∃ w, Way l e w := by
  induction h with
  | root h => exact ⟨[], .root (mem_roots.2 ⟨he, h⟩)⟩
  | @step e a habove _ ih =>
    obtain ⟨ha, origin, horigin, hsame⟩ := (above?_eq_some hd).1 habove
    obtain ⟨w, hw⟩ := ih ha
    refine ⟨a :: w, hw.step (mem_pointersTo.2 ⟨he, ?_, origin, horigin, hsame⟩)⟩
    by_contra hown
    obtain rfl := hd.eq_of_same he ha (Bool.not_eq_false _ ▸ hown)
    -- The way of the record would start with the record.
    rw [← hw.head?_eq hd] at habove
    exact hw.notMem hd (List.mem_of_mem_head? habove)

/-- A record with a way is placed directly below the first record on it. -/
theorem Way.placed {branches : List Branch} (h : l.Shows branches) (hw : Way l e w) :
    (w.head?, e) ∈ branches.flatMap (Branch.placed none) := by
  induction hw with
  | root hroot =>
    rw [← h.1] at hroot
    obtain ⟨b, hb, rfl⟩ := List.mem_map.1 hroot
    refine List.mem_flatMap.2 ⟨b, hb, ?_⟩
    cases b with
    | node e below => rw [Branch.placed_node]; exact List.mem_cons_self
  | step _ he ih =>
    obtain ⟨b, hb, hmem⟩ := List.mem_flatMap.1 ih
    exact List.mem_flatMap.2 ⟨b, hb, (h.2 b hb).placed_step hmem he⟩

/-- Where there are no cycles, each record is placed once, directly below its origin. -/
theorem Shows.perm (hd : Distinct l.records) {branches : List Branch} (h : l.Shows branches)
    (hgrounded : ∀ e ∈ l.records, l.Grounded e) :
    (branches.flatMap (Branch.placed none)).Perm (l.records.map fun e => (l.above? e, e)) := by
  have hway : ∀ b ∈ branches, Way l b.entry [] := fun b hb =>
    .root (h.1 ▸ List.mem_map_of_mem hb)
  refine (List.perm_ext_iff_of_nodup ?_ ?_).2 ?_
  · exact nodup_flatMap_placed (w := []) hd h.2 hway (h.1 ▸ hd.nodup.filter _)
      fun b hb => (h.2 b hb).nodup_placed hd (hway b hb)
  · exact hd.nodup.map fun _ _ heq => (Prod.mk.inj heq).2
  · rintro ⟨p, e⟩
    constructor
    · intro hmem
      obtain ⟨b, hb, hmem⟩ := List.mem_flatMap.1 hmem
      obtain ⟨u, hu, rfl, -⟩ := (h.2 b hb).way_of_placed (hway b hb) hmem
      exact List.mem_map.2 ⟨e, hu.mem, by rw [hu.head?_eq hd]⟩
    · intro hmem
      obtain ⟨e', he, heq⟩ := List.mem_map.1 hmem
      obtain ⟨rfl, rfl⟩ := Prod.mk.inj heq
      obtain ⟨w, hw⟩ := (hgrounded e' he).way hd he
      rw [← hw.head?_eq hd]
      exact hw.placed h

/-- The files that were not found, each under their heading. -/
def missedLabels (l : Ledger) : List Outline := l.missed.map fun e => .leaf e.2.label

theorem missedOutline_true (l : Ledger) : l.missedOutline true =
    if l.missed.isEmpty then [] else [.node missedHeading l.missedLabels] := by
  rw [missedOutline]
  split
  next h => rw [h]; rfl
  next hne =>
    rw [if_neg (fun hempty => hne (List.isEmpty_iff.1 hempty))]
    rfl

/-- **Outlines.** From the top of a ledger, whatever its pointers, the records go on for finitely
many levels. An outline without a depth, or with one over the number of records, shows all of them,
and the files that were not found under their heading. If the origins of every record lead to one
that is no pointer, the outline shows each record once, directly below its origin. -/
theorem outline_shows_ledger (h : Distinct l.records) :
    ∃ branches, l.Shows branches ∧ (∀ other, l.Shows other → other = branches) ∧
      (∀ title (depth : Option Nat), (∀ d ∈ depth, l.records.length < d) →
        l.outline title depth = .node title (branches.map Branch.outline ++
          if l.missed.isEmpty then [] else [.node missedHeading l.missedLabels])) ∧
      ((∀ e ∈ l.records, l.Grounded e) →
        (branches.flatMap (Branch.placed none)).Perm
          (l.records.map fun e => (l.above? e, e))) := by
  have hshows := shows_branchOf h (Nat.le_succ l.records.length)
  refine ⟨_, hshows, fun _ => hshows.unique, fun title depth hdepth => ?_, hshows.perm h⟩
  obtain ⟨levels, hlevels, hle⟩ : ∃ levels,
      depth.getD (l.records.length + 1) = levels + 1 ∧ l.records.length ≤ levels := by
    cases depth with
    | none => exact ⟨_, rfl, Nat.le_refl _⟩
    | some d =>
      have hd := hdepth d rfl
      exact ⟨d - 1, by rw [Option.getD_some]; omega, by omega⟩
  rw [hshows.unique (shows_branchOf h (Nat.le_succ_of_le hle)) |>.symm, outline, hlevels,
    ← missedOutline_true, List.map_map]
  congr 2
  exact List.map_congr_left fun e _ => outlineOf_eq levels e

/-- A file with two pointers to a pointer to it, and an optional file that was not found. -/
def stacked : Ledger where
  records := [(⟨"/d/b"⟩, .pointer ⟨"/d"⟩), (⟨"/d"⟩, .blank), (⟨"/d/b/x"⟩, .pointer ⟨"/d/b"⟩),
    (⟨"/d/b/y"⟩, .pointer ⟨"/d/b"⟩)]
  missed := [(⟨"/e"⟩, ⟨⟨"/e"⟩, ⟨"/d/b/x"⟩, none, none⟩)]

/-- A file, two pointers to each other and a pointer to itself. -/
def tangled : Ledger where
  records := [(⟨"/a"⟩, .blank), (⟨"/b"⟩, .pointer ⟨"/c"⟩), (⟨"/c"⟩, .pointer ⟨"/b"⟩),
    (⟨"/d"⟩, .pointer ⟨"/d"⟩)]
  missed := []

theorem stacked_grounded : ∀ e ∈ stacked.records, stacked.Grounded e := by
  have htop : stacked.Grounded (⟨"/d"⟩, .blank) := .root rfl
  have hbelow : stacked.Grounded (⟨"/d/b"⟩, .pointer ⟨"/d"⟩) := .step (by decide +kernel) htop
  simp only [stacked, List.forall_mem_cons, List.not_mem_nil, false_implies, implies_true, and_true]
  exact ⟨hbelow, htop, .step (by decide +kernel) hbelow, .step (by decide +kernel) hbelow⟩

theorem stacked_and_tangled_are_shown :
    (∃ branches, stacked.Shows branches ∧
      (branches.flatMap (Branch.placed none)).Perm
        (stacked.records.map fun e => (stacked.above? e, e)) ∧
      stacked.outline "t" none = .node "t" (branches.map Branch.outline ++
        [.node missedHeading stacked.missedLabels])) ∧
    (∃ branches, tangled.Shows branches ∧
      tangled.outline "t" (some 5) = .node "t" (branches.map Branch.outline)) ∧
    (stacked.outline "t" none).labels =
      ["t", "/d", "/d/b", "/d/b/x", "/d/b/y", "missing optional includes", "/e (from /d/b/x)"] ∧
    (tangled.outline "t" (some 5)).labels = ["t", "/a"] := by
  have hstacked : Distinct stacked.records := by decide
  have htangled : Distinct tangled.records := by decide
  refine ⟨?_, ?_, ?_, ?_⟩
  · obtain ⟨branches, hshows, -, houtline, hperm⟩ := outline_shows_ledger hstacked
    exact ⟨branches, hshows, hperm stacked_grounded, houtline "t" none (by simp)⟩
  · obtain ⟨branches, hshows, -, houtline, -⟩ := outline_shows_ledger htangled
    refine ⟨branches, hshows, (houtline "t" (some 5) (by decide)).trans ?_⟩
    exact congrArg _ (List.append_nil _)
  · decide +kernel
  · decide +kernel

end Ledger

end LayeredConfig
