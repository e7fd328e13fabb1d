import LayeredConfig.Proofs.Directives
import LayeredConfig.Proofs.Resolution
import LayeredConfig.Proofs.Yaml

/-!
# How deep directives are

`Within pulled depth t` says that `t` has no directive further down than `depth` levels, and below
any mapping with an `_include` there are `pulled` levels left, for what the files have that it
pulls in. Merging two such trees gives such a tree, which would not be so if only the mappings with
directives were counted: the levels of one tree could come between those of the other.

A document is read only if it is not too deep, and a tree is not deeper than it has nodes.
-/

namespace LayeredConfig

open Directive

namespace Tree

/-- All directives are at most `depth` levels down, and `_include` has `pulled` levels below it. -/
def Within (pulled : Nat) : (depth : Nat) → Tree → Prop
  | 0, t => t.Lacks all
  | depth + 1, .map es =>
    ∀ e ∈ es, (e.1 = .str includeKey → pulled ≤ depth) ∧ Within pulled depth e.2
  | depth + 1, .seq items => ∀ t ∈ items, Within pulled depth t
  | _ + 1, _ => True

variable {pulled depth : Nat}

/-- There is nothing to be found in a tree without directives. -/
theorem within_of_lacks {t : Tree} (h : t.Lacks all) : Within pulled depth t := by
  induction depth generalizing t with
  | zero => exact h
  | succ depth ih =>
    cases t with
    | map es =>
      obtain ⟨hkeys, hvalues⟩ := Entries.lacks_map.1 h
      refine fun e he => ⟨fun hkey => ?_, ih (hvalues e he)⟩
      exact absurd hkey (hkeys e he includeKey (by simp [all]))
    | seq items => exact fun t ht => ih (everywhere_seq.1 h t ht)
    | _ => trivial

theorem Within.succ {t : Tree} (h : Within pulled depth t) : Within pulled (depth + 1) t := by
  induction depth generalizing t with
  | zero => exact within_of_lacks h
  | succ depth ih =>
    cases t with
    | map es =>
      refine fun e he => ⟨fun hkey => ?_, ih (h e he).2⟩
      exact Nat.le_succ_of_le ((h e he).1 hkey)
    | seq items => exact fun t ht => ih (h t ht)
    | _ => trivial

theorem Within.mono {depth' : Nat} (hle : depth ≤ depth') {t : Tree} (h : Within pulled depth t) :
    Within pulled depth' t := by
  induction hle with
  | refl => exact h
  | step _ ih => exact ih.succ

theorem Within.value {es : Entries} (h : Within pulled depth (.map es)) :
    ∀ e ∈ es, Within pulled (depth - 1) e.2 := by
  intro e he
  cases depth with
  | zero => exact (Entries.lacks_map.1 h).2 e he
  | succ depth => exact (h e he).2

theorem Within.item {items : List Tree} (h : Within pulled depth (.seq items)) :
    ∀ t ∈ items, Within pulled (depth - 1) t := by
  intro t ht
  cases depth with
  | zero => exact everywhere_seq.1 h t ht
  | succ depth => exact h t ht

/-- Other values may stand under the keys of a mapping. -/
theorem Within.of_values {es es' : Entries} (h : Within pulled depth (.map es))
    (hes' : ∀ e ∈ es', (∃ v, (e.1, v) ∈ es) ∧ Within pulled (depth - 1) e.2) :
    Within pulled depth (.map es') := by
  cases depth with
  | zero =>
    refine Entries.lacks_map.2 ⟨fun e he => ?_, fun e he => (hes' e he).2⟩
    obtain ⟨⟨v, hmem⟩, -⟩ := hes' e he
    exact (Entries.lacks_map.1 h).1 (e.1, v) hmem
  | succ depth =>
    intro e he
    obtain ⟨⟨v, hmem⟩, hvalue⟩ := hes' e he
    exact ⟨(h (e.1, v) hmem).1, hvalue⟩

theorem Within.of_items {items : List Tree} (h : ∀ t ∈ items, Within pulled (depth - 1) t) :
    Within pulled depth (.seq items) := by
  cases depth with
  | zero => exact everywhere_seq.2 h
  | succ depth => exact h

/-- Without an `_include` it does not matter what would be pulled in. -/
theorem Within.of_lacks_include {t : Tree} (h : Within pulled depth t) (ht : t.Lacks [includeKey])
    (pulled' : Nat) : Within pulled' depth t := by
  induction depth generalizing t with
  | zero => exact h
  | succ depth ih =>
    cases t with
    | map es =>
      obtain ⟨hkeys, hvalues⟩ := Entries.lacks_map.1 ht
      refine fun e he => ⟨fun hkey => ?_, ih (h e he).2 (hvalues e he)⟩
      exact absurd hkey (hkeys e he includeKey (by simp))
    | seq items => exact fun t hmem => ih (h t hmem) (everywhere_seq.1 ht t hmem)
    | _ => trivial

/-! ## Merging -/

/-- What holds of all entries holds after merging, if an old key may take over a value and what is
laid over a value is as good as the value above. -/
theorem forall_mergeEntries {R : Tree → Tree → Prop} {below above : Entries}
    (hrespell : ∀ {k key v old}, k.same key = true → R k old → R key v → R k v)
    (hbelow : ∀ e ∈ below, R e.1 e.2) (habove : ∀ e ∈ above, R e.1 e.2)
    (hlaid : ∀ e ∈ above, ∀ k v, R k v → R e.1 (v.merge e.2)) :
    ∀ e ∈ mergeEntries below above, R e.1 e.2 := by
  induction above generalizing below with
  | nil => rwa [mergeEntries_nil]
  | cons first rest ih =>
    obtain ⟨key, value⟩ := first
    obtain ⟨hfirst, hrest⟩ := List.forall_mem_cons.1 habove
    obtain ⟨hfirst', hrest'⟩ := List.forall_mem_cons.1 hlaid
    have hover : R key (laidOver below key value) := by
      rw [laidOver]
      cases hget : Entries.get? below key with
      | none => exact hfirst
      | some existing =>
        obtain ⟨k, hmem, -⟩ := Entries.mem_of_get? hget
        exact hfirst' k existing (hbelow _ hmem)
    rw [mergeEntries_cons]
    refine ih ?_ hrest hrest'
    intro e he
    rcases Entries.mem_put he with hmem | ⟨hv, hk | ⟨hsame, old, hold⟩⟩
    · exact hbelow e hmem
    · rw [hv, hk]
      exact hover
    · rw [hv]
      exact hrespell hsame (hbelow (e.1, old) hold) hover

theorem Within.merge {base overlay : Tree} (hbase : Within pulled depth base)
    (hoverlay : Within pulled depth overlay) : Within pulled depth (base.merge overlay) := by
  induction depth generalizing base overlay with
  | zero => exact Lacks.merge hbase hoverlay
  | succ depth ih =>
    cases overlay with
    | map above =>
      cases base with
      | map below =>
        rw [merge_map_map]
        -- A value is laid over one that is as deep, so both may use the levels that are left.
        refine forall_mergeEntries
          (R := fun k v => (k = .str includeKey → pulled ≤ depth) ∧ Within pulled depth v)
          (fun _ hold h => ⟨hold.1, h.2⟩) hbase hoverlay fun e he k v h => ?_
        exact ⟨(hoverlay e he).1, ih h.2 (hoverlay e he).2⟩
      | _ =>
        rw [merge_map_of_not_map (by simp)]
        exact hoverlay
    | _ =>
      rw [merge_of_not_map (by simp)]
      exact hoverlay

theorem Within.underlay {base : Tree} {own : Entries} (hbase : Within pulled depth base)
    (hown : Within pulled depth (.map own)) :
    Within pulled depth (.map (Tree.underlay base own)) := by
  have hbelow : Within pulled depth (.map base.entries) := by
    cases base with
    | map es => exact hbase
    | _ => exact within_of_lacks everywhere_empty
  rw [underlay_eq_mergeEntries, ← merge_map_map]
  exact hbelow.merge hown

theorem Within.erase {es : Entries} (h : Within pulled depth (.map es)) (key : Tree) :
    Within pulled depth (.map (Entries.erase es key)) := by
  cases depth with
  | zero => exact Everywhere.erase h key
  | succ depth => exact fun e he => h e (Entries.mem_erase.1 he).1

/-! ## Bounds -/

theorem nodeCount_le_of_mem {es : Entries} {e : Tree × Tree} (he : e ∈ es) :
    e.2.nodeCount ≤ nodeCountEntries es := by
  induction es with
  | nil => cases he
  | cons first rest ih =>
    rw [nodeCountEntries]
    rcases List.mem_cons.1 he with rfl | he
    · omega
    · have := ih he
      omega

theorem nodeCount_le_of_mem_items {items : List Tree} {t : Tree} (ht : t ∈ items) :
    t.nodeCount ≤ nodeCountItems items := by
  induction items with
  | nil => cases ht
  | cons first rest ih =>
    rw [nodeCountItems]
    rcases List.mem_cons.1 ht with rfl | ht
    · omega
    · have := ih ht
      omega

/-- No directive is deeper than there are nodes. -/
theorem within_nodeCount (t : Tree) : Within pulled (pulled + t.nodeCount) t := by
  induction t using Tree.induction with
  | map es ih =>
    rw [nodeCount, show pulled + (1 + nodeCountEntries es) = pulled + nodeCountEntries es + 1 by
      omega]
    refine fun e he => ⟨fun _ => Nat.le_add_right _ _, (ih e he).2.mono ?_⟩
    exact Nat.add_le_add_left (nodeCount_le_of_mem he) pulled
  | seq items ih =>
    rw [nodeCount, show pulled + (1 + nodeCountItems items) = pulled + nodeCountItems items + 1 by
      omega]
    refine fun t ht => (ih t ht).mono ?_
    exact Nat.add_le_add_left (nodeCount_le_of_mem_items ht) pulled
  | _ => exact within_of_lacks trivial

end Tree

/-- A mapping with a directive takes up a level, of the bound as well as of the room. -/
theorem Scope.exists_succ_of_isDirected {pulled depth : Nat} {es : Entries}
    (h : Tree.Within pulled depth (.map es)) (hdirected : isDirected es = true) :
    ∃ n, depth = n + 1 := by
  cases depth with
  | zero =>
    rw [isDirected_eq_false.2 (Entries.lacks_map.1 h).1] at hdirected
    cases hdirected
  | succ n => exact ⟨n, rfl⟩

/-! ## Documents -/

namespace Yaml

open Tree

theorem within_underTag {pulled depth : Nat} {tag : Option String} {t : Tree}
    (h : Within pulled depth t) : Within pulled depth (underTag tag t) := by
  unfold underTag
  split
  · exact within_of_lacks trivial
  · exact h

/-- A scalar has no level below it. -/
theorem taggedScalar_within {pulled depth : Nat} {tag : Option String} {text : String}
    {style : Style} {t : Tree} (h : taggedScalar tag text style = .ok t) :
    Within pulled depth t := by
  refine within_of_lacks ?_
  unfold taggedScalar at h
  split at h
  · cases hvalue : scalarValue none text style with
    | error fault =>
      rw [hvalue] at h
      cases h
    | ok value =>
      rw [hvalue] at h
      cases h
      trivial
  · have hscalar := scalarValue_isScalar h
    cases t <;> trivial

/-- A value that is read is not deeper than it may be. -/
theorem yields_within {pulled : Nat} (depth : Nat) (node : Node) :
    Yields (Decoder.tree depth node) (Within pulled (pulled + depth)) := by
  induction depth generalizing node with
  | zero =>
    unfold Decoder.tree
    refine (Yields.trivial _).bind fun node _ => ?_
    split
    · exact Yields.throw _
    · exact Yields.lift fun t => taggedScalar_within
    · exact Yields.throw _
  | succ depth ih =>
    unfold Decoder.tree
    refine (Yields.trivial _).bind fun node _ => ?_
    split
    · exact Yields.throw _
    · exact Yields.lift fun t => taggedScalar_within
    · refine (Yields.mapM ih _).bind fun items hitems => Yields.pure ?_
      exact within_underTag hitems
    · refine Yields.bind (Q := fun es => Within pulled (pulled + depth + 1) (.map es))
        (Yields.foldlM ?_ _ (within_of_lacks everywhere_empty)) fun es hes =>
          Yields.pure (within_underTag hes)
      intro es e hes
      obtain ⟨k, v⟩ := e
      refine (Yields.trivial _).bind fun key _ => ?_
      split
      · exact (Yields.throw (Q := fun _ => False) _).bind fun _ h => h.elim
      · refine (ih v).bind fun value hvalue => Yields.lift fun es' hadd => ?_
        unfold addEntry at hadd
        split at hadd
        · cases hadd
        · cases hadd
          intro e he
          rcases List.mem_append.1 he with he | he
          · exact hes e he
          · rw [List.mem_singleton] at he
            rw [he]
            exact ⟨fun _ => Nat.le_add_right _ _, hvalue⟩

end Yaml

/-- A document that is read is not deeper than the limit. -/
theorem Document.read_within {pulled : Nat} {text : String} {t : Tree}
    (h : Document.read text = .ok t) : t.Within pulled (pulled + Yaml.depthLimit) :=
  Document.of_read (Tree.within_of_lacks Tree.everywhere_empty) (Yaml.yields_within _) h

end LayeredConfig
