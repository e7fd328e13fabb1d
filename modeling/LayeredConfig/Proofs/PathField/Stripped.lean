import LayeredConfig.Proofs.Directives

/-!
# Trees without the entries under a key

`strip f t` is the tree `t` without the entries that its mappings have under the text key `f`. The
operations that resolution is made of cannot tell whether this is done before or after them, except
where they are asked for the key itself.

A lookup may be asked for it, a replacement may come upon it by another key that reads like it, and
flattening may join it to other keys. `Carries f t` says that this does no harm: the values under
`f` are texts, no other key reads `f`, and nothing is to be flattened.
-/

namespace LayeredConfig

open Directive (flattenKey separatorKey includeKey useKey)

namespace Tree

mutual

/-- The tree without the entries of its mappings, also under tags, that have the text key `f`. -/
def strip (f : String) : Tree → Tree
  | .map es => .map (stripEntries f es)
  | .seq items => .seq (stripItems f items)
  | .tagged tag t => .tagged tag (strip f t)
  | t => t

/-- The other entries, with their values stripped. -/
def stripEntries (f : String) : List (Tree × Tree) → List (Tree × Tree)
  | [] => []
  | (key, value) :: rest =>
    if key.same (.str f) then stripEntries f rest
    else (key, strip f value) :: stripEntries f rest

/-- The items, each stripped. -/
def stripItems (f : String) : List Tree → List Tree
  | [] => []
  | t :: rest => strip f t :: stripItems f rest

end

variable {f : String}

@[simp] theorem strip_map (es : Entries) : strip f (.map es) = .map (stripEntries f es) := by
  rw [strip]

@[simp] theorem strip_seq (items : List Tree) :
    strip f (.seq items) = .seq (stripItems f items) := by rw [strip]

@[simp] theorem strip_tagged (tag : String) (t : Tree) :
    strip f (.tagged tag t) = .tagged tag (strip f t) := by rw [strip]

@[simp] theorem strip_str (s : String) : strip f (.str s) = .str s := by simp [strip]

@[simp] theorem stripEntries_nil : stripEntries f [] = [] := by rw [stripEntries]

@[simp] theorem stripEntries_self (value : Tree) (rest : Entries) :
    stripEntries f ((.str f, value) :: rest) = stripEntries f rest := by
  rw [stripEntries, if_pos (same_str.2 rfl)]

theorem stripEntries_cons {key : Tree} (h : key ≠ .str f) (value : Tree) (rest : Entries) :
    stripEntries f ((key, value) :: rest) = (key, strip f value) :: stripEntries f rest := by
  rw [stripEntries, if_neg (by simpa using h)]

theorem stripItems_eq_map (items : List Tree) : stripItems f items = items.map (strip f) := by
  induction items with
  | nil => rw [stripItems, List.map_nil]
  | cons t rest ih => rw [stripItems, ih, List.map_cons]

theorem mem_stripEntries {es : Entries} {e : Tree × Tree} :
    e ∈ stripEntries f es ↔ e.1 ≠ .str f ∧ ∃ v, (e.1, v) ∈ es ∧ e.2 = strip f v := by
  induction es with
  | nil => simp
  | cons first rest ih =>
    obtain ⟨key, value⟩ := first
    by_cases hkey : key = .str f
    · subst hkey
      rw [stripEntries_self, ih]
      refine and_congr_right fun hne => exists_congr fun v => and_congr_left fun _ => ?_
      simp [hne]
    · rw [stripEntries_cons hkey, List.mem_cons, ih]
      constructor
      · rintro (rfl | ⟨hne, v, hmem, hv⟩)
        · exact ⟨hkey, value, by simp, rfl⟩
        · exact ⟨hne, v, List.mem_cons_of_mem _ hmem, hv⟩
      · rintro ⟨hne, v, hmem, hv⟩
        rcases List.mem_cons.1 hmem with heq | hmem
        · rw [Prod.mk.injEq] at heq
          exact .inl (Prod.ext heq.1 (by rw [hv, heq.2]))
        · exact .inr ⟨hne, v, hmem, hv⟩

/-! ## What a tree is called and asked for -/

@[simp] theorem kind_strip (t : Tree) : (strip f t).kind = t.kind := by
  cases t <;> simp [strip, kind]

theorem untagged_strip (t : Tree) : (strip f t).untagged = strip f t.untagged := by
  induction t using Tree.induction with
  | tagged tag t ih => rw [strip_tagged, untagged, untagged, ih]
  | _ => simp [strip, untagged]

@[simp] theorem isMapping_strip (t : Tree) : (strip f t).isMapping = t.isMapping := by
  rw [isMapping, isMapping, untagged_strip]
  cases t.untagged <;> simp [strip]

@[simp] theorem isNull_strip (t : Tree) : (strip f t).isNull = t.isNull := by
  rw [isNull, isNull, untagged_strip]
  cases t.untagged <;> simp [strip]

theorem entries_strip (t : Tree) : (strip f t).entries = stripEntries f t.entries := by
  cases t <;> simp [strip, entries]

theorem nodeCount_strip_le (t : Tree) : (strip f t).nodeCount ≤ t.nodeCount := by
  induction t using Tree.induction with
  | map es ih =>
    have hentries : nodeCountEntries (stripEntries f es) ≤ nodeCountEntries es := by
      induction es with
      | nil => exact Nat.le_refl _
      | cons e rest ihRest =>
        obtain ⟨key, value⟩ := e
        have hvalue : (strip f value).nodeCount ≤ value.nodeCount := (ih _ List.mem_cons_self).2
        have hrest := ihRest fun e he => ih e (List.mem_cons_of_mem _ he)
        by_cases hkey : key = .str f
        · rw [hkey, stripEntries_self, nodeCountEntries]
          omega
        · rw [stripEntries_cons hkey, nodeCountEntries, nodeCountEntries]
          omega
    rw [strip_map, nodeCount, nodeCount]
    omega
  | seq items ih =>
    have hitems : nodeCountItems (stripItems f items) ≤ nodeCountItems items := by
      induction items with
      | nil => exact Nat.le_refl _
      | cons t rest ihRest =>
        have hfirst := ih t List.mem_cons_self
        have hrest := ihRest fun t ht => ih t (List.mem_cons_of_mem _ ht)
        rw [stripItems, nodeCountItems, nodeCountItems]
        omega
    rw [strip_seq, nodeCount, nodeCount]
    omega
  | tagged tag t ih =>
    rw [strip_tagged, nodeCount, nodeCount]
    omega
  | _ => simp [strip]

end Tree

/-! ## Entries -/

namespace Entries

open Tree (strip stripEntries stripEntries_nil stripEntries_self stripEntries_cons)

variable {f : String} {key : Tree}

/-- A key that is the same as one that is not the text `f` is not that text either. -/
private theorem ne_of_same {k : Tree} (h : k.same key = true) (hkey : key ≠ .str f) :
    k ≠ .str f := by
  rintro rfl
  exact hkey (Tree.str_same.1 h)

theorem get?_strip (hkey : key ≠ .str f) (es : Entries) :
    get? (stripEntries f es) key = (get? es key).map (strip f) := by
  induction es with
  | nil => rw [stripEntries_nil]; rfl
  | cons e rest ih =>
    obtain ⟨k, v⟩ := e
    by_cases hk : k = .str f
    · have hsame : (Tree.str f).same key = false := Bool.eq_false_iff.2 fun h =>
        hkey (Tree.str_same.1 h)
      rw [hk, stripEntries_self, ih, get?, get?, List.find?_cons, hsame]
    · rw [stripEntries_cons hk, get?, get?, List.find?_cons, List.find?_cons]
      cases k.same key with
      | true => rfl
      | false => exact ih

@[simp] theorem get?_strip_self (es : Entries) : get? (stripEntries f es) (.str f) = none := by
  rw [get?_eq_none]
  intro e he
  rw [Tree.same_str_eq_false]
  exact (Tree.mem_stripEntries.1 he).1

theorem has_strip (hkey : key ≠ .str f) (es : Entries) :
    has (stripEntries f es) key = has es key := by
  rw [has_eq_isSome, has_eq_isSome, get?_strip hkey, Option.isSome_map]

theorem strip_put (hkey : key ≠ .str f) (es : Entries) (value : Tree) :
    stripEntries f (put es key value) = put (stripEntries f es) key (strip f value) := by
  induction es with
  | nil => rw [put, stripEntries_cons hkey, stripEntries_nil, put]
  | cons e rest ih =>
    obtain ⟨k, v⟩ := e
    rw [put]
    by_cases hsame : k.same key = true
    · have hk := ne_of_same hsame hkey
      rw [if_pos hsame, stripEntries_cons hk, stripEntries_cons hk, put, if_pos hsame]
    · rw [if_neg hsame]
      by_cases hk : k = .str f
      · rw [hk, stripEntries_self, stripEntries_self, ih]
      · rw [stripEntries_cons hk, stripEntries_cons hk, put, if_neg hsame, ih]

@[simp] theorem strip_put_self (es : Entries) (value : Tree) :
    stripEntries f (put es (.str f) value) = stripEntries f es := by
  induction es with
  | nil => rw [put, stripEntries_self]
  | cons e rest ih =>
    obtain ⟨k, v⟩ := e
    rw [put]
    by_cases hk : k = .str f
    · rw [hk, if_pos (Tree.same_str.2 rfl), stripEntries_self, stripEntries_self]
    · rw [if_neg (by simpa using hk), stripEntries_cons hk, stripEntries_cons hk, ih]

theorem strip_erase (es : Entries) :
    stripEntries f (erase es key) = erase (stripEntries f es) key := by
  induction es with
  | nil => rfl
  | cons e rest ih =>
    obtain ⟨k, v⟩ := e
    by_cases hk : k = .str f
    · subst hk
      rw [erase, List.filter_cons, stripEntries_self]
      split
      · rw [stripEntries_self]
        exact ih
      · exact ih
    · rw [erase, List.filter_cons, stripEntries_cons hk, erase, List.filter_cons]
      dsimp only
      split
      · rw [stripEntries_cons hk]
        exact congrArg _ ih
      · exact ih

theorem strip_modify (hkey : key ≠ .str f) (es : Entries) (new : Tree) :
    stripEntries f (modify (fun _ => new) es key) =
      modify (fun _ => strip f new) (stripEntries f es) key := by
  induction es with
  | nil => rw [modify, stripEntries_nil, modify]
  | cons e rest ih =>
    obtain ⟨k, v⟩ := e
    rw [modify]
    by_cases hsame : k.same key = true
    · have hk := ne_of_same hsame hkey
      rw [if_pos hsame, stripEntries_cons hk, stripEntries_cons hk, modify, if_pos hsame]
    · rw [if_neg hsame]
      by_cases hk : k = .str f
      · rw [hk, stripEntries_self, stripEntries_self, ih]
      · rw [stripEntries_cons hk, stripEntries_cons hk, modify, if_neg hsame, ih]

end Entries

/-! ## Merging -/

namespace Tree

variable {f : String}

/-- It makes no difference whether trees are stripped before they are merged or afterwards. -/
theorem strip_merge (base overlay : Tree) :
    strip f (merge base overlay) = merge (strip f base) (strip f overlay) := by
  induction overlay using Tree.induction generalizing base with
  | map above ih =>
    cases base with
    | map below =>
      rw [merge_map_map, strip_map, strip_map, strip_map, merge_map_map]
      refine congrArg _ ?_
      induction above generalizing below with
      | nil => rw [mergeEntries_nil, stripEntries_nil, mergeEntries_nil]
      | cons e rest ihRest =>
        obtain ⟨key, value⟩ := e
        have hrest := ihRest fun e he => ih e (List.mem_cons_of_mem _ he)
        rw [mergeEntries_cons, hrest]
        -- The field goes into what is below and is stripped off with that.
        by_cases hkey : key = .str f
        · rw [hkey, Entries.strip_put_self, stripEntries_self]
        · have hlaid : strip f (laidOver below key value) =
              laidOver (stripEntries f below) key (strip f value) := by
            rw [laidOver, laidOver, Entries.get?_strip hkey]
            cases Entries.get? below key with
            | none => rfl
            | some existing => exact (ih _ List.mem_cons_self).2 existing
          rw [Entries.strip_put hkey, stripEntries_cons hkey, mergeEntries_cons, hlaid]
    | _ =>
      rw [merge_map_of_not_map (by simp), strip_map, merge_map_of_not_map]
      simp [strip]
  | _ =>
    rw [merge_of_not_map (by simp), merge_of_not_map]
    simp [strip]

theorem strip_mergeEntries (below above : Entries) :
    stripEntries f (mergeEntries below above) =
      mergeEntries (stripEntries f below) (stripEntries f above) := by
  simpa using strip_merge (f := f) (.map below) (.map above)

theorem strip_underlay (base : Tree) (own : Entries) :
    stripEntries f (underlay base own) = underlay (strip f base) (stripEntries f own) := by
  rw [underlay_eq_mergeEntries, underlay_eq_mergeEntries, strip_mergeEntries, entries_strip]

/-! ## Directives -/

theorem names_strip (key : String) (value : Tree) :
    Directive.names key (strip f value) = Directive.names key value := by
  cases value with
  | seq items =>
    rw [strip_seq, Directive.names, Directive.names, stripItems_eq_map, List.mapM_map]
    refine congrArg (List.mapM · items) (funext fun t => ?_)
    cases t <;> simp [strip, kind]
  | _ => simp [strip, Directive.names, kind]

theorem take_strip (hf : f ∉ Directive.all) (es : Entries) :
    Flattening.take (stripEntries f es) =
      (stripEntries f (Flattening.take es).1, (Flattening.take es).2) := by
  have hdepth : Tree.str flattenKey ≠ .str f := by
    rintro ⟨⟩
    exact hf (by simp [Directive.all])
  have hseparator : Tree.str separatorKey ≠ .str f := by
    rintro ⟨⟩
    exact hf (by simp [Directive.all])
  have hdepthOf (t : Tree) : Flattening.depthOf (strip f t) = Flattening.depthOf t := by
    cases t <;> simp [strip, Flattening.depthOf, kind]
  have hseparatorOf (t : Tree) : Flattening.separatorOf (strip f t) = Flattening.separatorOf t := by
    cases t <;> simp [strip, Flattening.separatorOf, kind]
  unfold Flattening.take
  dsimp only
  rw [Entries.get?_strip hdepth, Entries.get?_strip hseparator, ← Entries.strip_erase,
    ← Entries.strip_erase]
  cases Entries.get? es (.str flattenKey) with
  | none =>
    cases Entries.get? es (.str separatorKey) with
    | none => rfl
    | some separator => simp only [Option.map_some, Option.map_none, hseparatorOf]
  | some depth =>
    simp only [Option.map_some, hdepthOf]
    cases Flattening.depthOf depth with
    | error fault => rfl
    | ok depth =>
      cases Entries.get? es (.str separatorKey) with
      | none => rfl
      | some separator => simp only [Option.map_some, hseparatorOf]

/-! ## Trees that carry the field -/

/-- An entry as it may be in a tree that carries the key `f`: the value of the key is a text, no
other key reads `f`, and no flattening is asked for. -/
def CarriedEntry (f : String) (key value : Tree) : Prop :=
  (key = .str f → ∃ s, value = .str s) ∧ (Yaml.keyText key = f → key = .str f) ∧
    key ≠ .str flattenKey

/-- The key `f` does no harm in the tree. -/
def Carries (f : String) (t : Tree) : Prop := t.Everywhere (CarriedEntry f)

theorem layered_carries (f : String) : Layered (CarriedEntry f) where
  respell hsame hold h := by
    refine ⟨?_, hold.2⟩
    rintro rfl
    exact h.1 (str_same.1 hsame)
  merged h := by
    refine ⟨fun hkey => ?_, h.2⟩
    obtain ⟨s, rfl⟩ := h.1 hkey
    exact ⟨s, merge_of_not_map (by simp)⟩

/-- A mapping may take the place of what a path leads to that does not go by `f`. -/
theorem Carries.replace? {es : Entries} {t new : Tree} {path : List Segment}
    (hes : Carries f (.map es)) (ht : Carries f t) (hpath : .key f ∉ path)
    (h : Tree.replace? (.map es) path t = some new) : Carries f new := by
  induction path generalizing t new with
  | nil =>
    rw [Tree.replace?, Option.some_inj] at h
    rwa [← h]
  | cons segment rest ih =>
    rw [List.mem_cons, not_or] at hpath
    cases segment with
    | key name =>
      cases t with
      | map below =>
        rw [Tree.replace?, Option.bind_eq_some_iff] at h
        obtain ⟨slot, hget, h⟩ := h
        obtain ⟨inner, hinner, rfl⟩ := Option.map_eq_some_iff.1 h
        have hgood := ih (ht.of_get? hget) hpath.2 hinner
        rw [Carries, everywhere_map] at ht ⊢
        intro e he
        rcases Entries.mem_modify he with hold | ⟨hsame, v, hold, hv⟩
        · exact ht e hold
        · rw [hv]
          refine ⟨⟨fun hkey => ?_, (ht _ hold).1.2⟩, hgood⟩
          rw [same_str.1 hsame] at hkey
          exact absurd (congrArg Segment.key (Tree.str.inj hkey).symm) hpath.1
      | _ => simp [Tree.replace?] at h
    | index i =>
      cases t with
      | seq items =>
        rw [Tree.replace?, Option.bind_eq_some_iff] at h
        obtain ⟨slot, hget, h⟩ := h
        obtain ⟨inner, hinner, rfl⟩ := Option.map_eq_some_iff.1 h
        rw [Carries, everywhere_seq] at ht ⊢
        intro t hmem
        rcases List.mem_or_eq_of_mem_set hmem with hold | rfl
        · exact ht t hold
        · exact ih (ht _ (List.mem_of_getElem? hget)) hpath.2 hinner
      | _ => simp [Tree.replace?] at h

theorem strip_replace? {path : List Segment} (hpath : .key f ∉ path) (es : Entries) (t : Tree) :
    Tree.replace? (.map (stripEntries f es)) path (strip f t) =
      (Tree.replace? (.map es) path t).map (strip f) := by
  induction path generalizing t with
  | nil => simp [Tree.replace?]
  | cons segment rest ih =>
    rw [List.mem_cons, not_or] at hpath
    cases segment with
    | key name =>
      have hname : Tree.str name ≠ .str f := by
        rintro ⟨⟩
        exact hpath.1 rfl
      cases t with
      | map below =>
        rw [strip_map, Tree.replace?, Tree.replace?, Entries.get?_strip hname]
        cases Entries.get? below (.str name) with
        | none => rfl
        | some slot =>
          rw [Option.map_some, Option.bind_some, Option.bind_some, ih hpath.2]
          cases Tree.replace? (.map es) rest slot with
          | none => rfl
          | some inner => simp [Entries.strip_modify hname]
      | _ => simp [strip, Tree.replace?]
    | index i =>
      cases t with
      | seq items =>
        rw [strip_seq, Tree.replace?, Tree.replace?, stripItems_eq_map, List.getElem?_map]
        cases items[i]? with
        | none => rfl
        | some slot =>
          rw [Option.map_some, Option.bind_some, Option.bind_some, ih hpath.2]
          cases Tree.replace? (.map es) rest slot with
          | none => rfl
          | some inner => simp [stripItems_eq_map, List.map_set]
      | _ => simp [strip, Tree.replace?]

theorem step?_strip {segment : Segment} (h : segment ≠ .key f) (t : Tree) :
    (strip f t).step? segment = (t.step? segment).map (strip f) := by
  cases t with
  | map es =>
    rw [strip_map]
    cases segment with
    | key name =>
      refine Entries.get?_strip ?_ es
      rintro ⟨⟩
      exact h rfl
    | index i => exact Entries.get?_strip (by simp) es
  | seq items =>
    cases segment with
    | key name => simp [step?]
    | index i => simp [step?, stripItems_eq_map]
  | _ => simp [strip, step?]

/-- What a path leads to is there in the stripped tree too, unless it is a text under `f`. -/
theorem follow?_strip {t : Tree} (ht : Carries f t) (path : List Segment) :
    (strip f t).follow? path = (t.follow? path).map (strip f) ∨
      (strip f t).follow? path = none ∧ ∃ s, t.follow? path = some (.str s) := by
  induction path generalizing t with
  | nil => exact .inl rfl
  | cons segment rest ih =>
    rw [follow?, follow?]
    by_cases hsegment : segment = .key f
    · have hnone : (strip f t).step? (.key f) = none := by
        cases t with
        | map es =>
          rw [strip_map]
          exact Entries.get?_strip_self es
        | _ => simp [strip, step?]
      rw [hsegment, hnone, Option.bind_none]
      cases hget : t.step? (.key f) with
      | none => exact .inl rfl
      | some v =>
        -- Nothing is under the text that stands there.
        obtain ⟨s, rfl⟩ : ∃ s, v = .str s := by
          cases t with
          | map es =>
            obtain ⟨k, hmem, hsame⟩ := Entries.mem_of_get? hget
            exact (everywhere_map.1 ht _ hmem).1.1 (same_str.1 hsame)
          | _ => simp [step?] at hget
        cases rest with
        | nil => exact .inr ⟨rfl, s, rfl⟩
        | cons next rest => exact .inl (by simp [follow?, step?])
    · rw [step?_strip hsegment]
      cases hnext : t.step? segment with
      | none => exact .inl rfl
      | some next =>
        have hfollow : t.follow? [segment] = some next := by
          rw [follow?, hnext]
          rfl
        exact ih (Everywhere.follow? ht hfollow)

/-- The same of sections that are looked up. -/
theorem lookup_strip {t : Tree} (ht : Carries f t) (path : List Segment) :
    (strip f t).lookup path = (t.lookup path).map (strip f) ∨
      (strip f t).lookup path = none ∧ ∃ s, t.lookup path = some (.str s) := by
  rw [lookup, lookup]
  rcases follow?_strip ht path with h | ⟨h, s, hs⟩
  · rw [h]
    refine .inl ?_
    cases t.follow? path with
    | none => rfl
    | some v => simp [Option.filter_some, apply_ite]
  · rw [h, hs]
    exact .inr ⟨rfl, s, by simp [isNull, untagged]⟩

/-! ## Trees that do not mention it -/

mutual

/-- A key of a mapping in the tree, also under a tag, reads `f`. -/
def mentions (f : String) : Tree → Bool
  | .map es => mentionsEntries f es
  | .seq items => mentionsItems f items
  | .tagged _ t => mentions f t
  | _ => false

/-- A key reads `f`, or a value mentions it. -/
def mentionsEntries (f : String) : List (Tree × Tree) → Bool
  | [] => false
  | (key, value) :: rest =>
    Yaml.keyText key == f || mentions f value || mentionsEntries f rest

/-- An item mentions `f`. -/
def mentionsItems (f : String) : List Tree → Bool
  | [] => false
  | t :: rest => mentions f t || mentionsItems f rest

end

theorem mentions_map {es : Entries} : mentions f (.map es) = false ↔
    ∀ e ∈ es, Yaml.keyText e.1 ≠ f ∧ mentions f e.2 = false := by
  rw [mentions]
  induction es with
  | nil => simp [mentionsEntries]
  | cons e rest ih => simp [mentionsEntries, ih, and_assoc]

theorem mentions_seq {items : List Tree} : mentions f (.seq items) = false ↔
    ∀ t ∈ items, mentions f t = false := by
  rw [mentions]
  induction items with
  | nil => simp [mentionsItems]
  | cons t rest ih => simp [mentionsItems, ih]

/-- There is nothing to strip off a tree that does not mention the key. -/
theorem strip_of_mentions {t : Tree} (h : mentions f t = false) : strip f t = t := by
  induction t using Tree.induction with
  | map es ih =>
    rw [mentions_map] at h
    rw [strip_map]
    refine congrArg _ ?_
    induction es with
    | nil => rw [stripEntries_nil]
    | cons e rest ihRest =>
      obtain ⟨key, value⟩ := e
      obtain ⟨⟨hkey, hvalue⟩, hrest⟩ := List.forall_mem_cons.1 h
      have hne : key ≠ .str f := by
        rintro rfl
        exact hkey rfl
      rw [stripEntries_cons hne, (ih _ List.mem_cons_self).2 hvalue,
        ihRest (fun e he => ih e (List.mem_cons_of_mem _ he)) hrest]
  | seq items ih =>
    rw [mentions_seq] at h
    rw [strip_seq, stripItems_eq_map, List.map_congr_left fun t ht => ih t ht (h t ht),
      List.map_id']
  | tagged tag t ih =>
    rw [mentions] at h
    rw [strip_tagged, ih h]
  | _ => simp [strip]

theorem carries_of_mentions {t : Tree} (h : mentions f t = false) (hflat : t.Lacks [flattenKey]) :
    t.Carries f := by
  induction t using Tree.induction with
  | map es ih =>
    rw [mentions_map] at h
    obtain ⟨hkeys, hvalues⟩ := Entries.lacks_map.1 hflat
    refine everywhere_map.2 fun e he => ⟨⟨fun hkey => ?_, fun htext => ?_, ?_⟩, ?_⟩
    · exact absurd (congrArg Yaml.keyText hkey) (h e he).1
    · exact absurd htext (h e he).1
    · exact hkeys e he flattenKey (by simp)
    · exact (ih e he).2 (h e he).2 (hvalues e he)
  | seq items ih =>
    rw [mentions_seq] at h
    exact everywhere_seq.2 fun t ht => ih t ht (h t ht) (everywhere_seq.1 hflat t ht)
  | _ => trivial

end Tree

end LayeredConfig
