import LayeredConfig.Proofs.Tree.WellFormed

/-!
# What flattening keeps

A tree is cut at a depth: a cut path is a path of keys that ends at the depth, or above it at a
value that is not a plain mapping. `cuts` lists the cut paths of a mapping with their values, each
once and in the order of the document. If no two of them have the same joined key, then flattening
is putting the values under their joined keys, and flattening twice is flattening once by the sum of
the depths (`flatten_keeps_cuts`).
-/

namespace LayeredConfig.Tree

/-! ## Cut paths -/

/-- The keys lead through plain mappings to a value. -/
inductive Reaches : Entries → List Tree → Tree → Prop
  | here {es : Entries} {key v : Tree} (h : (key, v) ∈ es) : Reaches es [key] v
  | inside {es below : Entries} {key v : Tree} {path : List Tree} (h : (key, .map below) ∈ es)
      (hpath : Reaches below path v) : Reaches es (key :: path) v

/-- The path is cut at a depth, counted from zero. -/
structure IsCut (depth : Nat) (es : Entries) (path : List Tree) (v : Tree) : Prop where
  reaches : Reaches es path v
  within : path.length ≤ depth + 1
  ends : (∀ below, v ≠ .map below) ∨ path.length = depth + 1

/-- A path stands before another in the document: where they part, it takes the earlier key. -/
inductive Precedes : Entries → List Tree → List Tree → Prop
  | apart {es : Entries} {k l : Tree} {p q : List Tree} (h : [k, l].Sublist (Entries.keys es)) :
      Precedes es (k :: p) (l :: q)
  | inside {es below : Entries} {key : Tree} {p q : List Tree} (h : (key, .map below) ∈ es)
      (hpath : Precedes below p q) : Precedes es (key :: p) (key :: q)

/-- The key that stands for a path: its only key, or else the texts of its keys with a separator
between them. -/
def joined (sep : String) : List Tree → Tree
  | [key] => key
  | path => .str (sep.intercalate (path.map Yaml.keyText))

/-- No two cut paths have the same joined key. -/
def CutsApart (sep : String) (depth : Nat) (es : Entries) : Prop :=
  ∀ p v q w, IsCut depth es p v → IsCut depth es q w → p ≠ q →
    (joined sep p).same (joined sep q) = false

/-- A mapping holds the values at the cut paths, each once, under the joined keys and in the order
of the document. -/
def HoldsCuts (sep : String) (depth : Nat) (es flat : Entries) : Prop :=
  ∃ found : List (List Tree × Tree),
    flat = found.map (fun c => (joined sep c.1, c.2)) ∧
    (∀ path v, (path, v) ∈ found ↔ IsCut depth es path v) ∧
    (found.map Prod.fst).Nodup ∧
    found.Pairwise fun a b => Precedes es a.1 b.1

theorem Reaches.ne_nil {es : Entries} {path : List Tree} {v : Tree} (h : Reaches es path v) :
    path ≠ [] := by cases h <;> exact List.cons_ne_nil _ _

theorem isCut_zero {es : Entries} {path : List Tree} {v : Tree} :
    IsCut 0 es path v ↔ ∃ key, path = [key] ∧ (key, v) ∈ es := by
  constructor
  · rintro ⟨hreaches, hwithin, -⟩
    cases hreaches with
    | here h => exact ⟨_, rfl, h⟩
    | inside _ hpath =>
      exact absurd (List.length_eq_zero_iff.1 (by simpa using hwithin)) hpath.ne_nil
  · rintro ⟨key, rfl, h⟩
    exact ⟨.here h, Nat.le_refl _, .inr rfl⟩

theorem isCut_succ {depth : Nat} {es : Entries} {path : List Tree} {v : Tree} :
    IsCut (depth + 1) es path v ↔
      (∃ key, path = [key] ∧ (key, v) ∈ es ∧ ∀ below, v ≠ .map below) ∨
      ∃ key below rest, path = key :: rest ∧ (key, .map below) ∈ es ∧ IsCut depth below rest v := by
  constructor
  · rintro ⟨hreaches, hwithin, hends⟩
    cases hreaches with
    | here h => exact .inl ⟨_, rfl, h, hends.resolve_right (by simp)⟩
    | inside h hpath =>
      exact .inr ⟨_, _, _, rfl, h, hpath, by simpa using hwithin, by simpa using hends⟩
  · rintro (⟨key, rfl, h, hends⟩ | ⟨key, below, rest, rfl, h, hreaches, hwithin, hends⟩)
    · exact ⟨.here h, by simp, .inl hends⟩
    · exact ⟨.inside h hreaches, by simpa using hwithin, by simpa using hends⟩

/-- In a well-formed mapping a path does not stand before itself. -/
theorem Precedes.ne {es : Entries} (hes : WellFormed (.map es)) {p q : List Tree}
    (h : Precedes es p q) : p ≠ q := by
  induction h with
  | @apart es k l p q h =>
    intro heq
    obtain ⟨rfl, -⟩ := List.cons_eq_cons.1 heq
    have hdistinct := Entries.distinct_iff_keys.1 (wellFormed_map.1 hes).1
    have hfalse := List.pairwise_iff_forall_sublist.1 hdistinct h
    exact Bool.false_ne_true (hfalse.symm.trans (same_refl k))
  | inside h _ ih =>
    intro heq
    exact ih ((wellFormed_map.1 hes).2 _ h).2 (List.cons_eq_cons.1 heq).2

/-! ## Listing them -/

/-- What is found of a value at a path: what is found below, if it is a mapping, or else the value
itself. -/
def cutOn (below : Entries → List (List Tree × Tree)) :
    List Tree × Tree → List (List Tree × Tree)
  | (path, .map es) => (below es).map fun c => (path ++ c.1, c.2)
  | c => [c]

/-- The entries with their keys as paths. -/
def onePath (es : Entries) : List (List Tree × Tree) := es.map fun e => ([e.1], e.2)

/-- The cut paths of a mapping and their values. -/
def cuts : (depth : Nat) → Entries → List (List Tree × Tree)
  | 0, es => onePath es
  | depth + 1, es => (onePath es).flatMap (cutOn (cuts depth))

theorem cutOn_of_not_map {below : Entries → List (List Tree × Tree)} {c : List Tree × Tree}
    (h : ∀ es, c.2 ≠ .map es) : cutOn below c = [c] := by
  obtain ⟨path, v⟩ := c
  cases v with
  | map es => exact absurd rfl (h es)
  | _ => rfl

theorem mem_cutOn {below : Entries → List (List Tree × Tree)} {c x : List Tree × Tree} :
    x ∈ cutOn below c ↔ (x = c ∧ ∀ es, c.2 ≠ .map es) ∨
      ∃ es y, c.2 = .map es ∧ y ∈ below es ∧ x = (c.1 ++ y.1, y.2) := by
  obtain ⟨path, v⟩ := c
  cases v with
  | map es =>
    rw [cutOn, List.mem_map]
    constructor
    · rintro ⟨y, hy, rfl⟩
      exact .inr ⟨es, y, rfl, hy, rfl⟩
    · rintro (⟨-, h⟩ | ⟨es', y, hes, hy, rfl⟩)
      · exact absurd rfl (h es)
      · cases hes
        exact ⟨y, hy, rfl⟩
  | _ => rw [cutOn_of_not_map (by simp)]; simp

theorem mem_onePath {es : Entries} {path : List Tree} {v : Tree} :
    (path, v) ∈ onePath es ↔ ∃ key, path = [key] ∧ (key, v) ∈ es := by
  rw [onePath, List.mem_map]
  constructor
  · rintro ⟨e, he, heq⟩
    cases heq
    exact ⟨e.1, rfl, he⟩
  · rintro ⟨key, rfl, he⟩
    exact ⟨(key, v), he, rfl⟩

theorem mem_cuts {depth : Nat} {es : Entries} {path : List Tree} {v : Tree} :
    (path, v) ∈ cuts depth es ↔ IsCut depth es path v := by
  induction depth generalizing es path v with
  | zero => rw [isCut_zero, cuts, mem_onePath]
  | succ depth ih =>
    rw [isCut_succ, cuts, List.mem_flatMap]
    constructor
    · rintro ⟨⟨first, value⟩, hfirst, hmem⟩
      obtain ⟨key, rfl, he⟩ := mem_onePath.1 hfirst
      obtain ⟨heq, hends⟩ | ⟨below, y, rfl, hy, heq⟩ := mem_cutOn.1 hmem
      · cases heq
        exact .inl ⟨key, rfl, he, hends⟩
      · cases heq
        exact .inr ⟨key, below, y.1, rfl, he, ih.1 hy⟩
    · rintro (⟨key, rfl, he, hends⟩ | ⟨key, below, rest, rfl, he, hcut⟩)
      · exact ⟨([key], v), mem_onePath.2 ⟨key, rfl, he⟩, mem_cutOn.2 (.inl ⟨rfl, hends⟩)⟩
      · exact ⟨([key], .map below), mem_onePath.2 ⟨key, rfl, he⟩,
          mem_cutOn.2 (.inr ⟨below, (rest, v), rfl, ih.2 hcut, rfl⟩)⟩

/-- They are listed in the order of the document. -/
theorem pairwise_cuts (depth : Nat) (es : Entries) :
    (cuts depth es).Pairwise fun a b => Precedes es a.1 b.1 := by
  induction depth generalizing es with
  | zero =>
    rw [cuts, onePath, List.pairwise_map, List.pairwise_iff_forall_sublist]
    exact fun h => .apart (h.map Prod.fst)
  | succ depth ih =>
    rw [cuts, onePath, List.flatMap_map, List.pairwise_flatMap]
    refine ⟨fun ⟨key, value⟩ he => ?_, List.pairwise_iff_forall_sublist.2 fun h x hx y hy => ?_⟩
    · cases value with
      | map below => exact List.pairwise_map.2 ((ih below).imp fun h => .inside he h)
      | _ => exact List.pairwise_singleton _ _
    · -- what is found behind an entry begins with its key
      have hhead {e : Tree × Tree} {x : List Tree × Tree}
          (hx : x ∈ cutOn (cuts depth) ([e.1], e.2)) : ∃ p, x.1 = e.1 :: p := by
        obtain ⟨rfl, -⟩ | ⟨below, y, -, -, rfl⟩ := mem_cutOn.1 hx
        · exact ⟨[], rfl⟩
        · exact ⟨y.1, rfl⟩
      obtain ⟨p, hp⟩ := hhead hx
      obtain ⟨q, hq⟩ := hhead hy
      rw [hp, hq]
      exact .apart (h.map Prod.fst)

theorem map_cutOn (below : Entries → List (List Tree × Tree)) (path : List Tree)
    (c : List Tree × Tree) :
    (cutOn below c).map (fun x => (path ++ x.1, x.2)) = cutOn below (path ++ c.1, c.2) := by
  obtain ⟨p, v⟩ := c
  cases v with
  | map es =>
    rw [cutOn, cutOn, List.map_map]
    exact List.map_congr_left fun x _ => by simp [List.append_assoc]
  | _ => rfl

/-- A mapping is cut deeper by cutting on what has been found. -/
theorem cuts_add (d e : Nat) (es : Entries) :
    cuts (d + (e + 1)) es = (cuts d es).flatMap (cutOn (cuts e)) := by
  induction d generalizing es with
  | zero => rw [Nat.zero_add, cuts, cuts]
  | succ d ih =>
    rw [Nat.succ_add, cuts, cuts, List.flatMap_assoc]
    refine List.flatMap_congr fun c _ => ?_
    obtain ⟨path, v⟩ := c
    cases v with
    | map below =>
      rw [cutOn, cutOn, ih, List.map_flatMap, List.flatMap_map]
      exact List.flatMap_congr fun y _ => map_cutOn _ _ _
    | _ => rfl

theorem ne_nil_of_mem_cuts {depth : Nat} {es : Entries} {c : List Tree × Tree}
    (h : c ∈ cuts depth es) : c.1 ≠ [] := (mem_cuts.1 h).reaches.ne_nil

/-! ## Joined keys -/

variable {sep : String}

theorem keyText_joined (sep : String) (path : List Tree) :
    Yaml.keyText (joined sep path) = sep.intercalate (path.map Yaml.keyText) := by
  match path with
  | [] => rfl
  | [key] => rw [joined, List.map_singleton, String.intercalate_singleton]
  | _ :: _ :: _ => rfl

theorem joined_append {p q : List Tree} (hp : p ≠ []) (hq : q ≠ []) :
    joined sep (p ++ q) =
      .str (Yaml.keyText (joined sep p) ++ sep ++ Yaml.keyText (joined sep q)) := by
  have hlong : joined sep (p ++ q) = .str (sep.intercalate ((p ++ q).map Yaml.keyText)) := by
    obtain ⟨a, p, rfl⟩ := List.exists_cons_of_ne_nil hp
    obtain ⟨b, q, rfl⟩ := List.exists_cons_of_ne_nil hq
    cases p <;> rfl
  rw [hlong, keyText_joined, keyText_joined, List.map_append,
    String.intercalate_append_of_ne_nil (by simpa using hp) (by simpa using hq)]

theorem joined_cons {key : Tree} {path : List Tree} (h : path ≠ []) :
    joined sep (key :: path) =
      .str (Yaml.keyText key ++ sep ++ Yaml.keyText (joined sep path)) :=
  joined_append (List.cons_ne_nil key []) h

theorem joined_joined {p q : List Tree} (hp : p ≠ []) (hq : q ≠ []) :
    joined sep (joined sep p :: q) = joined sep (p ++ q) := by
  rw [joined_cons hq, joined_append hp hq]

/-- A joined key is the only key of its path or a text. -/
theorem joined_cases (sep : String) (path : List Tree) :
    (∃ key, path = [key]) ∨ ∃ s, joined sep path = .str s := by
  match path with
  | [] => exact .inr ⟨_, rfl⟩
  | [key] => exact .inl ⟨key, rfl⟩
  | _ :: _ :: _ => exact .inr ⟨_, rfl⟩

/-- Keys that differ behind another key differ without it. -/
theorem joined_apart {es : Entries} (hes : WellFormed (.map es)) {key : Tree} {p q : List Tree}
    (hprecedes : Precedes es p q) (hp : p ≠ []) (hq : q ≠ [])
    (h : (joined sep (key :: p)).same (joined sep (key :: q)) = false) :
    (joined sep p).same (joined sep q) = false := by
  have hne : joined sep p ≠ joined sep q := by
    intro heq
    rw [joined_cons hp, joined_cons hq, heq, same_refl] at h
    cases h
  obtain ⟨s, hs⟩ | ⟨s, hs⟩ | ⟨⟨k, rfl⟩, ⟨l, rfl⟩⟩ :
      (∃ s, joined sep p = .str s) ∨ (∃ s, joined sep q = .str s) ∨
        (∃ k, p = [k]) ∧ ∃ l, q = [l] := by
    rcases joined_cases sep p with hp | hp
    · rcases joined_cases sep q with hq | hq
      · exact .inr (.inr ⟨hp, hq⟩)
      · exact .inr (.inl hq)
    · exact .inl hp
  · rw [hs] at hne ⊢
    exact Bool.eq_false_iff.2 fun hsame => hne (str_same.1 hsame).symm
  · rw [hs] at hne ⊢
    exact same_str_eq_false.2 hne
  · -- two keys of one mapping
    cases hprecedes with
    | apart h =>
      exact List.pairwise_iff_forall_sublist.1
        (Entries.distinct_iff_keys.1 (wellFormed_map.1 hes).1) h
    | inside _ hpath => cases hpath

/-- A value under the joined key of its path. -/
def joinedEntry (sep : String) (c : List Tree × Tree) : Tree × Tree := (joined sep c.1, c.2)

/-- What is told apart in a mapping is told apart in a mapping below it. -/
theorem distinct_below {depth : Nat} {es below : Entries} {key : Tree}
    (hbelow : WellFormed (.map below)) (he : (key, .map below) ∈ es)
    (h : Entries.Distinct ((cuts (depth + 1) es).map (joinedEntry sep))) :
    Entries.Distinct ((cuts depth below).map (joinedEntry sep)) := by
  have hsub : ((cuts depth below).map fun c => ([key] ++ c.1, c.2)).Sublist
      (cuts (depth + 1) es) := by
    rw [cuts, List.flatMap_def]
    exact List.sublist_flatten_of_mem
      (List.mem_map.2 ⟨([key], .map below), mem_onePath.2 ⟨key, rfl, he⟩, rfl⟩)
  have hbehind := List.Pairwise.sublist (hsub.map (joinedEntry sep)) h
  rw [List.map_map, List.pairwise_map] at hbehind
  rw [Entries.Distinct, List.pairwise_map]
  exact (hbehind.and (pairwise_cuts depth below)).imp_of_mem fun ha hb hboth =>
    joined_apart hbelow hboth.2 (ne_nil_of_mem_cuts ha) (ne_nil_of_mem_cuts hb) hboth.1

theorem distinct_of_cutsApart {depth : Nat} {es : Entries} (hes : WellFormed (.map es))
    (h : CutsApart sep depth es) : Entries.Distinct ((cuts depth es).map (joinedEntry sep)) := by
  rw [Entries.Distinct, List.pairwise_map]
  exact (pairwise_cuts depth es).imp_of_mem fun ha hb hprecedes =>
    h _ _ _ _ (mem_cuts.1 ha) (mem_cuts.1 hb) (hprecedes.ne hes)

instance (sep : String) (depth : Nat) (es : Entries) : Decidable (CutsApart sep depth es) :=
  decidable_of_iff (∀ a ∈ cuts depth es, ∀ b ∈ cuts depth es, a.1 ≠ b.1 →
      (joined sep a.1).same (joined sep b.1) = false)
    ⟨fun h p v q w hp hq => h (p, v) (mem_cuts.2 hp) (q, w) (mem_cuts.2 hq),
      fun h _ ha _ hb => h _ _ _ _ (mem_cuts.1 ha) (mem_cuts.1 hb)⟩

/-! ## Flattening -/

theorem put_of_distinct {flat rest : Entries} {e : Tree × Tree}
    (h : Entries.Distinct (flat ++ e :: rest)) : Entries.put flat e.1 e.2 = flat ++ [e] := by
  have hnew : ∀ f ∈ flat, f.1.same e.1 = false := fun f hf =>
    (List.pairwise_append.1 h).2.2 f hf _ List.mem_cons_self
  clear h
  induction flat with
  | nil => rfl
  | cons f flat ih =>
    obtain ⟨hfirst, hflat⟩ := List.forall_mem_cons.1 hnew
    rw [Entries.put, if_neg (by rw [hfirst]; exact Bool.false_ne_true), ih hflat]
    rfl

/-- An entry with its key joined to the text of another key. -/
def behind (sep lead : String) (e : Tree × Tree) : Tree × Tree :=
  (.str (lead ++ sep ++ Yaml.keyText e.1), e.2)

theorem joinInto_cons (flat : Entries) (lead sep : String) (e : Tree × Tree) (inner : Entries) :
    joinInto flat lead sep (e :: inner) =
      joinInto (Entries.put flat (behind sep lead e).1 (behind sep lead e).2) lead sep inner := rfl

/-- Entries with new keys are put behind those that are there. -/
theorem joinInto_of_distinct {lead : String} {flat inner : Entries}
    (h : Entries.Distinct (flat ++ inner.map (behind sep lead))) :
    joinInto flat lead sep inner = flat ++ inner.map (behind sep lead) := by
  induction inner generalizing flat with
  | nil => exact (List.append_nil flat).symm
  | cons e inner ih =>
    rw [List.map_cons] at h ⊢
    rw [joinInto_cons, put_of_distinct h]
    rw [List.append_cons] at h
    rw [ih h, ← List.append_cons]

theorem cuts_succ (depth : Nat) (es : Entries) :
    cuts (depth + 1) es = (onePath es).flatMap (cutOn (cuts depth)) := rfl

theorem cuts_succ_cons (depth : Nat) (key value : Tree) (rest : Entries) :
    cuts (depth + 1) ((key, value) :: rest) =
      cutOn (cuts depth) ([key], value) ++ cuts (depth + 1) rest := rfl

/-- The entries of a flattened value with their keys joined are the cut paths behind its key. -/
theorem map_behind (depth : Nat) (key : Tree) (below : Entries) :
    ((cuts depth below).map (joinedEntry sep)).map (behind sep (Yaml.keyText key)) =
      (cutOn (cuts depth) ([key], .map below)).map (joinedEntry sep) := by
  rw [cutOn, List.map_map, List.map_map]
  refine List.map_congr_left fun c hc => ?_
  rw [Function.comp_apply, Function.comp_apply, joinedEntry, joinedEntry, behind,
    List.singleton_append, joined_cons (ne_nil_of_mem_cuts hc)]

theorem flattenInto_cons_map {depth : Nat} {flat rest below : Entries} {key value : Tree}
    (h : flatten sep depth value = .map below) :
    flattenInto sep depth flat ((key, value) :: rest) =
      flattenInto sep depth (joinInto flat (Yaml.keyText key) sep below) rest := by
  rw [flattenInto, h]

theorem flattenInto_cons_of_not_map {depth : Nat} {flat rest : Entries} {key value : Tree}
    (h : ∀ below, value ≠ .map below) :
    flattenInto sep depth flat ((key, value) :: rest) =
      flattenInto sep depth (Entries.put flat key value) rest := by
  rw [flattenInto, flatten_of_not_map h]
  cases value with
  | map below => exact absurd rfl (h below)
  | _ => rfl

/-- A step of flattening, its keys being new: the mappings below have been flattened. -/
theorem flattenInto_of_distinct {depth : Nat} {es flat : Entries}
    (hbelow : ∀ key below, (key, .map below) ∈ es → flatten sep depth (.map below) =
      .map ((cuts depth below).map (joinedEntry sep)))
    (h : Entries.Distinct (flat ++ (cuts (depth + 1) es).map (joinedEntry sep))) :
    flattenInto sep depth flat es = flat ++ (cuts (depth + 1) es).map (joinedEntry sep) := by
  induction es generalizing flat with
  | nil => rw [flattenInto]; exact (List.append_nil flat).symm
  | cons e rest ih =>
    obtain ⟨key, value⟩ := e
    have hrest := fun key below he => hbelow key below (List.mem_cons_of_mem _ he)
    rw [cuts_succ_cons, List.map_append, ← List.append_assoc] at h ⊢
    by_cases hvalue : ∃ below, value = .map below
    · obtain ⟨below, rfl⟩ := hvalue
      rw [← map_behind] at h ⊢
      rw [flattenInto_cons_map (hbelow key below List.mem_cons_self),
        joinInto_of_distinct (h.sublist (List.sublist_append_left _ _)), ih hrest h]
    · rw [cutOn_of_not_map (not_exists.1 hvalue), List.map_singleton] at h ⊢
      have hput := put_of_distinct (List.append_assoc _ _ _ ▸ h)
      rw [flattenInto_cons_of_not_map (not_exists.1 hvalue)]
      exact (congrArg (flattenInto sep depth · rest) hput).trans (ih hrest h)

/-- Flattening puts the values at the cut paths under their joined keys. -/
theorem flatten_eq_cuts {depth : Nat} {es : Entries} (hes : WellFormed (.map es))
    (h : Entries.Distinct ((cuts depth es).map (joinedEntry sep))) :
    flatten sep depth (.map es) = .map ((cuts depth es).map (joinedEntry sep)) := by
  induction depth generalizing es with
  | zero =>
    rw [flatten_zero, cuts, onePath, List.map_map]
    exact congrArg _ (List.map_id es).symm
  | succ depth ih =>
    have hbelow (key below) (he : (key, .map below) ∈ es) :
        flatten sep depth (.map below) = .map ((cuts depth below).map (joinedEntry sep)) :=
      have hwf := ((wellFormed_map.1 hes).2 _ he).2
      ih hwf (distinct_below hwf he h)
    rw [flatten_map_succ, flattenInto_of_distinct hbelow h, List.nil_append]

/-- What has been flattened is cut where the mapping is cut deeper, under the same joined keys. -/
theorem cuts_flattened (d e : Nat) (es : Entries) :
    (cuts (e + 1) ((cuts d es).map (joinedEntry sep))).map (joinedEntry sep) =
      (cuts (d + (e + 1)) es).map (joinedEntry sep) := by
  rw [cuts_add d, cuts_succ e, onePath, List.map_map, List.flatMap_map, List.map_flatMap,
    List.map_flatMap]
  refine List.flatMap_congr fun c hc => ?_
  have hpath := ne_nil_of_mem_cuts hc
  obtain ⟨path, v⟩ := c
  cases v with
  | map below =>
    -- cutting on, from the one joined key or from the path
    change (List.map _ (List.map _ _)) = List.map _ (List.map _ _)
    rw [List.map_map, List.map_map]
    refine List.map_congr_left fun x hx => ?_
    have hbelow := ne_nil_of_mem_cuts hx
    exact Prod.ext (joined_joined hpath hbelow) rfl
  | _ => rfl

theorem flatten_flatten {d e : Nat} {es : Entries} (hes : WellFormed (.map es))
    (hd : Entries.Distinct ((cuts d es).map (joinedEntry sep)))
    (hde : Entries.Distinct ((cuts (d + e) es).map (joinedEntry sep))) :
    flatten sep e (flatten sep d (.map es)) = flatten sep (d + e) (.map es) := by
  cases e with
  | zero => rw [flatten_zero, Nat.add_zero]
  | succ e =>
    have hflat := hes.flatten sep d
    rw [flatten_eq_cuts hes hd] at hflat ⊢
    rw [flatten_eq_cuts hflat (cuts_flattened d e es ▸ hde), cuts_flattened,
      flatten_eq_cuts hes hde]

/-- **Flattening keeps every value.** If the joined keys of the cut paths are different, then a
flattened mapping holds the values at the cut paths, each once, under the joined keys and in the
order of the document. Flattening by one depth and then by another is flattening by their sum. -/
theorem flatten_keeps_cuts {es : Entries} (hes : WellFormed (.map es)) (sep : String) :
    (∀ depth, CutsApart sep depth es →
      ∃ flat, flatten sep depth (.map es) = .map flat ∧ HoldsCuts sep depth es flat) ∧
    ∀ d e, CutsApart sep d es → CutsApart sep (d + e) es →
      flatten sep e (flatten sep d (.map es)) = flatten sep (d + e) (.map es) := by
  refine ⟨fun depth h => ⟨_, flatten_eq_cuts hes (distinct_of_cutsApart hes h), cuts depth es,
    rfl, fun _ _ => mem_cuts, ?_, pairwise_cuts depth es⟩, fun d e hd hde =>
    flatten_flatten hes (distinct_of_cutsApart hes hd) (distinct_of_cutsApart hes hde)⟩
  rw [List.Nodup, List.pairwise_map]
  exact (pairwise_cuts depth es).imp fun hprecedes => hprecedes.ne hes

/-- A mapping with a key that is no text, an empty mapping and a mapping under a tag. -/
def nestedThrice : Entries :=
  [(.str "a", .map [(.int 1, .map [(.str "b", .bool true), (.bool true, .null)]),
      (.null, .map [])]),
    (.int 2, .map [(.str "c", .tagged "!t" (.map [(.str "d", .null)]))]), (.str "e", .seq [])]

/-- Three levels of keys are joined by two flattenings as by one. -/
theorem nestedThrice_flattened : WellFormed (.map nestedThrice) ∧
    CutsApart "__" 1 nestedThrice ∧ CutsApart "__" 2 nestedThrice ∧
    (∃ flat, flatten "__" 2 (.map nestedThrice) = .map flat ∧
      HoldsCuts "__" 2 nestedThrice flat) ∧
    flatten "__" 1 (flatten "__" 1 (.map nestedThrice)) = flatten "__" 2 (.map nestedThrice) ∧
    flatten "__" 2 (.map nestedThrice) = .map [(.str "a__1__b", .bool true),
      (.str "a__1__true", .null),
      (.str "2__c", .tagged "!t" (.map [(.str "d", .null)])), (.str "e", .seq [])] := by
  have hwf : WellFormed (.map nestedThrice) := by decide
  have hone : CutsApart "__" 1 nestedThrice := by decide +kernel
  have htwo : CutsApart "__" 2 nestedThrice := by decide +kernel
  obtain ⟨hholds, hsum⟩ := flatten_keeps_cuts hwf "__"
  exact ⟨hwf, hone, htwo, hholds 2 htwo, hsum 1 1 hone htwo, by decide +kernel⟩

end LayeredConfig.Tree
