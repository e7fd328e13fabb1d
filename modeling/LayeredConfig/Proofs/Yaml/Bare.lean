import LayeredConfig.Proofs.Yaml
import Mathlib.Data.List.Nodup

/-!
# Reading bare documents

In a document without tags and aliases each node says by itself what tree it stands for (`Stands`).
The decoders for values of a known kind never look at that tree: a text is taken from any scalar, a
number from any plain one. But from a node that stands for a text they read the text, from one that
stands for a number the number, and so on (`Takes`), up to records whose fields may be left out. So
a text that is read back as the tree that was written is also read back as the value whose tree it
is (`Spells.decode`).
-/

namespace LayeredConfig.Yaml

variable {α β : Type} {depth : Nat}

/-! ## Bare nodes -/

mutual

/-- Neither a tag nor an alias is in the node. -/
def Node.isBare : Node → Bool
  | .alias _ => false
  | .scalar tag _ _ => tag.isNone
  | .sequence tag items => tag.isNone && Node.areBare items
  | .mapping tag entries => tag.isNone && Node.inBare entries

/-- Neither a tag nor an alias is in the items. -/
def Node.areBare : List Node → Bool
  | [] => true
  | item :: rest => item.isBare && Node.areBare rest

/-- Neither a tag nor an alias is in the keys and values. -/
def Node.inBare : List (Node × Node) → Bool
  | [] => true
  | (key, value) :: rest => key.isBare && value.isBare && Node.inBare rest

end

theorem Node.areBare_iff {items : List Node} :
    Node.areBare items = true ↔ ∀ item ∈ items, item.isBare = true := by
  induction items with
  | nil => simp [areBare]
  | cons item rest ih => rw [areBare, Bool.and_eq_true, ih, List.forall_mem_cons]

theorem Node.inBare_iff {entries : List (Node × Node)} :
    Node.inBare entries = true ↔ ∀ e ∈ entries, e.1.isBare = true ∧ e.2.isBare = true := by
  induction entries with
  | nil => simp [inBare]
  | cons e rest ih =>
    rw [inBare, Bool.and_eq_true, Bool.and_eq_true, ih, List.forall_mem_cons]

/-- What a bare node can be. -/
theorem Node.cases_of_isBare {node : Node} (h : node.isBare = true) :
    (∃ text style, node = .scalar none text style) ∨
      (∃ items, node = .sequence none items ∧ ∀ item ∈ items, item.isBare = true) ∨
      ∃ entries, node = .mapping none entries ∧
        ∀ e ∈ entries, e.1.isBare = true ∧ e.2.isBare = true := by
  obtain _ | ⟨_ | tag, text, style⟩ | ⟨_ | tag, items⟩ | ⟨_ | tag, entries⟩ := node
  · cases h
  · exact .inl ⟨text, style, rfl⟩
  · cases h
  · exact .inr (.inl ⟨items, rfl, Node.areBare_iff.1 h⟩)
  · cases h
  · exact .inr (.inr ⟨entries, rfl, Node.inBare_iff.1 h⟩)
  · cases h

theorem Node.resolve_of_isBare {node : Node} (h : node.isBare = true) :
    node.resolve = pure node := by
  obtain ⟨text, style, rfl⟩ | ⟨items, rfl, -⟩ | ⟨entries, rfl, -⟩ := Node.cases_of_isBare h
  all_goals rfl

/-- A tree stands in a bare node, with so many levels of collections at most. -/
def Stands : (depth : Nat) → Node → Tree → Prop
  | _, .scalar none text style, t => scalarValue none text style = .ok t
  | depth + 1, .sequence none items, .seq ts => List.Forall₂ (Stands depth) items ts
  | depth + 1, .mapping none entries, .map es =>
    List.Forall₂ (fun n e => Stands depth n.1 e.1 ∧ Stands depth n.2 e.2) entries es
  | _, _, _ => False

theorem Yields.forall₂ {R : β → α → Prop} {f : β → Decoding α} {bs : List β}
    (hf : ∀ b ∈ bs, Yields (f b) (R b)) : Yields (bs.mapM f) (List.Forall₂ R bs) := by
  induction bs with
  | nil => exact Yields.pure .nil
  | cons b rest ih =>
    obtain ⟨hfirst, hrest⟩ := List.forall_mem_cons.1 hf
    rw [List.mapM_cons]
    exact hfirst.bind fun a ha => (ih hrest).bind fun as has => Yields.pure (.cons ha has)

/-- Entries are put behind those that are there. -/
theorem Yields.appended {f : Entries → Node × Node → Decoding Entries}
    {R : Node × Node → Tree × Tree → Prop} {entries : List (Node × Node)}
    (hf : ∀ es, ∀ n ∈ entries, Yields (f es n) fun es' => ∃ e, es' = es ++ [e] ∧ R n e)
    (es : Entries) : Yields (entries.foldlM f es) fun es' =>
      ∃ more, es' = es ++ more ∧ List.Forall₂ R entries more := by
  induction entries generalizing es with
  | nil => exact Yields.pure ⟨[], (List.append_nil es).symm, .nil⟩
  | cons n rest ih =>
    rw [List.foldlM_cons]
    refine (hf es n List.mem_cons_self).bind fun es₁ hfirst => ?_
    obtain ⟨e, hes₁, he⟩ := hfirst
    intro doc k es₂ k' hrun
    obtain ⟨more, hes₂, hmore⟩ := ih (fun es m hm => hf es m (List.mem_cons_of_mem _ hm)) es₁ hrun
    exact ⟨e :: more, by rw [hes₂, hes₁, List.append_assoc, List.singleton_append],
      .cons he hmore⟩

theorem addEntry_eq_ok {es es' : Entries} {key value : Tree}
    (h : addEntry es key value = .ok es') : es' = es ++ [(key, value)] := by
  unfold addEntry at h
  split at h <;> cases h
  rfl

/-- What is read from a bare node stands in it. -/
theorem yields_stands {node : Node} (h : node.isBare = true) :
    Yields (Decoder.tree depth node) (Stands depth node) := by
  induction depth generalizing node with
  | zero =>
    unfold Decoder.tree
    rw [Node.resolve_of_isBare h, pure_bind]
    obtain ⟨text, style, rfl⟩ | ⟨items, rfl, -⟩ | ⟨entries, rfl, -⟩ := Node.cases_of_isBare h
    · exact Yields.lift fun t ht => by rwa [Stands]
    · exact Yields.throw _
    · exact Yields.throw _
  | succ depth ih =>
    unfold Decoder.tree
    rw [Node.resolve_of_isBare h, pure_bind]
    obtain ⟨text, style, rfl⟩ | ⟨items, rfl, hitems⟩ | ⟨entries, rfl, hentries⟩ :=
      Node.cases_of_isBare h
    · exact Yields.lift fun t ht => by rwa [Stands]
    · refine (Yields.forall₂ fun item hitem => ih (hitems item hitem)).bind fun ts hts => ?_
      exact Yields.pure (by rwa [underTag, localTag?, Option.map_none, Stands])
    · refine (Yields.appended (R := fun n e => Stands depth n.1 e.1 ∧ Stands depth n.2 e.2)
        (fun es n hn => ?_) []).bind fun es hes => ?_
      · refine (ih (hentries n hn).1).bind fun key hkey => ?_
        split
        · exact (Yields.throw (Q := fun _ => False) _).bind fun _ h => h.elim
        · refine (ih (hentries n hn).2).bind fun value hvalue => Yields.lift fun es' hadd => ?_
          exact ⟨(key, value), addEntry_eq_ok hadd, hkey, hvalue⟩
      · obtain ⟨more, hes, hmore⟩ := hes
        rw [List.nil_append] at hes
        exact Yields.pure (by rwa [underTag, localTag?, Option.map_none, Stands, hes])

/-! ## Scalars -/

/-- Only null is left out. -/
theorem full_of_plainValue {text : String} {t : Tree} (h : plainValue text = .ok t)
    (ht : t ≠ .null) : (text.isEmpty || isNullWord text) = false := by
  unfold plainValue at h
  split at h
  · cases h
    exact absurd rfl ht
  next hfull => exact Bool.eq_false_iff.2 hfull

theorem scalarValue_ne_seq {text : String} {style : Style} {ts : List Tree} :
    scalarValue none text style ≠ .ok (.seq ts) := fun h => scalarValue_isScalar h

theorem scalarValue_ne_map {text : String} {style : Style} {es : Entries} :
    scalarValue none text style ≠ .ok (.map es) := fun h => scalarValue_isScalar h

/-- A sequence stands in a sequence. -/
theorem Stands.seq {node : Node} {ts : List Tree} (h : Stands depth node (.seq ts)) :
    ∃ d items, depth = d + 1 ∧ node = .sequence none items ∧
      List.Forall₂ (Stands d) items ts := by
  unfold Stands at h
  split at h
  · exact absurd h scalarValue_ne_seq
  next heq =>
    cases heq
    exact ⟨_, _, rfl, rfl, h⟩
  next heq => cases heq
  · exact h.elim

/-- A mapping stands in a mapping. -/
theorem Stands.map {node : Node} {es : Entries} (h : Stands depth node (.map es)) :
    ∃ d entries, depth = d + 1 ∧ node = .mapping none entries ∧
      List.Forall₂ (fun n e => Stands d n.1 e.1 ∧ Stands d n.2 e.2) entries es := by
  unfold Stands at h
  split at h
  · exact absurd h scalarValue_ne_map
  next heq => cases heq
  next heq =>
    cases heq
    exact ⟨_, _, rfl, rfl, h⟩
  · exact h.elim

/-- What is not a collection stands in a scalar. -/
theorem Stands.of_isScalar {node : Node} {t : Tree} (h : Stands depth node t)
    (ht : t.IsScalar) :
    ∃ text style, node = .scalar none text style ∧ scalarValue none text style = .ok t := by
  unfold Stands at h
  split at h
  · exact ⟨_, _, rfl, h⟩
  · exact ht.elim
  · exact ht.elim
  · exact h.elim

/-- A scalar that is not quoted stands for what it says, a quoted one for its text. -/
theorem scalarValue_cases {text : String} {style : Style} {t : Tree}
    (h : scalarValue none text style = .ok t) :
    style = .plain ∧ plainValue text = .ok t ∨ style ≠ .plain ∧ t = .str text := by
  unfold scalarValue at h
  dsimp only at h
  split at h
  next hplain => exact .inl ⟨eq_of_beq hplain, h⟩
  next hquoted =>
    cases h
    exact .inr ⟨fun hplain => hquoted (beq_iff_eq.2 hplain), rfl⟩

/-! ## Decodings that succeed -/

/-- The decoding reads a certain value and follows no alias, whatever the document is. -/
def Reads (x : Decoding α) (a : α) : Prop :=
  ∀ doc n, (x.run doc).run n = .ok (a, n)

namespace Reads

theorem pure (a : α) : Reads (pure a) a := fun _ _ => rfl

theorem bind {x : Decoding α} {a : α} {f : α → Decoding β} {b : β} (hx : Reads x a)
    (hf : Reads (f a) b) : Reads (x >>= f) b := by
  intro doc n
  rw [ReaderT.run_bind, StateT.run_bind, hx doc n]
  exact hf doc n

theorem map {x : Decoding α} {a : α} (hx : Reads x a) (f : α → β) :
    Reads (do return f (← x)) (f a) := hx.bind (.pure (f a))

theorem mapM {f : β → Decoding α} {bs : List β} {as : List α}
    (h : List.Forall₂ (fun b a => Reads (f b) a) bs as) : Reads (bs.mapM f) as := by
  induction h with
  | nil => exact pure []
  | cons hfirst _ ih =>
    rw [List.mapM_cons]
    exact hfirst.bind (ih.bind (pure _))

end Reads

theorem Stands.resolves {node : Node} {t : Tree} (h : Stands depth node t) :
    Reads node.resolve node := by
  cases node with
  | «alias» anchor => simp only [Stands] at h
  | _ => exact Reads.pure _

/-- Wherever the tree stands, the decoder reads the value. -/
def Takes (value : Decoder α) (t : Tree) (a : α) : Prop :=
  ∀ ⦃depth node⦄, Stands depth node t → Reads (value depth node) a

namespace Takes

theorem text (s : String) : Takes Decoder.text (.str s) s := by
  intro depth node h
  obtain ⟨shown, style, rfl, hvalue⟩ := h.of_isScalar trivial
  have hshown : s = shown := by
    rcases scalarValue_cases hvalue with ⟨-, hplain⟩ | ⟨-, hquoted⟩
    · exact says_of_plainValue hplain
    · exact Tree.str.inj hquoted
  rw [hshown]
  exact Reads.pure shown

/-- What is neither a text nor a collection stands in a plain scalar. -/
theorem plain {node : Node} {t : Tree} (h : Stands depth node t) (ht : t.IsScalar)
    (hstr : ∀ s, t ≠ .str s) :
    ∃ text, node = .scalar none text .plain ∧ plainValue text = .ok t := by
  obtain ⟨text, style, rfl, hvalue⟩ := h.of_isScalar ht
  rcases scalarValue_cases hvalue with ⟨rfl, hplain⟩ | ⟨-, hquoted⟩
  · exact ⟨text, rfl, hplain⟩
  · exact absurd hquoted (hstr text)

theorem reads_bareScalar (kind text : String) :
    Reads (Decoder.bareScalar kind depth (.scalar none text .plain)) text := Reads.pure text

theorem float (x : Binary64) : Takes Decoder.float (.float x) x := by
  intro depth node h
  obtain ⟨text, rfl, hplain⟩ := plain h trivial nofun
  have hfloat : float? text = some x := says_of_plainValue hplain
  refine (reads_bareScalar "float" text).bind ?_
  rw [hfloat]
  exact Reads.pure x

theorem bool (b : Bool) : Takes Decoder.bool (.bool b) b := by
  intro depth node h
  obtain ⟨text, rfl, hplain⟩ := plain h trivial nofun
  have hbool : boolWord? text = some b := says_of_plainValue hplain
  refine (reads_bareScalar "bool" text).bind ?_
  rw [hbool]
  exact Reads.pure b

variable {value : Decoder α} {t : Tree} {a : α}

theorem optional (h : Takes value t a) (ht : t ≠ .null) :
    Takes (Decoder.optional value) t (some a) := by
  intro depth node hnode
  have hsome : Reads (do return some (← value depth node)) (some a) := (h hnode).map some
  refine hnode.resolves.bind ?_
  unfold Stands at hnode
  split at hnode
  next text style =>
    rcases scalarValue_cases hnode with ⟨rfl, hplain⟩ | ⟨hquoted, -⟩
    · dsimp only
      rw [full_of_plainValue hplain ht, if_neg Bool.false_ne_true]
      exact hsome
    · cases style with
      | plain => exact absurd rfl hquoted
      | _ => exact hsome
  · exact hsome
  · exact hsome
  · exact hnode.elim

theorem items {item : Decoder α} {nodes : List Node} {ts : List Tree} {as : List α}
    (hnodes : List.Forall₂ (Stands depth) nodes ts) (h : List.Forall₂ (Takes item) ts as) :
    List.Forall₂ (fun n a => Reads (item depth n) a) nodes as := by
  induction hnodes generalizing as with
  | nil =>
    cases h
    exact .nil
  | cons hfirst _ ih =>
    obtain _ | ⟨ha, has⟩ := h
    exact .cons (ha hfirst) (ih has)

theorem list {item : Decoder α} {ts : List Tree} {as : List α}
    (h : List.Forall₂ (Takes item) ts as) : Takes (Decoder.list item) (.seq ts) as := by
  intro depth node hnode
  refine hnode.resolves.bind ?_
  obtain ⟨depth, nodes, rfl, rfl, hnodes⟩ := hnode.seq
  exact Reads.mapM (items hnodes h)

end Takes

/-! ## Mappings with text keys -/

/-- The mapping of texts to trees. -/
def textMap (es : List (String × Tree)) : Tree := .map (es.map fun e => (.str e.1, e.2))

/-- The same names stand for nodes in one list and for what stands in these in the other. -/
def Shows (depth : Nat) (shown : List (String × Node)) (es : List (String × Tree)) : Prop :=
  List.Forall₂ (fun n e => n.1 = e.1 ∧ Stands depth n.2 e.2) shown es

/-- The entries of a mapping with text keys. -/
theorem reads_entries {node : Node} {es : List (String × Tree)}
    (h : Stands depth node (textMap es)) :
    ∃ d shown, Reads (Decoder.entries depth node) (d, shown) ∧ Shows d shown es := by
  obtain ⟨d, entries, rfl, rfl, hentries⟩ := h.map
  suffices ∃ shown, Reads (entries.mapM fun n => do return (← Decoder.text d n.1, n.2)) shown ∧
      Shows d shown es by
    obtain ⟨shown, hshown, hstands⟩ := this
    exact ⟨d, shown, hshown.map (d, ·), hstands⟩
  clear h
  induction es generalizing entries with
  | nil =>
    cases hentries
    exact ⟨[], Reads.pure [], .nil⟩
  | cons e rest ih =>
    obtain _ | ⟨⟨hkey, hvalue⟩, hrest⟩ := hentries
    rename_i n nodes
    obtain ⟨shown, hshown, hstands⟩ := ih nodes hrest
    refine ⟨(e.1, n.2) :: shown, ?_, .cons ⟨rfl, hvalue⟩ hstands⟩
    rw [List.mapM_cons]
    exact ((Takes.text e.1 hkey).map (·, n.2)).bind (hshown.bind (Reads.pure _))

theorem Takes.table {value : Decoder α} {es : List (String × Tree)} {as : List (String × α)}
    (h : List.Forall₂ (fun e a => e.1 = a.1 ∧ Takes value e.2 a.2) es as) :
    Takes (Decoder.table value) (textMap es) as := by
  intro depth node hnode
  obtain ⟨d, shown, hshown, hstands⟩ := reads_entries hnode
  refine hshown.bind (Reads.mapM ?_)
  clear hshown hnode
  induction hstands generalizing as with
  | nil =>
    cases h
    exact .nil
  | @cons n e _ _ hfirst _ ih =>
    obtain _ | @⟨_, a, _, _, ⟨hname, htakes⟩, hrest⟩ := h
    have hentry : (n.1, a.2) = a := Prod.ext (hfirst.1.trans hname) rfl
    exact .cons (hentry ▸ (htakes hfirst.2).map (n.1, ·)) (ih hrest)

/-! ## Records -/

/-- The fields of a record that are not left out. -/
def written (fields : List (String × Option Tree)) : List (String × Tree) :=
  fields.filterMap fun (name, t) => t.map (name, ·)

/-- The tree of a record with these fields, of which some may be left out. -/
def recordTree (fields : List (String × Option Tree)) : Tree := textMap (written fields)

/-- The entry of a field, unless it is left out. -/
def fieldEntry (name : String) (t : Option Tree) : Entries := t.elim [] fun t => [(.str name, t)]

/-- The tree of a record, field by field. -/
theorem recordTree_eq (fields : List (String × Option Tree)) :
    recordTree fields = .map (fields.flatMap fun f => fieldEntry f.1 f.2) := by
  refine congrArg Tree.map ?_
  induction fields with
  | nil => rfl
  | cons f rest ih =>
    obtain ⟨name, _ | t⟩ := f
    · exact ih
    · exact congrArg _ ih

theorem map_fst_written_sublist (fields : List (String × Option Tree)) :
    ((written fields).map Prod.fst).Sublist (fields.map Prod.fst) := by
  induction fields with
  | nil => exact .slnil
  | cons field rest ih =>
    obtain ⟨name, _ | t⟩ := field
    · exact ih.cons name
    · exact ih.cons_cons name

theorem find?_written {fields : List (String × Option Tree)} {name : String} {t : Option Tree}
    (hnames : (fields.map Prod.fst).Nodup) (h : (name, t) ∈ fields) :
    (written fields).find? (fun e => e.1 == name) = t.map (name, ·) := by
  induction fields with
  | nil => cases h
  | cons field rest ih =>
    obtain ⟨hnew, hrest⟩ := List.nodup_cons.1 hnames
    rcases List.mem_cons.1 h with rfl | hmem
    · cases t with
      | none =>
        refine List.find?_eq_none.2 fun e he hname => hnew ?_
        exact eq_of_beq hname ▸ (map_fst_written_sublist rest).subset (List.mem_map_of_mem he)
      | some t => exact List.find?_cons_of_pos (beq_self_eq_true name)
    · have hother : field.1 ≠ name := fun hname => hnew (hname ▸ List.mem_map_of_mem hmem)
      obtain ⟨other, _ | u⟩ := field
      · exact ih hrest hmem
      · exact (List.find?_cons_of_neg (by simpa using hother)).trans (ih hrest hmem)

theorem Shows.map_fst {shown : List (String × Node)} {es : List (String × Tree)}
    (h : Shows depth shown es) : shown.map Prod.fst = es.map Prod.fst := by
  induction h with
  | nil => rfl
  | cons hfirst _ ih => rw [List.map_cons, List.map_cons, hfirst.1, ih]

theorem Shows.find? {shown : List (String × Node)} {es : List (String × Tree)}
    (h : Shows depth shown es) (name : String) :
    Option.Rel (fun n e => Stands depth n.2 e.2) (shown.find? fun n => n.1 == name)
      (es.find? fun e => e.1 == name) := by
  induction h with
  | nil => exact .none
  | @cons n e _ _ hfirst _ ih =>
    rw [List.find?_cons, List.find?_cons, hfirst.1]
    cases e.1 == name with
    | true => exact .some hfirst.2
    | false => exact ih

/-- A field stands among those that were found if it was written, and else is not among them. -/
def HasField (found : Nat × List (String × Node)) (name : String) (t : Option Tree) : Prop :=
  Option.Rel (fun n t => Stands found.1 n.2 t) (found.2.find? fun n => n.1 == name) t

/-- All that was written of a record is found. -/
theorem reads_record {fields : List (String × Option Tree)} {node : Node} (names : List String)
    (hfields : fields.map Prod.fst = names) (hnames : names.Nodup)
    (h : Stands depth node (recordTree fields)) :
    ∃ found, Reads (Decoder.record names depth node) found ∧
      fields.Forall fun f => HasField found f.1 f.2 := by
  subst hfields
  obtain ⟨d, shown, hshown, hstands⟩ := reads_entries h
  have hsublist : (shown.map Prod.fst).Sublist (fields.map Prod.fst) := by
    rw [hstands.map_fst]
    exact map_fst_written_sublist fields
  have hknown : shown.filter (fun e => (fields.map Prod.fst).contains e.1) = shown :=
    List.filter_eq_self.2 fun e he =>
      List.contains_iff_mem.2 (hsublist.subset (List.mem_map_of_mem he))
  -- No field was written twice, so none is refused.
  have honce : ((fields.map Prod.fst).any fun n =>
      1 < (shown.filter (·.1 == n)).length) = false := by
    refine List.any_eq_false.2 fun n _ => ?_
    have hcount := List.nodup_iff_count_le_one.1 (hnames.sublist hsublist) n
    rw [List.count, List.countP_map, List.countP_eq_length_filter] at hcount
    rw [decide_eq_true_eq, Nat.not_lt]
    exact hcount
  refine ⟨(d, shown), ?_, List.forall_iff_forall_mem.2 fun f hf => ?_⟩
  · refine hshown.bind ?_
    dsimp only
    rw [hknown, honce]
    exact Reads.pure (d, shown)
  · obtain ⟨name, t⟩ := f
    have hfind := hstands.find? name
    rw [find?_written hnames hf] at hfind
    unfold HasField
    generalize shown.find? _ = n at hfind ⊢
    cases t with
    | none =>
      cases hfind
      exact .none
    | some t =>
      obtain ⟨hn⟩ := hfind
      exact .some hn

namespace HasField

variable {found : Nat × List (String × Node)} {name : String} {value : Decoder α}

theorem field {t : Tree} {a : α} (h : HasField found name (some t)) (ht : Takes value t a) :
    Reads (Decoder.field found name value) a := by
  unfold HasField at h
  unfold Decoder.field
  generalize found.2.find? _ = n at h ⊢
  obtain ⟨hn⟩ := h
  exact ht hn

theorem fieldOr {t : Option Tree} {a default : α} (h : HasField found name t)
    (habsent : t = none → a = default) (hthere : ∀ u, t = some u → Takes value u a) :
    Reads (Decoder.fieldOr found name default value) a := by
  unfold HasField at h
  unfold Decoder.fieldOr
  generalize found.2.find? _ = n at h ⊢
  cases h with
  | none =>
    rw [habsent rfl]
    exact Reads.pure default
  | some hn => exact hthere _ rfl hn

/-- A field that is left out if its value is the default. -/
theorem defaulted {c : Prop} [Decidable c] {t : Tree} {a default : α}
    (h : HasField found name (if c then none else some t)) (habsent : c → a = default)
    (ht : Takes value t a) : Reads (Decoder.fieldOr found name default value) a := by
  refine h.fieldOr (fun hnone => ?_) fun u hu => ?_
  · split at hnone
    next hc => exact habsent hc
    · cases hnone
  · split at hu <;> cases hu
    exact ht

/-- A field that is written if there is something to write. -/
theorem optional {write : α → Tree} {a : Option α} (h : HasField found name (a.map write))
    (ht : ∀ b, Takes value (write b) b) (hnull : ∀ b, write b ≠ .null) :
    Reads (Decoder.fieldOr found name none (Decoder.optional value)) a := by
  refine h.fieldOr Option.map_eq_none_iff.1 fun u hu => ?_
  obtain ⟨b, rfl, rfl⟩ := Option.map_eq_some_iff.1 hu
  exact (ht b).optional (hnull b)

end HasField

/-! ## Texts -/

/-- The text spells the tree: it is read as the tree, and there is neither a tag nor an alias in it,
which are of no use where the tree has no tags. -/
structure Spells (text : String) (t : Tree) : Prop where
  bare : ∃ doc, Document.parse text = .ok doc ∧ doc.root.isBare = true
  read : decode Decoder.tree text = .ok t

theorem ok_of_toOption {x : Except Fault α} {a : α} (h : x.toOption = some a) : x = .ok a := by
  cases x with
  | error fault => cases h
  | ok b => exact congrArg Except.ok (Option.some.inj h)

instance (text : String) (t : Tree) : Decidable (Spells text t) :=
  decidable_of_iff ((Document.parse text).toOption.any (fun doc => doc.root.isBare) = true ∧
      (Yaml.decode Decoder.tree text).toOption = some t) <| by
    constructor
    · rintro ⟨hparsed, hread⟩
      obtain ⟨doc, hdoc, hbare⟩ := (Option.any_eq_true _ _).1 hparsed
      exact ⟨⟨doc, ok_of_toOption hdoc, hbare⟩, ok_of_toOption hread⟩
    · rintro ⟨⟨doc, hdoc, hbare⟩, hread⟩
      rw [hdoc, hread]
      exact ⟨hbare, rfl⟩

/-- A text that is read back as the tree of a value is read back as the value. -/
theorem Spells.decode {text : String} {t : Tree} {value : Decoder α} {a : α} (h : Spells text t)
    (ht : Takes value t a) : Yaml.decode value text = .ok a := by
  obtain ⟨doc, hdoc, hbare⟩ := h.bare
  have hstands : Stands depthLimit doc.root t := (yields_stands hbare).of_parse hdoc h.read
  unfold Yaml.decode
  rw [hdoc]
  change (((value depthLimit doc.root).run doc).run 0 >>= fun r => Except.ok r.1) = _
  rw [ht hstands doc 0]
  rfl

end LayeredConfig.Yaml
