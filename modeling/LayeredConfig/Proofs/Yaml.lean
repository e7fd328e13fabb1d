import LayeredConfig.Cache.Store
import LayeredConfig.Document
import LayeredConfig.Proofs.Tree.WellFormed

/-!
# Trees that are read are well-formed

A mapping with a key twice is not read at all, so every document and every entry of the cache holds
a well-formed tree.
-/

namespace LayeredConfig

namespace Tree

/-- The tree is neither a collection nor under a tag. -/
def IsScalar : Tree → Prop
  | .null | .bool _ | .int _ | .float _ | .str _ => True
  | _ => False

theorem IsScalar.wellFormed {t : Tree} (h : t.IsScalar) : t.WellFormed := by
  cases t <;> trivial

end Tree

namespace Yaml

variable {α β : Type} {Q : α → Prop}

/-- Whatever a decoding reads satisfies `Q`. -/
def Yields (x : Decoding α) (Q : α → Prop) : Prop :=
  ∀ ⦃doc n a n'⦄, (x.run doc).run n = .ok (a, n') → Q a

namespace Yields

theorem pure {a : α} (h : Q a) : Yields (pure a) Q := by
  intro doc n b n' hrun
  cases hrun
  exact h

theorem throw (fault : Fault) : Yields (throw fault : Decoding α) Q := by
  intro doc n b n' hrun
  cases hrun

theorem bind {R : β → Prop} {x : Decoding α} {f : α → Decoding β} (hx : Yields x Q)
    (hf : ∀ a, Q a → Yields (f a) R) : Yields (x >>= f) R := by
  intro doc n b n' hrun
  rw [ReaderT.run_bind, StateT.run_bind] at hrun
  rcases hfirst : (x.run doc).run n with fault | ⟨a, n₁⟩
  · rw [hfirst] at hrun
    cases hrun
  · rw [hfirst] at hrun
    exact hf a (hx hfirst) hrun

theorem lift {x : Except Fault α} (h : ∀ a, x = .ok a → Q a) : Yields (liftM x) Q := by
  intro doc n a n' hrun
  cases x with
  | error fault => cases hrun
  | ok b =>
    cases hrun
    exact h _ rfl

theorem trivial (x : Decoding α) : Yields x fun _ => True := fun _ _ _ _ _ => .intro

theorem mapM {f : β → Decoding α} (hf : ∀ b, Yields (f b) Q) (bs : List β) :
    Yields (bs.mapM f) fun as => ∀ a ∈ as, Q a := by
  induction bs with
  | nil => exact pure (by simp)
  | cons b rest ih =>
    rw [List.mapM_cons]
    refine (hf b).bind fun a ha => ih.bind fun as has => pure ?_
    exact List.forall_mem_cons.2 ⟨ha, has⟩

theorem foldlM {f : α → β → Decoding α} (hf : ∀ a b, Q a → Yields (f a b) Q) (bs : List β) {a : α}
    (ha : Q a) : Yields (bs.foldlM f a) Q := by
  induction bs generalizing a with
  | nil => exact pure ha
  | cons b rest ih =>
    rw [List.foldlM_cons]
    exact (hf a b ha).bind fun a ha => ih ha

end Yields

open Tree

theorem integerValue?_isInt {text : String} {t : Tree}
    (h : integerValue? text = .ok (some t)) : ∃ i, t = .int i := by
  unfold integerValue? at h
  split at h
  · cases h
  next i _ =>
    split at h
    · cases h
      exact ⟨i, rfl⟩
    · split at h <;> cases h

/-- What a plain scalar says that stands for a tree, as far as there is a decoder for trees of the
kind. -/
def Says (text : String) : Tree → Prop
  | .null | .int _ => True
  | .bool b => boolWord? text = some b
  | .float x => float? text = some x
  | .str s => s = text
  | _ => False

theorem says_of_plainValue {text : String} {t : Tree} (h : plainValue text = .ok t) :
    Says text t := by
  unfold plainValue at h
  split at h
  · cases h
    trivial
  split at h
  next b hb =>
    cases h
    exact hb
  rcases hint : integerValue? text with fault | _ | i
  · rw [hint] at h
    cases h
  · rw [hint] at h
    change (if _ then _ else _) = _ at h
    split at h
    · split at h
      next x hx =>
        cases h
        exact hx
      · cases h
        rfl
    · cases h
      rfl
  · rw [hint] at h
    cases h
    obtain ⟨i, rfl⟩ := integerValue?_isInt hint
    trivial

theorem plainValue_isScalar {text : String} {t : Tree} (h : plainValue text = .ok t) :
    t.IsScalar := by
  have hsays := says_of_plainValue h
  cases t with
  | seq _ | map _ | tagged _ _ => exact hsays
  | _ => trivial

/-- A scalar is read as a scalar. -/
theorem scalarValue_isScalar {tag : Option String} {text : String} {style : Style} {t : Tree}
    (h : scalarValue tag text style = .ok t) : t.IsScalar := by
  unfold scalarValue at h
  split at h
  · split at h <;> cases h
    trivial
  · cases hint : integerValue? text with
    | error fault =>
      rw [hint] at h
      cases h
    | ok i =>
      rw [hint] at h
      cases i with
      | some i =>
        cases h
        obtain ⟨i, rfl⟩ := integerValue?_isInt hint
        trivial
      | none => cases h
  · split at h <;> cases h
    trivial
  · split at h <;> cases h
    trivial
  · cases h
    trivial
  · split at h
    · exact plainValue_isScalar h
    · cases h
      trivial

/-- Adding an entry whose key is not there. -/
theorem addEntry_wellFormed {es es' : Entries} (hes : WellFormed (.map es)) {key value : Tree}
    (hkey : key.WellFormed) (hvalue : value.WellFormed) (h : addEntry es key value = .ok es') :
    WellFormed (.map es') := by
  unfold addEntry at h
  split at h
  · cases h
  next hnew =>
    cases h
    obtain ⟨hdistinct, hwf⟩ := wellFormed_map.1 hes
    refine wellFormed_map.2 ⟨?_, ?_⟩
    · refine List.pairwise_append.2 ⟨hdistinct, List.pairwise_singleton _ _, fun e he e' he' => ?_⟩
      rw [List.mem_singleton] at he'
      rw [he']
      rw [Entries.has, List.any_eq_true, not_exists] at hnew
      exact Bool.eq_false_iff.2 fun hsame => hnew e ⟨he, hsame⟩
    · intro e he
      rcases List.mem_append.1 he with he | he
      · exact hwf e he
      · rw [List.mem_singleton] at he
        rw [he]
        exact ⟨hkey, hvalue⟩

theorem underTag_wellFormed {tag : Option String} {t : Tree} (h : t.WellFormed) :
    (underTag tag t).WellFormed := by
  unfold underTag
  split
  · exact wellFormed_tagged.2 h
  · exact h

theorem taggedScalar_wellFormed {tag : Option String} {text : String} {style : Style} {t : Tree}
    (h : taggedScalar tag text style = .ok t) : t.WellFormed := by
  unfold taggedScalar at h
  split at h
  · cases hvalue : scalarValue none text style with
    | error fault =>
      rw [hvalue] at h
      cases h
    | ok value =>
      rw [hvalue] at h
      cases h
      exact wellFormed_tagged.2 (scalarValue_isScalar hvalue).wellFormed
  · exact (scalarValue_isScalar h).wellFormed

/-- A value that is read is well-formed. -/
theorem yields_tree (depth : Nat) (node : Node) : Yields (Decoder.tree depth node) WellFormed := by
  induction depth generalizing node with
  | zero =>
    unfold Decoder.tree
    refine (Yields.trivial _).bind fun node _ => ?_
    split
    · exact Yields.throw _
    · exact Yields.lift fun t => taggedScalar_wellFormed
    · exact Yields.throw _
  | succ depth ih =>
    unfold Decoder.tree
    refine (Yields.trivial _).bind fun node _ => ?_
    split
    · exact Yields.throw _
    · exact Yields.lift fun t => taggedScalar_wellFormed
    · refine (Yields.mapM (fun item => ih item) _).bind fun items hitems => Yields.pure ?_
      exact underTag_wellFormed (wellFormed_seq.2 hitems)
    · refine Yields.bind (Q := fun es => WellFormed (.map es)) (Yields.foldlM ?_ _ wellFormed_empty)
        fun es hes => Yields.pure (underTag_wellFormed hes)
      intro es (k, v) hes
      refine (ih k).bind fun key hkey => ?_
      split
      · exact (Yields.throw (Q := fun _ => False) _).bind fun _ h => h.elim
      · exact (ih v).bind fun value hvalue =>
          Yields.lift fun es' => addEntry_wellFormed hes hkey hvalue

end Yaml

namespace Yaml

/-- What is decoded from a document whose root yields `Q` satisfies `Q`. -/
theorem Yields.of_parse {value : Decoder α} {text : String} {doc : Document} {a : α}
    (hdoc : Document.parse text = .ok doc) (h : Yields (value depthLimit doc.root) Q)
    (hdecode : decode value text = .ok a) : Q a := by
  unfold Yaml.decode at hdecode
  rw [hdoc] at hdecode
  change (((value depthLimit doc.root).run doc).run 0 >>= fun r => Except.ok r.1) = _ at hdecode
  rcases hrun : ((value depthLimit doc.root).run doc).run 0 with fault | ⟨b, n⟩
  · rw [hrun] at hdecode
    cases hdecode
  · rw [hrun] at hdecode
    cases hdecode
    exact h hrun

/-- What is decoded by a decoder that yields `Q` satisfies `Q`. -/
theorem Yields.decode {value : Decoder α} (h : ∀ node, Yields (value depthLimit node) Q)
    {text : String} {a : α} (hdecode : decode value text = .ok a) : Q a := by
  cases hdoc : Document.parse text with
  | error fault =>
    unfold Yaml.decode at hdecode
    rw [hdoc] at hdecode
    cases hdecode
  | ok doc => exact Yields.of_parse hdoc (h doc.root) hdecode

end Yaml

/-- A document that is read is empty or has been decoded. -/
theorem Document.of_read {P : Tree → Prop} (hempty : P .empty)
    (h : ∀ node, Yaml.Yields (Yaml.Decoder.tree Yaml.depthLimit node) P) {text : String} {t : Tree}
    (hread : Document.read text = .ok t) : P t := by
  unfold Document.read at hread
  split at hread
  · cases hread
    exact hempty
  · cases hdecode : Yaml.decode Yaml.Decoder.tree text with
    | error fault =>
      rw [hdecode] at hread
      cases hread
    | ok value =>
      rw [hdecode] at hread
      cases hread
      dsimp only
      split
      · exact hempty
      · exact Yaml.Yields.decode h hdecode

/-- A document that is read is well-formed. -/
theorem Document.read_wellFormed {text : String} {t : Tree} (h : Document.read text = .ok t) :
    t.WellFormed := Document.of_read Tree.wellFormed_empty (Yaml.yields_tree _) h

/-- The tree of a cache entry that is read is well-formed. -/
theorem Envelope.decode_wellFormed {text : String} {e : Envelope}
    (h : Yaml.decode Envelope.decoder text = .ok e) : e.tree.WellFormed := by
  refine Yaml.Yields.decode (Q := fun e : Envelope => e.tree.WellFormed) (fun node => ?_) h
  refine (Yaml.Yields.trivial _).bind fun fields _ => (Yaml.Yields.trivial _).bind fun engine _ =>
    (Yaml.Yields.trivial _).bind fun inputs _ => ?_
  refine Yaml.Yields.bind (Q := Tree.WellFormed) ?_ fun tree htree =>
    (Yaml.Yields.trivial _).bind fun ledger _ => Yaml.Yields.pure htree
  unfold Yaml.Decoder.field
  split
  · exact Yaml.yields_tree _ _
  · exact Yaml.Yields.throw _

end LayeredConfig
