import LayeredConfig.Proofs.Ending
import LayeredConfig.Proofs.Reuse.Rebinding
import Mathlib.Logic.Relation

/-!
# Resolving a document of sections

The sections of a document are resolved one after the other. At each moment a section that another
one may come to use is in its first form or finished, so what is pulled in for the open section
stays the same until it is finished too. A section from which the uses lead round in a circle is not
finished, and never can be: there the resolution fails.
-/

namespace LayeredConfig

open Directive Tree

namespace Reuse

/-! ## Uses -/

/-- No infinite path of uses begins at the section. -/
def Grounded (es : Entries) (u : String) : Prop := Acc (fun v u => Uses es u v) u

variable {es : Entries} {T : String → Prop}

theorem not_grounded_of_cycle {u : String} (h : Relation.TransGen (Uses es) u u) :
    ¬ Grounded es u := by
  intro hgrounded
  have hswap : Relation.TransGen (fun v u => Uses es u v) u u := Relation.transGen_swap.1 h
  exact (Acc.transGen hgrounded).rec (motive := fun v _ =>
    ¬ Relation.TransGen (fun v u => Uses es u v) v v) (fun v _ ih hv => ih v hv hv) hswap

theorem exists_use_of_not_grounded {u : String} (h : ¬ Grounded es u) :
    ∃ v, Uses es u v ∧ ¬ Grounded es v := by
  by_contra hnot
  push Not at hnot
  exact h (Acc.intro u hnot)

theorem uses_iff_section? {u v : String} :
    Uses es u v ↔ ∃ t, section? es u = some t ∧ t.Somewhere (Calls (· = v)) := by
  refine ⟨fun ⟨t, hget, hsome⟩ => ⟨t, ?_, hsome⟩, fun ⟨t, hfound, hsome⟩ =>
    ⟨t, (Option.filter_eq_some_iff.1 hfound).1, hsome⟩⟩
  -- a null holds no uses
  rw [section?, hget, Option.filter_some, if_pos]
  obtain ⟨es, rfl⟩ | ⟨items, rfl⟩ := hsome.nested
  · rfl
  · rfl

/-- A section that a tree uses is one of those it may use. -/
theorem of_somewhere_calls {t : Tree} (ht : Sectional T t) {u : String}
    (h : t.Somewhere (Calls (· = u))) : T u := by
  by_contra hu
  refine h (Everywhere.mono (fun key value huses hcalls => ?_) t ht.uses)
  obtain ⟨hkey, _, htarget, rfl⟩ := hcalls
  obtain ⟨w, htarget', hw⟩ := huses hkey
  cases htarget.symm.trans htarget'
  exact hu hw

/-- A section uses what the document says that it uses. -/
theorem sectional_uses (hes : Sectional T (.map es)) {u : String} {t : Tree}
    (h : section? es u = some t) : Sectional (fun v => T v ∧ Uses es u v) t :=
  (hes.section? h).restrict.mono fun _ ⟨hv, hsome⟩ =>
    ⟨hv, t, (Option.filter_eq_some_iff.1 h).1, hsome⟩

/-- A section that is not grounded uses one that is not. -/
theorem somewhere_not_grounded (hes : Sectional T (.map es)) {u : String} {t : Tree}
    (h : Entries.get? es (.str u) = some t) (hu : ¬ Grounded es u) :
    t.Somewhere (Calls fun v => T v ∧ ¬ Grounded es v) := by
  obtain ⟨v, ⟨t', ht', hsome⟩, hv⟩ := exists_use_of_not_grounded hu
  cases h.symm.trans ht'
  have hTv := of_somewhere_calls (hes.of_get? h) hsome
  refine hsome.mono ?_
  rintro key value ⟨hkey, v, htarget, rfl⟩
  exact ⟨hkey, v, htarget, hTv, hv⟩

theorem somewhere_of_spot? {R : Tree → Tree → Prop} {t v : Tree} {path : List Segment}
    (h : spot? path t = some v) (hv : v.Somewhere R) : t.Somewhere R := by
  induction path generalizing t with
  | nil =>
    cases h
    exact hv
  | cons s rest ih =>
    cases s with
    | key name =>
      cases t with
      | map es =>
        obtain ⟨slot, hslot, h⟩ := Option.bind_eq_some_iff.1 h
        obtain ⟨k, hmem, -⟩ := Entries.mem_of_get? hslot
        exact somewhere_map.2 ⟨_, hmem, .inr (ih h)⟩
      | _ => cases h
    | index i =>
      cases t with
      | seq items =>
        obtain ⟨slot, hslot, h⟩ := Option.bind_eq_some_iff.1 h
        exact somewhere_seq.2 ⟨slot, List.mem_of_getElem? hslot, ih h⟩
      | _ => cases h

end Reuse

open Reuse

/-! ## Stages -/

/-- A document of sections, with the sources that follow it: the root has no directive, and a
section that is used is in the document, unless it is nowhere. -/
structure Sectioned (others : List Tree) (T : String → Prop) (es : Entries) : Prop where
  sectional : Sectional T (.map es)
  undirected : Entries.has es (.str useKey) = false
  found : ∀ u, T u → (section? es u).isSome ∨ ∀ source ∈ others, source.lookup [.key u] = none

/-- Its nodes are room enough for its sections. -/
theorem Sectioned.nesting_le {others : List Tree} {T : String → Prop} {es : Entries}
    (h : Sectioned others T es) (room : Nat) :
    ∀ e ∈ es, nesting e.2 ≤ room + (Tree.map es).nodeCount := by
  intro e he
  have hall := nesting_le_nodeCount (.map es)
  rw [nesting, h.undirected, if_neg (by simp), Nat.zero_add, nestingEntries_le] at hall
  exact Nat.le_trans (hall e he) (Nat.le_add_left _ _)

/-- A form the document takes on the way: what a section holds may have changed, but not whether it
is a mapping. -/
structure Form (T : String → Prop) (es cur : Entries) : Prop where
  sectional : Sectional T (.map cur)
  alike : ∀ u, T u →
    (section? cur u).map Tree.isMapping = (section? es u).map Tree.isMapping

/-- A form in which some sections have been finished. They are grounded; the others are as in the
beginning. -/
structure Stage (T : String → Prop) (es cur : Entries) : Prop extends Form T es cur where
  each : ∀ u, T u → section? cur u = section? es u ∨
    Grounded es u ∧ ∀ t, section? cur u = some t → Finished t

section Forms

variable {others : List Tree} {T : String → Prop} {es cur : Entries}

theorem Sectioned.stage (h : Sectioned others T es) : Stage T es es where
  sectional := h.sectional
  alike _ _ := rfl
  each _ _ := .inl rfl

/-- The names of sections in `T`. -/
def NameIn (T : String → Prop) (name : String) : Prop := ∃ u, keyOf? name = some u ∧ T u

theorem Sectional.onlyUses {t : Tree} (h : Sectional T t) : OnlyUses (NameIn T) t := by
  refine Everywhere.mono (fun key value ⟨hplain, huses⟩ => ⟨hplain, fun hkey names hnames => ?_⟩) t
    (Everywhere.and h.plain h.uses)
  obtain ⟨u, htarget, hu⟩ := huses hkey
  obtain ⟨name, hname, hkeyOf⟩ := target?_eq_some.1 htarget
  cases hname.symm.trans hnames
  simpa using ⟨u, hkeyOf, hu⟩

/-- The document is looked into first, and what is not there is nowhere. -/
theorem sectionNamed?_of_form (hes : Sectioned others T es) (hform : Form T es cur) {name : String}
    (hname : NameIn T name) : Scope.sectionNamed? (.map cur :: others) name = find cur name := by
  obtain ⟨u, hkey, hu⟩ := hname
  have hlookup : (Tree.map cur).lookup [.key u] = section? cur u := by
    rw [lookup, follow?, step?, section?]
    simp only [follow?, Option.bind_fun_some]
  rw [Scope.sectionNamed?, List.findSome?_cons, keyOf?_eq_some.1 hkey, hlookup, find, hkey,
    Option.bind_some]
  cases hsection : section? cur u with
  | some t => rfl
  | none =>
    have halike := hform.alike u hu
    rw [hsection, Option.map_none, eq_comm, Option.map_eq_none_iff] at halike
    obtain hsome | hnone := hes.found u hu
    · rw [halike] at hsome
      cases hsome
    · exact List.findSome?_eq_none_iff.2 hnone

end Forms

/-! ## The open section -/

namespace Frame

variable (F : Frame) {T : String → Prop} {es : Entries}

theorem section?_entries_of_ne {u : String} (hu : u ≠ F.name) (content content' : Tree) :
    Reuse.section? (F.entries content) u = section? (F.entries content') u := by
  have hskip : ∀ content, Entries.get? (F.entries content) (.str u) =
      (Entries.get? F.before (.str u)).or (Entries.get? F.after (.str u)) := by
    intro content
    rw [entries, Entries.get?_append, Entries.get?_cons, if_neg]
    rw [str_same, Tree.str.injEq]
    exact hu
  rw [section?, section?, hskip, hskip]

theorem section?_entries (content : Tree) :
    Reuse.section? (F.entries content) F.name = (some content).filter fun t => !t.isNull := by
  rw [section?, F.get?_entries]

theorem spot?_path (content : Tree) (p : List Segment) :
    spot? (F.path p) (.map (F.entries content)) = spot? p content := by
  rw [path, spot?, F.get?_entries, Option.bind_some]

/-- Another content of the section, if the section is not the `_use` of the root. -/
theorem sectional_entries {F : Frame} {content content' : Tree} (hname : F.name ≠ useKey)
    (h : Sectional T (.map (F.entries content))) (hcontent : Sectional T content') :
    Sectional T (.map (F.entries content')) := by
  have hmem : ∀ e ∈ F.entries content', e ∈ F.entries content ∨ e = (.str F.name, content') := by
    intro e he
    rw [entries, List.mem_append, List.mem_cons] at he ⊢
    rcases he with hbefore | rfl | hafter
    · exact .inl (.inl hbefore)
    · exact .inr rfl
    · exact .inl (.inr (.inr hafter))
  have hself : (.str F.name, content) ∈ F.entries content := by simp [entries]
  refine ⟨h.wellFormed.of_keys ?_ fun e he => ?_, everywhere_map.2 fun e he => ?_,
    everywhere_map.2 fun e he => ?_, everywhere_map.2 fun e he => ?_⟩
  · simp [entries, Entries.keys]
  · obtain hold | rfl := hmem e he
    · exact (h.value hold).wellFormed
    · exact hcontent.wellFormed
  · obtain hold | rfl := hmem e he
    · exact everywhere_map.1 h.texts e hold
    · exact ⟨⟨F.name, rfl⟩, hcontent.texts⟩
  · obtain hold | rfl := hmem e he
    · exact everywhere_map.1 h.plain e hold
    · exact ⟨(everywhere_map.1 h.plain _ hself).1, hcontent.plain⟩
  · obtain hold | rfl := hmem e he
    · exact everywhere_map.1 h.uses e hold
    · exact ⟨fun hkey => absurd (Tree.str.inj hkey) hname, hcontent.uses⟩

/-- Another content that is a mapping, or null, just when the first one is. -/
theorem form_entries {F : Frame} {content content' : Tree} (h : Form T es (F.entries content))
    (hsectional : Sectional T (.map (F.entries content')))
    (hmapping : content'.isMapping = content.isMapping) (hnull : content'.isNull = content.isNull) :
    Form T es (F.entries content') where
  sectional := hsectional
  alike u hu := by
    refine Eq.trans ?_ (h.alike u hu)
    by_cases hname : u = F.name
    · rw [hname, section?_entries, section?_entries, Option.filter_some, Option.filter_some, hnull]
      split
      · rw [Option.map_some, Option.map_some, hmapping]
      · rfl
    · rw [F.section?_entries_of_ne hname content' content]

end Frame

/-- A mapping with other entries, but the same directives at most, may be put into a tree. -/
theorem Sectional.replace? {T : String → Prop} {t new : Tree} {old es : Entries}
    {path : List Segment} (ht : Sectional T t) (hes : Sectional T (.map es))
    (hspot : spot? path t = some (.map old)) (h : Tree.replace? (.map es) path t = some new) :
    Sectional T new where
  wellFormed := hes.wellFormed.replace? ht.wellFormed h
  texts := (ht.texts.replace?_of_spot (fun _ _ _ h _ => h) hes.texts hspot h).1
  plain := (Everywhere.replace?_of_spot (fun _ _ _ h _ => h) ht.plain hes.plain hspot h).1
  uses := by
    refine (ht.uses.replace?_of_spot (fun key value value' huses hnests hkey => ?_) hes.uses hspot
      h).1
    -- a value that names a section nests nothing
    obtain ⟨u, htarget, -⟩ := huses hkey
    obtain ⟨name, hnames, -⟩ := target?_eq_some.1 htarget
    cases value with
    | map es => cases hnames
    | seq items =>
      obtain ⟨t, ht, hnot⟩ := hnests
      obtain ⟨name, rfl⟩ := text_of_mem_names hnames t ht
      exact absurd rfl (hnot name)
    | _ => exact hnests.elim

/-- Only a node of a mapping or of a sequence is replaced. -/
theorem isMapping_replace? {content new : Tree} {old node : Entries} {path : List Segment}
    (hspot : spot? path content = some (.map old))
    (h : Tree.replace? (.map node) path content = some new) :
    new.isMapping = content.isMapping ∧ new.isNull = false ∧ content.isNull = false := by
  cases path with
  | nil =>
    cases hspot
    cases h
    exact ⟨rfl, rfl, rfl⟩
  | cons s rest =>
    cases s with
    | key name =>
      cases content with
      | map es =>
        obtain ⟨slot, -, h⟩ := Option.bind_eq_some_iff.1 h
        obtain ⟨inner, -, rfl⟩ := Option.map_eq_some_iff.1 h
        exact ⟨rfl, rfl, rfl⟩
      | _ => cases hspot
    | index i =>
      cases content with
      | seq items =>
        obtain ⟨slot, -, h⟩ := Option.bind_eq_some_iff.1 h
        obtain ⟨inner, -, rfl⟩ := Option.map_eq_some_iff.1 h
        exact ⟨rfl, rfl, rfl⟩
      | _ => cases hspot

section Open

variable {T : String → Prop} {es : Entries} {F : Frame} {raw content : Tree}

/-- Putting a mapping back into the open section makes another form of the document. -/
theorem Form.replace? {path : List Segment} {old node : Entries} {new : Tree}
    (h : Form T es (F.entries content)) (hspot : spot? path content = some (.map old))
    (hnode : Sectional T (.map node)) (hnew : Tree.replace? (.map node) path content = some new) :
    Form T es (F.entries new) := by
  obtain ⟨hmapping, hnull, hnull'⟩ := isMapping_replace? hspot hnew
  refine F.form_entries h ?_ hmapping (hnull.trans hnull'.symm)
  refine Sectional.replace? h.sectional hnode ((F.spot?_path content path).trans hspot) ?_
  rw [F.replace?_path, hnew, Option.map_some]

/-- Where a mapping stands in the open section, the section is found. -/
theorem section?_open {node : Entries} {path : List Segment}
    (hspot : spot? path content = some (.map node)) :
    Reuse.section? (F.entries content) F.name = some content := by
  obtain ⟨new, hnew⟩ := exists_replace? hspot (.map node)
  rw [section?, F.get?_entries, Option.filter_some, (isMapping_replace? hspot hnew).2.2]
  rfl

/-- The sections that can be reached from the open one and are grounded are other sections, and stay
what they are. -/
theorem agree_grounded (hstage : Stage T es (F.entries raw))
    (hcontent : Sectional T (.map (F.entries content))) (room levels : Nat) {u : String} (hu : T u)
    (huses : Uses es F.name u) (hgrounded : Grounded es u) :
    pulled (F.entries raw) (base (find (F.entries raw)) room levels) u =
      pulled (F.entries content) (base (find (F.entries content)) room levels) u := by
  let G : String → Prop := fun v => T v ∧ Relation.TransGen (Uses es) F.name v ∧ Grounded es v
  have hne : ∀ v, G v → v ≠ F.name := by
    rintro v ⟨-, hreach, hv⟩ rfl
    exact not_grounded_of_cycle hreach hv
  refine agree_base (G := G) hstage.sectional hcontent.wellFormed (fun v hv t ht => ?_)
    (fun v hv => F.section?_entries_of_ne (hne v hv) content raw) room room levels u
    ⟨hu, .single huses, hgrounded⟩
  obtain ⟨hTv, hreach, hacc⟩ := hv
  rcases hstage.each v hTv with hsame | ⟨-, hfinished⟩
  · have hes : section? es v = some t := hsame ▸ ht
    have hrestricted := (hstage.sectional.section? ht).restrict
    refine hrestricted.mono fun w ⟨hw, hsome⟩ => ?_
    have huse : Uses es v w := uses_iff_section?.2 ⟨t, hes, hsome⟩
    exact ⟨hw, hreach.tail huse, hacc.inv huse⟩
  · exact (hfinished t ht).mono fun _ h => h.elim

/-- Nothing is pulled in for a section that is not grounded, as long as the open section still has
such a use, if it is one of them. -/
theorem pulled_not_grounded (hes : Sectional T (.map es)) (hstage : Stage T es (F.entries raw))
    (hcontent : Sectional T (.map (F.entries content)))
    (hopen : ∀ t, section? (F.entries content) F.name = some t → ¬ Grounded es F.name →
      t.Somewhere (Calls fun v => T v ∧ ¬ Grounded es v)) (room levels : Nat) {u : String}
    (hu : T u) (hgrounded : ¬ Grounded es u) :
    pulled (F.entries content) (base (find (F.entries content)) room levels) u = none := by
  refine pulled_base_fails (B := fun v => T v ∧ ¬ Grounded es v) hcontent (fun v hv t ht => ?_) room
    levels ⟨hu, hgrounded⟩
  obtain ⟨hTv, hv⟩ := hv
  by_cases hname : v = F.name
  · subst hname
    exact hopen t ht hv
  · rw [F.section?_entries_of_ne hname content raw] at ht
    rcases hstage.each v hTv with hsame | ⟨habsurd, -⟩
    · exact somewhere_not_grounded hes (Option.filter_eq_some_iff.1 (hsame ▸ ht)).1 hv
    · exact absurd habsurd hv

/-- In its first form the open section has such a use, if it is not grounded. -/
theorem pulled_not_grounded_raw (hes : Sectional T (.map es)) (hstage : Stage T es (F.entries raw))
    (hraw : Entries.get? es (.str F.name) = some raw) (room levels : Nat) {u : String} (hu : T u)
    (hgrounded : ¬ Grounded es u) :
    pulled (F.entries raw) (base (find (F.entries raw)) room levels) u = none := by
  refine pulled_not_grounded hes hstage hstage.sectional (fun t ht hopen => ?_) room levels hu
    hgrounded
  rw [F.section?_entries] at ht
  obtain rfl : raw = t := Option.some_inj.1 (Option.filter_eq_some_iff.1 ht).1
  exact somewhere_not_grounded hes hraw hopen

/-- A section that is not grounded is resolved to nothing. -/
theorem tree_not_grounded (hes : Sectional T (.map es)) (hstage : Stage T es (F.entries raw))
    (hraw : Entries.get? es (.str F.name) = some raw) (hgrounded : ¬ Grounded es F.name)
    (room levels depth : Nat) :
    Tree.traverse uses (mapping (find (F.entries raw)) (base (find (F.entries raw)) room levels) depth)
        raw = none := by
  refine tree_fails (fun node hnode => mapping_fails (B := fun v => T v ∧ ¬ Grounded es v)
    hstage.sectional.wellFormed (finishes_base hstage.sectional room levels)
    (fun u hu => pulled_not_grounded_raw hes hstage hraw room levels hu.1 hu.2) hnode)
    (hes.of_get? hraw) (somewhere_not_grounded hes hraw hgrounded)

/-- When the open section has been resolved, the document has come to its next stage. -/
theorem Stage.next {others : List Tree} (hes : Sectioned others T es)
    (hstage : Stage T es (F.entries raw)) (hraw : Entries.get? es (.str F.name) = some raw)
    {room levels depth : Nat} {t : Tree}
    (h : Tree.traverse uses (mapping (find (F.entries raw)) (base (find (F.entries raw)) room levels)
        depth) raw = some t) : Stage T es (F.entries t) := by
  have hgrounded : Grounded es F.name := by
    by_contra hnot
    rw [tree_not_grounded hes.sectional hstage hraw hnot] at h
    cases h
  have hfinished : Finished t := tree_finished (fun node t hnode => mapping_finished
    hstage.sectional.wellFormed (finishes_base hstage.sectional room levels) hnode)
    (hes.sectional.of_get? hraw) h
  have hname : F.name ≠ useKey := by
    intro hname
    have hhas := hes.undirected
    rw [Entries.has_eq_isSome, ← hname, hraw] at hhas
    cases hhas
  obtain ⟨hmapping, hnull⟩ := isMapping_tree h
  refine ⟨F.form_entries hstage.toForm (F.sectional_entries hname hstage.sectional
    (hfinished.mono fun _ h => h.elim)) hmapping hnull, fun u hu => ?_⟩
  by_cases hu' : u = F.name
  · refine .inr ⟨hu' ▸ hgrounded, fun t' ht' => ?_⟩
    rw [hu', F.section?_entries] at ht'
    obtain rfl : t = t' := Option.some_inj.1 (Option.filter_eq_some_iff.1 ht').1
    exact hfinished
  · rw [F.section?_entries_of_ne hu' t raw]
    exact hstage.each u hu

end Open

end LayeredConfig
