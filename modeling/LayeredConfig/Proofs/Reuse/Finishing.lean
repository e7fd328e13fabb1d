import LayeredConfig.Proofs.Reuse.Sections

/-!
# Resolving documents of sections

What `Reuse.mapping` makes of a tree whose `_use`s each name one section. The result is finished. It
depends on the sections only through what is pulled in for those the tree uses, and not on the room,
if that is as deep as mappings with a `_use` are nested. There is no result if anywhere in the tree
a section is used for which nothing is pulled in, and there is one if there is no such section.
-/

namespace LayeredConfig

open Directive Tree

namespace Reuse

variable {T B : String → Prop} {cur cur' : Entries} {resolve resolve' : Tree → Option Tree}
  {onward onward' : Entries → Option Tree}

/-! ## Nesting -/

mutual

/-- How deep mappings with a `_use` are nested in the tree. -/
def nesting : Tree → Nat
  | .map es => (if Entries.has es (.str useKey) then 1 else 0) + nestingEntries es
  | .seq items => nestingItems items
  | _ => 0

/-- How deep they are nested in the values. -/
def nestingEntries : List (Tree × Tree) → Nat
  | [] => 0
  | (_, value) :: rest => max (nesting value) (nestingEntries rest)

/-- How deep they are nested in the items. -/
def nestingItems : List Tree → Nat
  | [] => 0
  | t :: rest => max (nesting t) (nestingItems rest)

end

theorem nestingEntries_le {es : Entries} {n : Nat} :
    nestingEntries es ≤ n ↔ ∀ e ∈ es, nesting e.2 ≤ n := by
  induction es with
  | nil => simp [nestingEntries]
  | cons e rest ih => rw [nestingEntries, Nat.max_le, ih, List.forall_mem_cons]

theorem nestingItems_le {ts : List Tree} {n : Nat} :
    nestingItems ts ≤ n ↔ ∀ t ∈ ts, nesting t ≤ n := by
  induction ts with
  | nil => simp [nestingItems]
  | cons t rest ih => rw [nestingItems, Nat.max_le, ih, List.forall_mem_cons]

theorem nesting_le_nodeCount (t : Tree) : nesting t ≤ t.nodeCount := by
  induction t using Tree.induction with
  | map es ih =>
    have hentries : nestingEntries es ≤ nodeCountEntries es := by
      induction es with
      | nil => simp [nestingEntries]
      | cons e rest ihRest =>
        obtain ⟨hfirst, hrest⟩ := List.forall_mem_cons.1 ih
        have := hfirst.2
        have := ihRest hrest
        rw [nestingEntries, nodeCountEntries]
        omega
    rw [nesting, nodeCount]
    split <;> omega
  | seq ts ih =>
    have hitems : nestingItems ts ≤ nodeCountItems ts := by
      induction ts with
      | nil => simp [nestingItems]
      | cons t rest ihRest =>
        obtain ⟨hfirst, hrest⟩ := List.forall_mem_cons.1 ih
        have := ihRest hrest
        rw [nestingItems, nodeCountItems]
        omega
    rw [nesting, nodeCount]
    omega
  | _ => simp [nesting]

/-- A value of merged entries is one of those below, or lies over one, or over nothing. -/
theorem values_mergeEntries {P : Tree → Prop} {below above : Entries}
    (hbelow : WellFormed (.map below)) (habove : WellFormed (.map above))
    (hunder : ∀ e ∈ below, P e.2) (hover : ∀ e ∈ above, P e.2)
    (hboth : ∀ e ∈ below, ∀ e' ∈ above, P (e.2.merge e'.2)) :
    ∀ e ∈ mergeEntries below above, P e.2 := by
  intro e he
  have hmerged : WellFormed (.map (mergeEntries below above)) := by
    simpa using hbelow.merge habove
  have hget := Entries.get?_of_mem hmerged he
  rw [get?_mergeEntries_eq hbelow habove] at hget
  cases hu : Entries.get? below e.1 with
  | none =>
    cases hv : Entries.get? above e.1 with
    | none =>
      rw [hu, hv] at hget
      cases hget
    | some v =>
      obtain ⟨k, hmem, -⟩ := Entries.mem_of_get? hv
      rw [hu, hv] at hget
      have heq : v = e.2 := Option.some_inj.1 hget
      exact heq ▸ hover _ hmem
  | some u =>
    obtain ⟨k, hmem, -⟩ := Entries.mem_of_get? hu
    cases hv : Entries.get? above e.1 with
    | none =>
      rw [hu, hv] at hget
      have heq : u = e.2 := Option.some_inj.1 hget
      exact heq ▸ hunder _ hmem
    | some v =>
      obtain ⟨k', hmem', -⟩ := Entries.mem_of_get? hv
      rw [hu, hv] at hget
      have heq : u.merge v = e.2 := Option.some_inj.1 hget
      exact heq ▸ hboth _ hmem _ hmem'

theorem nesting_of_lacks {t : Tree} (ht : t.Lacks [useKey]) : nesting t = 0 := by
  induction t using Tree.induction with
  | map es ih =>
    obtain ⟨hwithout, hvalues⟩ := Entries.lacks_map.1 ht
    have huse := Entries.without_iff_has.1 hwithout useKey List.mem_cons_self
    rw [nesting, huse, if_neg (by simp), Nat.zero_add, ← Nat.le_zero, nestingEntries_le]
    exact fun e he => Nat.le_of_eq ((ih e he).2 (hvalues e he))
  | seq ts ih =>
    rw [nesting, ← Nat.le_zero, nestingItems_le]
    exact fun t hmem => Nat.le_of_eq (ih t hmem (everywhere_seq.1 ht t hmem))
  | _ => rfl

theorem has_mergeEntries_of_lacks {below above : Entries} (hbelow : WellFormed (.map below))
    (hlacks : (Tree.map below).Lacks [useKey]) (habove : WellFormed (.map above)) :
    Entries.has (mergeEntries below above) (.str useKey) = Entries.has above (.str useKey) := by
  have hnone : Entries.get? below (.str useKey) = none := by
    simpa [Entries.has_eq_isSome] using
      Entries.without_iff_has.1 (Entries.lacks_map.1 hlacks).1 useKey List.mem_cons_self
  rw [Entries.has_eq_isSome, Entries.has_eq_isSome, get?_mergeEntries_eq hbelow habove, hnone]
  cases Entries.get? above (.str useKey) <;> rfl

/-- Nothing is nested deeper when a tree without a `_use` lies below. -/
theorem nesting_merge {below t : Tree} (hbelow : below.WellFormed) (hlacks : below.Lacks [useKey])
    (ht : t.WellFormed) : nesting (below.merge t) ≤ nesting t := by
  induction t using Tree.induction generalizing below with
  | map above ih =>
    cases below with
    | map es =>
      have hvalues := (Entries.lacks_map.1 hlacks).2
      rw [merge_map_map, nesting, nesting, has_mergeEntries_of_lacks hbelow hlacks ht]
      refine Nat.add_le_add_left (nestingEntries_le.2 ?_) _
      have hle := nestingEntries_le.1 (Nat.le_refl (nestingEntries above))
      refine values_mergeEntries (P := fun t => nesting t ≤ nestingEntries above)
        hbelow ht (fun e he => ?_) hle fun e he e' he' => ?_
      · rw [nesting_of_lacks (hvalues e he)]
        exact Nat.zero_le _
      · exact Nat.le_trans ((ih e' he').2 ((wellFormed_map.1 hbelow).2 e he).2 (hvalues e he)
          ((wellFormed_map.1 ht).2 e' he').2) (hle e' he')
    | _ => exact Nat.le_of_eq (congrArg nesting (merge_map_of_not_map (by simp)))
  | _ => exact Nat.le_of_eq (congrArg nesting (merge_of_not_map (by simp)))

/-- Carrying out the `_use` of a mapping leaves what is nested in its values. -/
theorem nestingEntries_underlay {below : Tree} {es : Entries} (hbelow : below.WellFormed)
    (hlacks : below.Lacks [useKey]) (hes : WellFormed (.map es)) :
    nestingEntries (underlay below (Entries.erase es (.str useKey))) ≤ nestingEntries es := by
  have herased := hes.erase (.str useKey)
  have hle : nestingEntries (Entries.erase es (.str useKey)) ≤ nestingEntries es := by
    refine nestingEntries_le.2 fun e he => ?_
    exact nestingEntries_le.1 (Nat.le_refl _) e (Entries.mem_erase.1 he).1
  have hmerged := nesting_merge hbelow hlacks herased
  have hwithout : Entries.has (underlay below (Entries.erase es (.str useKey))) (.str useKey) =
      false := Entries.without_iff_has.1
    (Entries.Without.underlay hlacks (Entries.without_erase_self es _)) useKey List.mem_cons_self
  have herase : Entries.has (Entries.erase es (.str useKey)) (.str useKey) = false :=
    Entries.without_iff_has.1 (Entries.without_erase_self es _) useKey List.mem_cons_self
  rw [← map_underlay herased, nesting, nesting, hwithout, herase] at hmerged
  omega

/-! ## Carrying out a `_use` -/

/-- What is placed beneath a mapping that uses a section. -/
def pulled (cur : Entries) (resolve : Tree → Option Tree) (u : String) : Option Tree :=
  (section? cur u).bind fun found => if found.isMapping then resolve found else none

theorem pulled_eq_some {u : String} {base : Tree} :
    pulled cur resolve u = some base ↔
      ∃ found, section? cur u = some found ∧ found.isMapping = true ∧
        resolve found = some base := by
  simp only [pulled, Option.bind_eq_some_iff, Option.ite_none_right_eq_some]

theorem pulled_congr {u : String} (hsame : section? cur' u = section? cur u)
    (hresolve : ∀ t, section? cur u = some t → resolve t = resolve' t) :
    pulled cur resolve u = pulled cur' resolve' u := by
  rw [pulled, pulled, hsame]
  cases hfound : section? cur u with
  | none => rfl
  | some t => rw [Option.bind_some, Option.bind_some, hresolve t hfound]

/-- What is pulled in is finished. -/
def Finishes (T : String → Prop) (cur : Entries) (resolve : Tree → Option Tree) : Prop :=
  ∀ u, T u → ∀ base, pulled cur resolve u = some base → Finished base

/-- The section that a `_use` names alone is pulled in. -/
theorem names_bind_sections (hcur : WellFormed (.map cur)) {value : Tree} {u : String}
    (hu : target? value = some u) :
    ((Directive.names useKey value).toOption.bind fun names =>
      (sections (find cur) .empty names).bind resolve) = pulled cur resolve u := by
  obtain ⟨name, hnames, hkey⟩ := target?_eq_some.1 hu
  have hfind : find cur name = section? cur u := by rw [find, hkey, Option.bind_some]
  rw [hnames]
  change (sections (find cur) .empty [name]).bind resolve = _
  rw [sections, hfind, pulled]
  cases hfound : section? cur u with
  | none => rfl
  | some found =>
    have hwf : found.WellFormed := hcur.of_get? (Option.filter_eq_some_iff.1 hfound).1
    rw [Option.bind_some, Option.bind_some]
    split
    · rw [sections, empty_merge hwf, Option.bind_some]
    · rfl

/-- Carrying out a `_use` places what is pulled in beneath the mapping. -/
theorem carryOut_find (hcur : WellFormed (.map cur)) {es : Entries} {value : Tree} {u : String}
    (hvalue : Entries.get? es (.str useKey) = some value) (hu : target? value = some u) :
    carryOut (find cur) resolve es =
      (pulled cur resolve u).map fun base =>
        underlay base (Entries.erase es (.str useKey)) := by
  rw [carryOut, hvalue, Option.map_eq_bind, ← names_bind_sections hcur hu]
  simp only [Option.bind_assoc]
  rfl

/-- A mapping with a `_use` uses some section. -/
theorem exists_target {es : Entries} (hes : Sectional T (.map es))
    (huse : Entries.has es (.str useKey) = true) :
    ∃ value u, Entries.get? es (.str useKey) = some value ∧ target? value = some u ∧ T u := by
  rw [Entries.has_eq_isSome, Option.isSome_iff_exists] at huse
  obtain ⟨value, hvalue⟩ := huse
  obtain ⟨u, htarget, hu⟩ := hes.target hvalue
  exact ⟨value, u, hvalue, htarget, hu⟩

/-- The `_use` of a mapping is gone when it has been carried out, and nothing is nested deeper. -/
theorem carryOut_sectional (hcur : WellFormed (.map cur)) (hfinishes : Finishes T cur resolve)
    {es es' : Entries} (hes : Sectional T (.map es))
    (h : carryOut (find cur) resolve es = some es') :
    Sectional T (.map es') ∧ Entries.has es' (.str useKey) = false ∧
      nestingEntries es' ≤ nestingEntries es := by
  by_cases huse : Entries.has es (.str useKey) = true
  · obtain ⟨value, u, hvalue, htarget, hu⟩ := exists_target hes huse
    rw [carryOut_find hcur hvalue htarget] at h
    obtain ⟨base, hbase, rfl⟩ := Option.map_eq_some_iff.1 h
    have hfinished := hfinishes u hu base hbase
    have hwithout : Entries.Without [useKey] (underlay base (Entries.erase es (.str useKey))) :=
      Entries.Without.underlay hfinished.lacks_use (Entries.without_erase_self es _)
    exact ⟨Sectional.underlay hfinished hes,
      Entries.without_iff_has.1 hwithout useKey List.mem_cons_self,
      nestingEntries_underlay hfinished.wellFormed hfinished.lacks_use hes.wellFormed⟩
  · rw [Bool.not_eq_true] at huse
    rw [carryOut_of_has huse] at h
    cases h
    exact ⟨hes, huse, Nat.le_refl _⟩

/-- A mapping is resolved by resolving what carrying out its `_use` makes of it. -/
theorem mapping_of_carryOut {look : String → Option Tree} {room : Nat} {es es' : Entries}
    (h : carryOut look resolve es = some es') (huse : Entries.has es' (.str useKey) = false) :
    mapping look resolve (room + 1) es =
      Tree.traverse uses (mapping look resolve room) (.map es') := by
  rw [mapping, h, traverse_passes huse]
  rfl

theorem base_succ (find : String → Option Tree) (room levels : Nat) (t : Tree) :
    base find room (levels + 1) t =
      Tree.traverse uses (mapping find (base find room levels) (room + t.nodeCount)) t := by
  rw [base]

/-! ## Results are finished -/

theorem tree_finished
    (honward : ∀ es t, Sectional T (.map es) → onward es = some t → Finished t) {t t' : Tree}
    (ht : Sectional T t) (h : Tree.traverse uses onward t = some t') : Finished t' := by
  induction t using Tree.induction generalizing t' with
  | map es ih =>
    by_cases huse : Entries.has es (.str useKey) = true
    · rw [traverse_stops huse] at h
      exact honward es t' ht h
    · rw [Bool.not_eq_true] at huse
      obtain ⟨es', hes', rfl⟩ := (traverse_map huse).1 h
      have hrelated := forall₂_of_mem (traverseEntries_eq_some.1 hes') fun e he e' h =>
        And.intro h.1 (And.intro he ((ih e he).2 (ht.value he) h.2))
      have hvalues : ∀ e' ∈ es', Finished e'.2 := fun e' he' => by
        obtain ⟨e, -, -, -, hfinished⟩ := exists_of_mem_forall₂ hrelated he'
        exact hfinished
      have hkeys : ∀ e' ∈ es', ∃ e ∈ es, e'.1 = e.1 := fun e' he' => by
        obtain ⟨e, -, hkey, he, -⟩ := exists_of_mem_forall₂ hrelated he'
        exact ⟨e, he, hkey⟩
      refine ⟨ht.wellFormed.of_keys (keys_traverseEntries hes')
          fun e' he' => (hvalues e' he').wellFormed,
        everywhere_map.2 fun e' he' => ?_, everywhere_map.2 fun e' he' => ?_,
        everywhere_map.2 fun e' he' => ?_⟩ <;> obtain ⟨e, he, hkey⟩ := hkeys e' he'
      · rw [hkey]
        exact ⟨ht.text he, (hvalues e' he').texts⟩
      · rw [hkey]
        exact ⟨ht.without e he, (hvalues e' he').plain⟩
      · refine ⟨fun heq => ?_, (hvalues e' he').uses⟩
        have hno : Entries.Without [useKey] es := Entries.without_iff_has.2 (by simpa using huse)
        exact absurd (hkey.symm.trans heq) (hno e he useKey List.mem_cons_self)
  | seq ts ih =>
    rw [Tree.traverse] at h
    obtain ⟨ts', hts', rfl⟩ := Option.map_eq_some_iff.1 h
    have hitems : ∀ t' ∈ ts', Finished t' := fun t' ht' => by
      have hrelated := forall₂_of_mem (traverseItems_eq_some.1 hts') fun t hmem t' h =>
        ih t hmem (ht.item hmem) h
      obtain ⟨t, -, hfinished⟩ := exists_of_mem_forall₂ hrelated ht'
      exact hfinished
    exact ⟨wellFormed_seq.2 fun t ht => (hitems t ht).wellFormed,
      everywhere_seq.2 fun t ht => (hitems t ht).texts,
      everywhere_seq.2 fun t ht => (hitems t ht).plain,
      everywhere_seq.2 fun t ht => (hitems t ht).uses⟩
  | _ =>
    obtain rfl : _ = t' := by simpa [Tree.traverse] using h
    exact ⟨ht.wellFormed, trivial, trivial, trivial⟩

theorem mapping_finished (hcur : WellFormed (.map cur)) (hfinishes : Finishes T cur resolve)
    {room : Nat} {es : Entries} {t : Tree} (hes : Sectional T (.map es))
    (h : mapping (find cur) resolve room es = some t) : Finished t := by
  induction room generalizing es t with
  | zero => cases h
  | succ room ih =>
    rw [mapping] at h
    obtain ⟨es₁, hes₁, hvalues⟩ := Option.bind_eq_some_iff.1 h
    obtain ⟨hsectional, huse, -⟩ := carryOut_sectional hcur hfinishes hes hes₁
    refine tree_finished (fun es t => ih) hsectional ?_
    rw [traverse_passes huse, hvalues]

theorem base_finished (hcur : Sectional T (.map cur)) {room levels : Nat} {t t' : Tree}
    (ht : Sectional T t) (h : base (find cur) room levels t = some t') : Finished t' := by
  induction levels generalizing t t' with
  | zero => cases h
  | succ levels ih =>
    refine tree_finished (fun es t hes => mapping_finished hcur.wellFormed ?_ hes) ht h
    intro u _ base hbase
    obtain ⟨found, hfound, -, hbase⟩ := pulled_eq_some.1 hbase
    exact ih (hcur.section? hfound) hbase

theorem finishes_base (hcur : Sectional T (.map cur)) (room levels : Nat) {G : String → Prop} :
    Finishes G cur (base (find cur) room levels) := by
  intro u _ b hb
  obtain ⟨found, hfound, -, hresolved⟩ := pulled_eq_some.1 hb
  exact base_finished hcur (hcur.section? hfound) hresolved

/-- A tree without a `_use` is resolved to itself. -/
theorem tree_of_lacks {t : Tree} (ht : t.Lacks [useKey]) : Tree.traverse uses onward t = some t := by
  induction t using Tree.induction with
  | map es ih =>
    obtain ⟨hwithout, hvalues⟩ := Entries.lacks_map.1 ht
    have huse := Entries.without_iff_has.1 hwithout useKey List.mem_cons_self
    refine (traverse_map huse).2 ⟨es, traverseEntries_eq_some.2 ?_, rfl⟩
    exact List.forall₂_same.2 fun e he => ⟨rfl, (ih e he).2 (hvalues e he)⟩
  | seq ts ih =>
    rw [Tree.traverse,
      traverseItems_eq_some.2
        (List.forall₂_same.2 fun t hmem => ih t hmem (everywhere_seq.1 ht t hmem)),
      Option.map_some]
  | _ => rfl

/-- Resolving a tree does not make a mapping of it, or another mapping. -/
theorem isMapping_tree {room : Nat} {t t' : Tree}
    (h : Tree.traverse uses (mapping (find cur) resolve room) t = some t') :
    t'.isMapping = t.isMapping ∧ t'.isNull = t.isNull := by
  cases t with
  | map es =>
    obtain ⟨es₁, es', -, -, rfl⟩ := values_of_tree h
    exact ⟨rfl, rfl⟩
  | seq ts =>
    rw [Tree.traverse] at h
    obtain ⟨ts', -, rfl⟩ := Option.map_eq_some_iff.1 h
    exact ⟨rfl, rfl⟩
  | _ =>
    obtain rfl : _ = t' := by simpa [Tree.traverse] using h
    exact ⟨rfl, rfl⟩

/-! ## What the result depends on -/

/-- A kind of tree that values are of, too, and still are when the `_use` of a mapping has been
carried out, which nests nothing deeper. -/
structure Settles (P : Tree → Prop) (look : String → Option Tree)
    (resolve : Tree → Option Tree) : Prop where
  value : ∀ {es}, P (.map es) → ∀ e ∈ es, P e.2
  item : ∀ {ts}, P (.seq ts) → ∀ t ∈ ts, P t
  carried : ∀ {es es'}, P (.map es) → carryOut look resolve es = some es' →
    P (.map es') ∧ Entries.has es' (.str useKey) = false ∧ nestingEntries es' ≤ nestingEntries es

namespace Settles

variable {P : Tree → Prop} {look look' : String → Option Tree}

theorem traverse_congr (hP : Settles P look resolve) {n : Nat}
    (h : ∀ es, P (.map es) → Entries.has es (.str useKey) = true →
      nesting (.map es) ≤ n → onward es = onward' es) {t : Tree} (ht : P t)
    (hnesting : nesting t ≤ n) : Tree.traverse uses onward t = Tree.traverse uses onward' t := by
  induction t using Tree.induction with
  | map es ih =>
    rw [Tree.traverse, Tree.traverse]
    split
    next huse => exact h es ht huse hnesting
    next huse =>
      rw [nesting, if_neg huse, Nat.zero_add, nestingEntries_le] at hnesting
      rw [traverseEntries_congr fun e he => (ih e he).2 (hP.value ht e he) (hnesting e he)]
  | seq ts ih =>
    rw [nesting, nestingItems_le] at hnesting
    rw [Tree.traverse, Tree.traverse,
      traverseItems_congr fun t hmem => ih t hmem (hP.item ht t hmem) (hnesting t hmem)]
  | _ => rfl

variable (hP : Settles P look resolve)
  (hsame : ∀ es, P (.map es) → Entries.has es (.str useKey) = true →
    carryOut look' resolve' es = carryOut look resolve es)
include hP hsame

theorem mapping_congr {room room' : Nat} {es : Entries} (hes : P (.map es))
    (huse : Entries.has es (.str useKey) = true) (hroom : nesting (.map es) ≤ room)
    (hroom' : nesting (.map es) ≤ room') :
    mapping look resolve room es = mapping look' resolve' room' es := by
  rw [nesting, if_pos huse] at hroom hroom'
  induction room generalizing room' es with
  | zero => omega
  | succ room ih =>
    obtain ⟨room', rfl⟩ : ∃ n, room' = n + 1 := ⟨room' - 1, by omega⟩
    have hcarry := hsame es hes huse
    cases hcarried : carryOut look resolve es with
    | none => rw [mapping, mapping, hcarry, hcarried, Option.bind_none, Option.bind_none]
    | some es₁ =>
      obtain ⟨hes₁, huse₁, hnesting⟩ := hP.carried hes hcarried
      rw [mapping_of_carryOut hcarried huse₁, mapping_of_carryOut (hcarry.trans hcarried) huse₁]
      refine hP.traverse_congr (n := min room room') (fun es hes huse hn => ?_) hes₁ ?_
      · rw [nesting, if_pos huse] at hn
        exact ih hes huse (by omega) (by omega)
      · rw [nesting, huse₁, if_neg (by simp)]
        omega

/-- The result depends only on what carrying out a `_use` gives, and not on the room. -/
theorem tree_congr {room room' : Nat} {t : Tree} (ht : P t) (hroom : nesting t ≤ room)
    (hroom' : nesting t ≤ room') :
    Tree.traverse uses (mapping look resolve room) t =
      Tree.traverse uses (mapping look' resolve' room') t := by
  refine hP.traverse_congr (n := nesting t) (fun es hes huse hn => ?_) ht (Nat.le_refl _)
  exact hP.mapping_congr hsame hes huse (Nat.le_trans hn hroom) (Nat.le_trans hn hroom')

end Settles

theorem settles_sectional (hcur : WellFormed (.map cur)) (hfinishes : Finishes T cur resolve) :
    Settles (Sectional T) (find cur) resolve where
  value hes _ he := hes.value he
  item hts _ ht := hts.item ht
  carried := carryOut_sectional hcur hfinishes

/-- What is pulled in is the same from two documents. -/
def Agree (T : String → Prop) (cur : Entries) (resolve : Tree → Option Tree) (cur' : Entries)
    (resolve' : Tree → Option Tree) : Prop :=
  ∀ u, T u → pulled cur resolve u = pulled cur' resolve' u

/-- The result depends only on what is pulled in for the sections that the tree uses. -/
theorem tree_eq_of_agree (hcur : WellFormed (.map cur)) (hcur' : WellFormed (.map cur'))
    (hfinishes : Finishes T cur resolve) (hagree : Agree T cur resolve cur' resolve')
    {room room' : Nat} {t : Tree} (ht : Sectional T t) (hroom : nesting t ≤ room)
    (hroom' : nesting t ≤ room') :
    Tree.traverse uses (mapping (find cur) resolve room) t =
      Tree.traverse uses (mapping (find cur') resolve' room') t := by
  refine (settles_sectional hcur hfinishes).tree_congr (fun es hes huse => ?_) ht hroom hroom'
  obtain ⟨value, u, hvalue, htarget, hu⟩ := exists_target hes huse
  rw [carryOut_find hcur hvalue htarget, carryOut_find hcur' hvalue htarget, hagree u hu]

/-- A document that has the same sections gives the same to pull in, at every level. -/
theorem agree_base (hcur : Sectional T (.map cur)) (hcur' : WellFormed (.map cur'))
    {G : String → Prop} (hclosed : ∀ u, G u → ∀ t, section? cur u = some t → Sectional G t)
    (hsame : ∀ u, G u → section? cur' u = section? cur u) (room room' levels : Nat) :
    Agree G cur (base (find cur) room levels) cur' (base (find cur') room' levels) := by
  induction levels with
  | zero => exact fun u hu => pulled_congr (hsame u hu) fun _ _ => by rw [base, base]
  | succ levels ih =>
    refine fun u hu => pulled_congr (hsame u hu) fun t ht => ?_
    have hroom : ∀ room, nesting t ≤ room + t.nodeCount := fun room =>
      Nat.le_trans (nesting_le_nodeCount t) (Nat.le_add_left _ _)
    rw [base_succ, base_succ]
    exact tree_eq_of_agree hcur.wellFormed hcur' (finishes_base hcur room levels) ih
      (hclosed u hu t ht) (hroom room) (hroom room')

/-! ## Failing -/

/-- A use stays where it is when something is placed beneath. -/
theorem somewhere_merge {below t : Tree} (hbelow : Finished below) (ht : Sectional T t)
    (h : t.Somewhere (Calls B)) : (below.merge t).Somewhere (Calls B) := by
  induction t using Tree.induction generalizing below with
  | map above ih =>
    cases below with
    | map es =>
      obtain ⟨e, he, hhere⟩ := somewhere_map.1 h
      have hmerged : WellFormed (.map (mergeEntries es above)) := by
        simpa using hbelow.wellFormed.merge ht.wellFormed
      obtain ⟨name, hname⟩ := ht.text he
      have habove := Entries.get?_of_mem ht.wellFormed he
      have hget := get?_mergeEntries_above hbelow.wellFormed ht.wellFormed habove
      obtain ⟨k, hmem, hsame⟩ := Entries.mem_of_get? hget
      have hkey : k = e.1 := by
        rw [hname] at hsame ⊢
        exact same_str.1 hsame
      rw [merge_map_map]
      refine somewhere_map.2 ⟨_, hmem, ?_⟩
      dsimp only
      rw [hkey, laidOver]
      cases hunder : Entries.get? es e.1 with
      | none => exact hhere
      | some under =>
        dsimp only
        rcases hhere with ⟨huse, u, htarget, hu⟩ | hsome
        · -- nothing lies below a `_use`
          have hwithout := (Entries.lacks_map.1 hbelow.lacks).1
          have hnone := Entries.without_iff_has.1 hwithout useKey (by simp [all])
          rw [huse] at hunder
          rw [Entries.has_eq_isSome, hunder] at hnone
          cases hnone
        · exact .inr ((ih e he).2 (hbelow.of_get? hunder) (ht.value he) hsome)
    | _ =>
      rw [merge_map_of_not_map (by simp)]
      exact h
  | _ =>
    rw [merge_of_not_map (by simp)]
    exact h

theorem tree_fails
    (h : ∀ es, Sectional T (.map es) → (Tree.map es).Somewhere (Calls B) → onward es = none)
    {t : Tree} (ht : Sectional T t) (hsome : t.Somewhere (Calls B)) :
    Tree.traverse uses onward t = none := by
  induction t using Tree.induction with
  | map es ih =>
    rw [Tree.traverse]
    split
    next => exact h es ht hsome
    next huse =>
      obtain ⟨e, he, ⟨hkey, -⟩ | hbelow⟩ := somewhere_map.1 hsome
      · refine absurd (Entries.has_str.2 ⟨e.2, ?_⟩) huse
        rwa [← hkey]
      · rw [traverseEntries_eq_none he ((ih e he).2 (ht.value he) hbelow), Option.map_none]
  | seq ts ih =>
    obtain ⟨t, hmem, hbelow⟩ := somewhere_seq.1 hsome
    rw [Tree.traverse, traverseItems_eq_none hmem (ih t hmem (ht.item hmem) hbelow), Option.map_none]
  | _ => exact absurd trivial hsome

section Failing

variable (hcur : WellFormed (.map cur)) (hfinishes : Finishes T cur resolve)
  (hfails : ∀ u, B u → pulled cur resolve u = none)
include hcur hfinishes hfails

/-- Other uses stay in a mapping whose own `_use` has been carried out. -/
theorem somewhere_carryOut {es es' : Entries} (hes : Sectional T (.map es))
    (h : (Tree.map es).Somewhere (Calls B)) (hcarried : carryOut (find cur) resolve es = some es') :
    (Tree.map es').Somewhere (Calls B) := by
  by_cases huse : Entries.has es (.str useKey) = true
  · obtain ⟨value, u, hvalue, htarget, hu⟩ := exists_target hes huse
    rw [carryOut_find hcur hvalue htarget] at hcarried
    obtain ⟨below, hpulled, rfl⟩ := Option.map_eq_some_iff.1 hcarried
    rw [map_underlay (hes.wellFormed.erase _)]
    refine somewhere_merge (hfinishes u hu below hpulled) (hes.erase _) (somewhere_map.2 ?_)
    obtain ⟨e, he, hhere⟩ := somewhere_map.1 h
    have hkey : e.1 ≠ .str useKey := by
      intro hkey
      have hget := Entries.get?_of_mem hes.wellFormed he
      rw [hkey, hvalue] at hget
      obtain rfl : value = e.2 := Option.some_inj.1 hget
      rcases hhere with ⟨-, u', htarget', hu'⟩ | hbelow
      · cases htarget.symm.trans htarget'
        rw [hfails u hu'] at hpulled
        cases hpulled
      · exact not_somewhere_of_target? htarget hbelow
    exact ⟨e, Entries.mem_erase.2 ⟨he, same_str_eq_false.2 hkey⟩, hhere⟩
  · rw [Bool.not_eq_true] at huse
    rw [carryOut_of_has huse] at hcarried
    cases hcarried
    exact h

theorem mapping_fails {room : Nat} {es : Entries} (hes : Sectional T (.map es))
    (h : (Tree.map es).Somewhere (Calls B)) : mapping (find cur) resolve room es = none := by
  induction room generalizing es with
  | zero => rfl
  | succ room ih =>
    cases hcarried : carryOut (find cur) resolve es with
    | none => rw [mapping, hcarried, Option.bind_none]
    | some es₁ =>
      obtain ⟨hsectional, huse₁, -⟩ := carryOut_sectional hcur hfinishes hes hcarried
      rw [mapping_of_carryOut hcarried huse₁]
      exact tree_fails (fun es hes => ih hes) hsectional
        (somewhere_carryOut hcur hfinishes hfails hes h hcarried)

end Failing

/-- If each of some sections uses one of them, nothing is pulled in for any, whatever the level. -/
theorem pulled_base_fails (hcur : Sectional T (.map cur))
    (hcalls : ∀ u, B u → ∀ t, section? cur u = some t → t.Somewhere (Calls B)) (room levels : Nat)
    {u : String} (hu : B u) : pulled cur (base (find cur) room levels) u = none := by
  induction levels generalizing u with
  | zero => simp [pulled, base]
  | succ levels ih =>
    rw [pulled]
    cases hfound : section? cur u with
    | none => rfl
    | some t =>
      have hnone : base (find cur) room (levels + 1) t = none := by
        rw [base_succ]
        exact tree_fails (fun es hes => mapping_fails hcur.wellFormed
          (finishes_base hcur room levels) (fun u hu => ih hu) hes) (hcur.section? hfound)
          (hcalls u hu t hfound)
      rw [Option.bind_some, hnone, ite_self]

/-! ## Succeeding -/

theorem exists_tree {n : Nat}
    (h : ∀ es, Sectional T (.map es) → Entries.has es (.str useKey) = true →
      nesting (.map es) ≤ n → ∃ t, onward es = some t) {t : Tree} (ht : Sectional T t)
    (hnesting : nesting t ≤ n) : ∃ t', Tree.traverse uses onward t = some t' := by
  induction t using Tree.induction with
  | map es ih =>
    rw [Tree.traverse]
    split
    next huse => exact h es ht huse hnesting
    next huse =>
      rw [nesting, if_neg huse, Nat.zero_add, nestingEntries_le] at hnesting
      obtain ⟨es', hes'⟩ := exists_traverseEntries fun e he =>
        (ih e he).2 (ht.value he) (hnesting e he)
      exact ⟨_, by rw [hes', Option.map_some]⟩
  | seq ts ih =>
    rw [nesting, nestingItems_le] at hnesting
    obtain ⟨ts', hts'⟩ := exists_traverseItems fun t hmem =>
      ih t hmem (ht.item hmem) (hnesting t hmem)
    exact ⟨_, by rw [Tree.traverse, hts', Option.map_some]⟩
  | _ => exact ⟨_, rfl⟩

/-- There is a result if something is pulled in for each section that the tree uses. -/
theorem exists_tree_of_pulled (hcur : WellFormed (.map cur)) (hfinishes : Finishes T cur resolve)
    (hpulled : ∀ u, T u → ∃ base, pulled cur resolve u = some base) {room : Nat} {t : Tree}
    (ht : Sectional T t) (hroom : nesting t ≤ room) :
    ∃ t', Tree.traverse uses (mapping (find cur) resolve room) t = some t' := by
  refine exists_tree (n := room) (fun es hes huse hn => ?_) ht hroom
  clear ht hroom
  rw [nesting, if_pos huse] at hn
  induction room generalizing es with
  | zero => omega
  | succ room ih =>
    obtain ⟨value, u, hvalue, htarget, hu⟩ := exists_target hes huse
    obtain ⟨below, hbelow⟩ := hpulled u hu
    have hcarried : carryOut (find cur) resolve es =
        some (underlay below (Entries.erase es (.str useKey))) := by
      rw [carryOut_find hcur hvalue htarget, hbelow, Option.map_some]
    obtain ⟨hsectional, huse₁, hnesting⟩ := carryOut_sectional hcur hfinishes hes hcarried
    rw [mapping_of_carryOut hcarried huse₁]
    refine exists_tree (n := room) (fun es hes huse hn => ?_) hsectional ?_
    · rw [nesting, if_pos huse] at hn
      exact ih es hes huse hn
    · rw [nesting, huse₁, if_neg (by simp)]
      omega

end Reuse

end LayeredConfig
