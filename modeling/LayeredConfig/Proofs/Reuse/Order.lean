import LayeredConfig.Proofs.Reuse.Depth
import Mathlib.Data.List.Perm.Basic

/-!
# The order of sections

A document whose sections only reuse one another, none deeper than `substitutionLimit` allows, may
have its sections in any order: it is loaded in every order or in none, and the results differ in
the order of their keys only. A section that comes later is used as it was written, one that comes
earlier as it has been resolved, and this makes no difference.
-/

namespace LayeredConfig

open Directive Tree Reuse

/-! ## Entries in another order -/

namespace Entries

/-- The same is found under a text key. -/
theorem get?_perm {es es' : Entries} (h : es'.Perm es) (hes : WellFormed (.map es)) (u : String) :
    get? es' (.str u) = get? es (.str u) := by
  cases hfound : get? es' (.str u) with
  | none =>
    rw [eq_comm, get?_eq_none]
    exact fun e he => get?_eq_none.1 hfound e (h.mem_iff.2 he)
  | some v =>
    obtain ⟨k, hmem, hkey⟩ := mem_of_get? hfound
    have hsame := get?_of_mem hes (h.mem_iff.1 hmem)
    rw [← same_str.1 hkey]
    exact hsame.symm

/-- Up to the order, a text key is put in front of what is left without it. -/
theorem put_perm_erase {es : Entries} (hes : Distinct es) (name : String) (v : Tree) :
    (put es (.str name) v).Perm ((.str name, v) :: erase es (.str name)) := by
  induction es with
  | nil => exact .refl _
  | cons e rest ih =>
    obtain ⟨k, old⟩ := e
    obtain ⟨hfirst, hrest⟩ := List.pairwise_cons.1 hes
    rw [put]
    split
    next hsame =>
      obtain rfl := same_str.1 hsame
      have hnone : has rest (.str name) = false := by
        rw [has, List.any_eq_false]
        intro e he
        rw [Bool.not_eq_true, same_str_eq_false]
        have hne := hfirst e he
        intro heq
        rw [heq, Tree.same_refl] at hne
        cases hne
      have herased : erase ((.str name, old) :: rest) (.str name) = rest := by
        rw [erase, List.filter_cons_of_neg (by simp [Tree.same_refl])]
        exact erase_of_has hnone
      rw [herased]
    next hnot =>
      have herased : erase ((k, old) :: rest) (.str name) = (k, old) :: erase rest (.str name) := by
        rw [erase, List.filter_cons_of_pos (by simpa using hnot)]
        rfl
      rw [herased]
      exact ((ih hrest).cons _).trans (.swap _ _ _)

theorem put_perm {es es' : Entries} (h : es'.Perm es) (hes : Distinct es) (hes' : Distinct es')
    (name : String) (v : Tree) : (put es' (.str name) v).Perm (put es (.str name) v) :=
  (put_perm_erase hes' name v).trans
    (((h.filter _).cons _).trans (put_perm_erase hes name v).symm)

end Entries

namespace Reuse

variable {T : String → Prop} {es es' : Entries}

theorem entries_perm {onward : Entries → Option Tree} (h : es'.Perm es) {rs : Entries}
    (hrs : traverseEntries uses onward es = some rs) :
    ∃ rs', traverseEntries uses onward es' = some rs' ∧ rs'.Perm rs := by
  obtain ⟨rs', hrs', hperm⟩ := List.perm_comp_forall₂ h (traverseEntries_eq_some.1 hrs)
  exact ⟨rs', traverseEntries_eq_some.2 hrs', hperm⟩

section Permuted

variable (hperm : es'.Perm es) (hes : Sectional T (.map es)) (hes' : WellFormed (.map es'))
include hperm hes

theorem uses_perm (u v : String) : Uses es' u v ↔ Uses es u v := by
  rw [Uses, Uses, Entries.get?_perm hperm hes.wellFormed]

theorem shallow_perm {n : Nat} {u : String} (h : Shallow es n u) : Shallow es' n u := by
  intro path hpath
  exact h path (hpath.imp fun u v => (uses_perm hperm hes u v).1)

include hes'

theorem sectional_perm : Sectional T (.map es') where
  wellFormed := hes'
  texts := everywhere_map.2 fun e he => everywhere_map.1 hes.texts e (hperm.mem_iff.1 he)
  plain := everywhere_map.2 fun e he => everywhere_map.1 hes.plain e (hperm.mem_iff.1 he)
  uses := everywhere_map.2 fun e he => everywhere_map.1 hes.uses e (hperm.mem_iff.1 he)

theorem sectioned_perm {others : List Tree} (h : Sectioned others T es) :
    Sectioned others T es' where
  sectional := sectional_perm hperm hes hes'
  undirected := by
    rw [Entries.has_eq_isSome, Entries.get?_perm hperm hes.wellFormed, ← Entries.has_eq_isSome]
    exact h.undirected
  found u hu := by
    rw [section?, Entries.get?_perm hperm hes.wellFormed]
    exact h.found u hu

/-- Every section is resolved to the same. -/
theorem entries_eq_of_perm (room room' levels : Nat) {depth depth' : Nat}
    (hdepth : ∀ e ∈ es, nesting e.2 ≤ depth) (hdepth' : ∀ e ∈ es, nesting e.2 ≤ depth') :
    traverseEntries uses (mapping (find es') (base (find es') room' levels) depth') es =
      traverseEntries uses (mapping (find es) (base (find es) room levels) depth) es := by
  have hagree : Agree T es (base (find es) room levels) es' (base (find es') room' levels) := by
    refine agree_base hes hes' (fun u _ t ht => hes.section? ht) (fun u _ => ?_) room room' levels
    rw [section?, section?, Entries.get?_perm hperm hes.wellFormed]
  refine traverseEntries_congr fun e he => ?_
  exact (tree_eq_of_agree hes.wellFormed hes' (finishes_base hes room levels) hagree (hes.value he)
    (hdepth e he) (hdepth' e he)).symm

end Permuted

end Reuse

/-! ## Loading -/

/-- Storing the path of the file keeps results with the same entries so. -/
theorem Settings.withPath_perm {es es' : Entries} (h : es'.Perm es) (hes : Entries.Distinct es)
    (hes' : Entries.Distinct es') (field : Option String) (path : FilePath) :
    ∃ rs rs', withPath field path (.map es) = .map rs ∧ withPath field path (.map es') = .map rs' ∧
      rs'.Perm rs := by
  cases field with
  | none => exact ⟨es, es', rfl, rfl, h⟩
  | some name => exact ⟨_, _, rfl, rfl, Entries.put_perm h hes hes' name _⟩

/-- A document with its sections in another order is loaded if and only if it is loaded in the
first order, and then the results have the same entries. The root has no directive, and there are no
other directives than `_use`s that name one key of the document each; no path of uses has more than
`substitutionLimit` steps. -/
theorem section_order_is_irrelevant (s : Settings) (o : LoadOptions) (path : FilePath)
    (w w' : World) {es es' : Entries} (hperm : es'.Perm es) (hself : o.selfReferences = true)
    (hdirectory : w'.directory = w.directory) (hreads : s.Reads o path w (.map es))
    (hreads' : s.Reads o path w' (.map es')) (hroot : Scope.isDirected es = false)
    (huses : Sectional (fun u => Entries.has es (.str u) = true) (.map es))
    (hnull : ∀ u t, Entries.get? es (.str u) = some t → t.isNull = true →
      ∀ source ∈ o.sources.getD [], source.lookup [.key u] = none)
    (hpaths : ∀ u path, List.IsChain (Uses es) (u :: path) → path.length ≤ substitutionLimit) :
    ((∃ tree ledger w₁, outcome (s.load path o) w' = (.ok (tree, ledger), w₁)) ↔
      ∃ tree ledger w₁, outcome (s.load path o) w = (.ok (tree, ledger), w₁)) ∧
    ∀ tree ledger w₁ tree' ledger' w₁', outcome (s.load path o) w = (.ok (tree, ledger), w₁) →
      outcome (s.load path o) w' = (.ok (tree', ledger'), w₁') →
        ∃ rs rs', tree = .map rs ∧ tree' = .map rs' ∧ rs'.Perm rs := by
  have hundirected : Entries.has es (.str useKey) = false := by
    rw [Scope.isDirected, List.any_eq_false] at hroot
    simpa using hroot useKey (by simp)
  have hwf' : WellFormed (.map es') := hreads'.wellFormed
  have hes : Sectioned (o.sources.getD []) (fun u => Entries.has es (.str u) = true) es := by
    refine ⟨huses, hundirected, fun u hu => ?_⟩
    rw [Entries.has_eq_isSome, Option.isSome_iff_exists] at hu
    obtain ⟨t, ht⟩ := hu
    rw [section?, ht, Option.filter_some]
    cases hisNull : t.isNull with
    | true => exact .inr (hnull u t ht hisNull)
    | false => exact .inl rfl
  have hes' := sectioned_perm hperm huses hwf' hes
  obtain ⟨room, hsome, hnone⟩ := Settings.load_entries hself hreads hes hpaths
  obtain ⟨room', hsome', hnone'⟩ := Settings.load_entries hself hreads' hes' fun u =>
    shallow_perm hperm huses (hpaths u)
  have hdepth' : ∀ e ∈ es, nesting e.2 ≤ room' + (Tree.map es').nodeCount := fun e he =>
    hes'.nesting_le room' e (hperm.mem_iff.2 he)
  have hvalue := entries_eq_of_perm hperm huses hwf' room room' substitutionLimit
    (hes.nesting_le room) hdepth'
  -- both loads succeed with entries in the two orders, or both fail
  cases hrs : traverseEntries Reuse.uses
      (mapping (Reuse.find es) (base (Reuse.find es) room substitutionLimit)
    (room + (Tree.map es).nodeCount)) es with
  | none =>
    obtain ⟨e, w₁, hrun⟩ := hnone hrs
    have hvalue' : traverseEntries Reuse.uses (mapping (Reuse.find es') (base (Reuse.find es') room'
        substitutionLimit) (room' + (Tree.map es').nodeCount)) es' = none := by
      cases hrs' : traverseEntries Reuse.uses (mapping (Reuse.find es') (base (Reuse.find es') room'
        substitutionLimit) (room' + (Tree.map es').nodeCount)) es' with
      | none => rfl
      | some rs' =>
        obtain ⟨rs, hrs₁, -⟩ := entries_perm hperm.symm hrs'
        rw [hvalue, hrs] at hrs₁
        cases hrs₁
    obtain ⟨e', w₁', hrun'⟩ := hnone' hvalue'
    rw [hrun, hrun']
    refine ⟨⟨?_, ?_⟩, ?_⟩
    · rintro ⟨_, _, _, hok⟩
      cases hok
    · rintro ⟨_, _, _, hok⟩
      cases hok
    · intro _ _ _ _ _ _ hok
      cases hok
  | some rs =>
    obtain ⟨rs', hrs', hresult⟩ := entries_perm hperm (hvalue.trans hrs)
    obtain ⟨ledger, w₁, hrun⟩ := hsome rs hrs
    obtain ⟨ledger', w₁', hrun'⟩ := hsome' rs' hrs'
    rw [hrun, hrun', hdirectory]
    refine ⟨⟨fun _ => ⟨_, _, _, rfl⟩, fun _ => ⟨_, _, _, rfl⟩⟩, ?_⟩
    intro tree ledger w₁ tree' ledger' w₁' hok hok'
    cases hok
    cases hok'
    have hdistinct := (wellFormed_map.1 huses.wellFormed).1
    have hdistinct' := (wellFormed_map.1 hwf').1
    refine Settings.withPath_perm hresult ?_ ?_ _ _
    · rwa [Entries.distinct_iff_keys, keys_traverseEntries hrs, ← Entries.distinct_iff_keys]
    · rwa [Entries.distinct_iff_keys, keys_traverseEntries hrs', ← Entries.distinct_iff_keys]

/-- Sections that use one that comes later. -/
def forwardEntries : Entries :=
  [(.str "a", .map [(.str "x", .map [(.str "_use", .str "b")])]),
    (.str "b", .map [(.str "_use", .str "c"), (.str "k", .int 2)]),
    (.str "c", .map [(.str "v", .int 1)])]

/-- A world with the document. -/
def forward : World :=
  .holding [(["root.yml"], .file
    "a: \x7bx: \x7b_use: b\x7d\x7d\nb: \x7b_use: c, k: 2\x7d\nc: \x7bv: 1\x7d\n".toUTF8 ⟨0⟩)]

/-- A world with the document in the opposite order. -/
def backward : World :=
  .holding [(["root.yml"], .file
    "c: \x7bv: 1\x7d\nb: \x7b_use: c, k: 2\x7d\na: \x7bx: \x7b_use: b\x7d\x7d\n".toUTF8 ⟨0⟩)]

theorem forward_backward_load :
    ∃ tree ledger w₁ tree' ledger' w₁',
      outcome (Settings.default.load ⟨"root.yml"⟩ LoadOptions.default) forward =
        (.ok (tree, ledger), w₁) ∧
      outcome (Settings.default.load ⟨"root.yml"⟩ LoadOptions.default) backward =
        (.ok (tree', ledger'), w₁') ∧
      ∃ rs rs', tree = .map rs ∧ tree' = .map rs' ∧ rs'.Perm rs := by
  have hreads : Settings.default.Reads LoadOptions.default ⟨"root.yml"⟩ forward
      (.map forwardEntries) := Settings.reads_of_uncached rfl (by decide +kernel)
  have hreads' : Settings.default.Reads LoadOptions.default ⟨"root.yml"⟩ backward
      (.map forwardEntries.reverse) := Settings.reads_of_uncached rfl (by decide +kernel)
  have hpaths : ∀ u path, List.IsChain (Uses forwardEntries) (u :: path) →
      path.length ≤ substitutionLimit := by
    intro u path hpath
    let rank : String → Nat := fun u => if u = "a" then 2 else if u = "b" then 1 else 0
    have hrank : rank u ≤ 2 := by simp only [rank]; split <;> [skip; split] <;> omega
    have hshallow := shallow_of_rank rank ?_ u path hpath
    · exact Nat.le_trans hshallow (Nat.le_trans hrank (by decide))
    · simp only [forwardEntries, List.forall_mem_cons]
      refine ⟨?_, ?_, ?_, by simp⟩ <;> rintro u ⟨⟩ <;> decide +kernel
  obtain ⟨hloads, hresults⟩ := section_order_is_irrelevant Settings.default LoadOptions.default
    ⟨"root.yml"⟩ forward backward (List.reverse_perm forwardEntries) rfl rfl hreads hreads' rfl
    (by decide +kernel) (by simp [LoadOptions.default]) hpaths
  have hok : succeeds (Settings.default.load ⟨"root.yml"⟩ LoadOptions.default) forward
      (fun _ _ => true) := by decide +kernel
  obtain ⟨⟨tree, ledger⟩, w₁, hrun, -⟩ := succeeds_iff.1 hok
  obtain ⟨tree', ledger', w₁', hrun'⟩ := hloads.2 ⟨tree, ledger, w₁, hrun⟩
  exact ⟨tree, ledger, w₁, tree', ledger', w₁', hrun, hrun', hresults _ _ _ _ _ _ hrun hrun'⟩

end LayeredConfig
