import LayeredConfig.Directive
import LayeredConfig.Proofs.Tree.Everywhere

/-!
# Trees without directives

`Lacks names t` says that no mapping in `t` has one of the keys `names`. Joined keys could become
directives when a tree is flattened; they do not if the separator is clear of the names, that is if
it occurs in none of them. `SeparatorsClear t` says so of all separators that `t` asks for.
-/

namespace LayeredConfig

namespace Directive

/-- The keys that are directives. -/
def all : List String := [includeKey, useKey, flattenKey, separatorKey]

/-- The keys that a resolution carries out, whether or not it includes files and reuses sections. -/
def carriedOut (includes reuse : Bool) : List String :=
  (if includes then [includeKey] else []) ++ (if reuse then [useKey] else [])
    ++ [flattenKey, separatorKey]

theorem mem_all_of_carriedOut {includes reuse : Bool} {name : String}
    (h : name ∈ carriedOut includes reuse) : name ∈ all := by
  cases includes <;> cases reuse <;> simp only [carriedOut, all] at h ⊢ <;> grind

theorem flattenKey_mem_carriedOut (includes reuse : Bool) :
    flattenKey ∈ carriedOut includes reuse := by simp [carriedOut]

theorem separatorKey_mem_carriedOut (includes reuse : Bool) :
    separatorKey ∈ carriedOut includes reuse := by simp [carriedOut]

/-- The separator occurs in no directive's name. -/
def IsClear (separator : String) : Prop := ∀ name ∈ all, ¬ separator.toList <:+: name.toList

theorem isClear_default : IsClear Flattening.none.separator := by
  unfold IsClear
  decide +kernel

instance (separator : String) : Decidable (IsClear separator) :=
  inferInstanceAs (Decidable (∀ name ∈ all, ¬ separator.toList <:+: name.toList))

/-- A clear separator makes no directive of two keys. -/
theorem IsClear.joined_ne {separator name : String} (h : IsClear separator) (hname : name ∈ all)
    (lead inner : String) : lead ++ separator ++ inner ≠ name := by
  rintro rfl
  refine h _ hname ⟨lead.toList, inner.toList, ?_⟩
  simp [String.toList_append]

end Directive

open Directive

namespace Tree

/-- No mapping in the tree, outside of tags and keys, has one of the keys. -/
def Lacks (names : List String) (t : Tree) : Prop :=
  t.Everywhere fun key _ => ∀ name ∈ names, key ≠ .str name

/-- The separators that mappings in the tree, outside of tags and keys, ask for are clear. -/
def SeparatorsClear (t : Tree) : Prop :=
  t.Everywhere fun key value =>
    key = .str separatorKey → ∀ separator, value = .str separator → IsClear separator

instance (names : List String) (t : Tree) : Decidable (t.Lacks names) :=
  inferInstanceAs (Decidable (t.Everywhere fun key _ => ∀ name ∈ names, key ≠ .str name))

instance (t : Tree) : Decidable t.SeparatorsClear :=
  have (value : Tree) : Decidable (∀ separator, value = .str separator → IsClear separator) :=
    match value with
    | .str s => decidable_of_iff (IsClear s) (by simp)
    | .null | .bool _ | .int _ | .float _ | .seq _ | .map _ | .tagged _ _ => .isTrue (by simp)
  inferInstanceAs (Decidable (t.Everywhere fun key value =>
    key = .str separatorKey → ∀ separator, value = .str separator → IsClear separator))

theorem layered_lacks (names : List String) :
    Layered fun key _ => ∀ name ∈ names, key ≠ .str name where
  respell hsame _ hkey name hname := by
    rintro rfl
    exact hkey name hname (str_same.1 hsame)
  merged hkey := hkey

theorem layered_separatorsClear : Layered fun key value =>
    key = .str separatorKey → ∀ separator, value = .str separator → IsClear separator where
  respell hsame _ hkey := by
    rintro rfl
    exact hkey (str_same.1 hsame)
  merged {_ below above} hkey hsep separator hmerged := by
    refine hkey hsep separator ?_
    cases above with
    | map es =>
      -- two mappings merge into a mapping, which is no separator
      cases below <;> simp [merge] at hmerged
    | _ => rwa [merge_of_not_map (by simp)] at hmerged

/-- A tree that asks for no separator. -/
theorem Lacks.separatorsClear {names : List String} (h : separatorKey ∈ names) {t : Tree}
    (ht : t.Lacks names) : t.SeparatorsClear :=
  Everywhere.mono (fun _ _ hkey hsep => absurd hsep (hkey _ h)) t ht

theorem Lacks.mono {names names' : List String} (h : ∀ name ∈ names', name ∈ names) {t : Tree}
    (ht : t.Lacks names) : t.Lacks names' :=
  Everywhere.mono (fun _ _ hkey name hname => hkey name (h name hname)) t ht

theorem Lacks.flatten {names : List String} (hnames : ∀ name ∈ names, name ∈ all) {t : Tree}
    (ht : t.Lacks names) {separator : String} (hsep : IsClear separator) (depth : Nat) :
    (t.flatten separator depth).Lacks names := by
  refine Everywhere.flatten (layered_lacks names) (fun lead inner _ name hname hkey => ?_) ht depth
  exact hsep.joined_ne (hnames name hname) lead inner (by simpa using hkey)

theorem Lacks.merge {names : List String} {base overlay : Tree} (hbase : base.Lacks names)
    (hoverlay : overlay.Lacks names) : (base.merge overlay).Lacks names :=
  Everywhere.merge (layered_lacks names) hbase hoverlay

theorem SeparatorsClear.merge {base overlay : Tree} (hbase : base.SeparatorsClear)
    (hoverlay : overlay.SeparatorsClear) : (base.merge overlay).SeparatorsClear :=
  Everywhere.merge layered_separatorsClear hbase hoverlay

end Tree

/-! ## The entries of one mapping -/

namespace Entries

/-- None of the keys is there. -/
def Without (names : List String) (es : Entries) : Prop :=
  ∀ e ∈ es, ∀ name ∈ names, e.1 ≠ .str name

theorem lacks_map {names : List String} {es : Entries} :
    Tree.Lacks names (.map es) ↔ Without names es ∧ ∀ e ∈ es, e.2.Lacks names := by
  rw [Tree.Lacks, Tree.everywhere_map]
  exact ⟨fun h => ⟨fun e he => (h e he).1, fun e he => (h e he).2⟩,
    fun h e he => ⟨h.1 e he, h.2 e he⟩⟩

theorem without_iff_has {names : List String} {es : Entries} :
    Without names es ↔ ∀ name ∈ names, has es (.str name) = false := by
  simp only [has, List.any_eq_false, Tree.same_str]
  exact ⟨fun h name hname e he => h e he name hname, fun h e he name hname => h name hname e he⟩

theorem Without.erase {names : List String} {es : Entries} (h : Without names es) (key : Tree) :
    Without names (erase es key) := fun e he => h e (mem_erase.1 he).1

/-- A key is gone after it was erased. -/
theorem without_erase_self (es : Entries) (name : String) :
    Without [name] (Entries.erase es (.str name)) := by
  intro e he n hn
  rw [List.mem_singleton] at hn
  rw [hn]
  exact Tree.same_str_eq_false.1 (mem_erase.1 he).2

theorem Without.append {names names' : List String} {es : Entries} (h : Without names es)
    (h' : Without names' es) : Without (names ++ names') es := by
  intro e he name hname
  rcases List.mem_append.1 hname with hname | hname
  · exact h e he name hname
  · exact h' e he name hname

/-- Laying a mapping over a base brings no key that neither of them has. -/
theorem Without.underlay {names : List String} {base : Tree} {own : Entries}
    (hbase : base.Lacks names) (hown : Without names own) :
    Without names (Tree.underlay base own) := by
  rw [Tree.underlay_eq_mergeEntries]
  have hbelow : Without names base.entries := by
    cases base with
    | map below => exact (lacks_map.1 hbase).1
    | _ => intro e he; cases he
  generalize base.entries = below at hbelow
  induction own generalizing below with
  | nil => rwa [Tree.mergeEntries_nil]
  | cons e rest ih =>
    obtain ⟨key, value⟩ := e
    rw [Tree.mergeEntries_cons]
    refine ih (fun e he => hown e (List.mem_cons_of_mem _ he)) _ ?_
    intro e he
    rcases mem_put he with hold | ⟨-, hk | ⟨-, v, hk⟩⟩
    · exact hbelow e hold
    · rw [hk]
      exact hown _ List.mem_cons_self
    · exact hbelow (e.1, v) hk

end Entries

namespace Flattening

/-- What is left of a mapping after its flattening was taken off. -/
theorem take_fst {es : Entries} {f : Flattening} (h : (take es).2 = .ok f) :
    (take es).1 =
      Entries.erase (Entries.erase es (.str flattenKey)) (.str separatorKey) := by
  unfold take at h ⊢
  dsimp only at h ⊢
  split at h
  · cases h
  · rfl

/-- The separator of a mapping is the one it asks for, or the default. -/
theorem separator_eq {es : Entries} {f : Flattening} (h : (take es).2 = .ok f) :
    f.separator = none.separator ∨
      Entries.get? es (.str separatorKey) = some (.str f.separator) := by
  unfold take at h
  dsimp only at h
  split at h
  · cases h
  · cases hget : Entries.get? es (.str separatorKey) with
    | none =>
      rw [hget] at h
      cases h
      exact .inl rfl
    | some value =>
      rw [hget] at h
      cases value with
      | str s =>
        cases h
        exact .inr rfl
      | _ => cases h

/-- The flattening of a mapping whose separators are clear has a clear separator. -/
theorem isClear {es : Entries} (hes : (Tree.map es).SeparatorsClear) {f : Flattening}
    (h : (take es).2 = .ok f) : IsClear f.separator := by
  rcases separator_eq h with hdefault | hget
  · rw [hdefault]
    exact isClear_default
  · obtain ⟨k, hmem, hsame⟩ := Entries.mem_of_get? hget
    exact (Tree.everywhere_map.1 hes _ hmem).1 (Tree.same_str.1 hsame) _ rfl

theorem take_separatorsClear {es : Entries} (hes : (Tree.map es).SeparatorsClear)
    {f : Flattening} (h : (take es).2 = .ok f) : (Tree.map (take es).1).SeparatorsClear := by
  rw [take_fst h]
  exact Tree.Everywhere.erase (Tree.Everywhere.erase hes _) _

theorem take_without {es : Entries} {f : Flattening} (h : (take es).2 = .ok f) :
    Entries.Without [flattenKey, separatorKey] (take es).1 := by
  rw [take_fst h]
  exact ((Entries.without_erase_self es flattenKey).erase _).append
    (Entries.without_erase_self _ separatorKey)

theorem take_of_without {es : Entries}
    (h : Entries.Without [flattenKey, separatorKey] es) : take es = (es, .ok none) := by
  obtain ⟨hdepth, hseparator⟩ : Entries.has es (.str flattenKey) = false ∧
      Entries.has es (.str separatorKey) = false := by
    simpa using Entries.without_iff_has.1 h
  have hget : ∀ key, Entries.has es key = false → Entries.get? es key = Option.none := by
    simp [Entries.has_eq_isSome]
  unfold take
  dsimp only
  rw [hget _ hdepth, hget _ hseparator, Entries.erase_of_has hdepth,
    Entries.erase_of_has hseparator]
  rfl

end Flattening

end LayeredConfig
