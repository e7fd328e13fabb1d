import LayeredConfig.Proofs.Directives
import LayeredConfig.Proofs.Tree.Path

/-!
# Values that are kept

`Matches names R t t'` says that each value of `t` is related by `R` to what `t'` has in its place,
paths that lead through one of the keys `names` aside. `Keeps names t t'` says that `t'` has the
values of `t` at these paths: mappings as mappings, which may have more entries, and all others as
they are. This is a preorder, and merging keeps the overlay.
-/

namespace LayeredConfig

namespace Tree

/-- Both values are mappings, or they are the same. -/
inductive Alike : Tree → Tree → Prop
  | map (es es' : Entries) : Alike (.map es) (.map es')
  | same (t : Tree) : Alike t t

theorem Alike.trans {t u v : Tree} (h₁ : Alike t u) (h₂ : Alike u v) : Alike t v := by
  cases h₁ with
  | map es es' => cases h₂ <;> exact .map _ _
  | same => exact h₂

theorem Alike.eq {t u : Tree} (h : Alike t u) (ht : ∀ es, t ≠ .map es) : u = t := by
  cases h with
  | map es es' => exact absurd rfl (ht es)
  | same => rfl

/-- The path does not lead through one of the keys. -/
def Avoids (names : List String) (path : List Step) : Prop :=
  ∀ name ∈ names, ∀ key, .value key ∈ path → key ≠ .str name

theorem avoids_nil (names : List String) : Avoids names [] := by simp [Avoids]

theorem avoids_cons {names : List String} {s : Step} {rest : List Step} :
    Avoids names (s :: rest) ↔
      (∀ name ∈ names, ∀ key, s = .value key → key ≠ .str name) ∧ Avoids names rest := by
  simp only [Avoids, List.mem_cons]
  grind

theorem avoids_append {names : List String} {path rest : List Step} :
    Avoids names (path ++ rest) ↔ Avoids names path ∧ Avoids names rest := by
  simp only [Avoids, List.mem_append]
  grind

/-- What the first tree has is related to what the second has in its place. -/
def Matches (names : List String) (R : Tree → Tree → Prop) (t t' : Tree) : Prop :=
  ∀ path v, Avoids names path → t.at? path = some v → ∃ v', t'.at? path = some v' ∧ R v v'

/-- The values of the first tree are found in the second. -/
def Keeps (names : List String) (t t' : Tree) : Prop := Matches names Alike t t'

namespace Keeps

variable {names : List String}

theorem refl (t : Tree) : Keeps names t t := fun _ v _ h => ⟨v, h, .same v⟩

theorem trans {t u v : Tree} (h₁ : Keeps names t u) (h₂ : Keeps names u v) : Keeps names t v := by
  intro path a hpath ha
  obtain ⟨b, hb, hab⟩ := h₁ path a hpath ha
  obtain ⟨c, hc, hbc⟩ := h₂ path b hpath hb
  exact ⟨c, hc, hab.trans hbc⟩

theorem alike {t t' : Tree} (h : Keeps names t t') : Alike t t' := by
  obtain ⟨v, hv, halike⟩ := h [] t (avoids_nil names) (at?_nil t)
  rw [at?_nil, Option.some_inj] at hv
  rwa [hv]

/-- What is kept at a path is kept with all that is below. -/
theorem at? {t t' v : Tree} (h : Keeps names t t') {path : List Step} (hpath : Avoids names path)
    (hv : t.at? path = some v) : ∃ v', t'.at? path = some v' ∧ Keeps names v v' := by
  obtain ⟨v', hv', -⟩ := h path v hpath hv
  refine ⟨v', hv', fun rest a hrest ha => ?_⟩
  obtain ⟨b, hb, hab⟩ := h (path ++ rest) a (avoids_append.2 ⟨hpath, hrest⟩)
    (by rw [at?_append, hv, Option.bind_some, ha])
  rw [at?_append, hv', Option.bind_some] at hb
  exact ⟨b, hb, hab⟩

/-- What is not a mapping is kept as it is. -/
theorem found {t t' v : Tree} (h : Keeps names t t') {path : List Step}
    (hpath : Avoids names path) (hv : t.at? path = some v) (hleaf : ∀ es, v ≠ .map es) :
    t'.at? path = some v := by
  obtain ⟨v', hv', halike⟩ := h path v hpath hv
  rwa [halike.eq hleaf] at hv'

/-- A mapping keeps another, if it keeps the value of each key. -/
theorem map {es es' : Entries} (h : ∀ key v, (∀ name ∈ names, key ≠ .str name) →
    Entries.get? es key = some v → ∃ v', Entries.get? es' key = some v' ∧ Keeps names v v') :
    Keeps names (.map es) (.map es') := by
  intro path v hpath hv
  cases path with
  | nil =>
    rw [at?_nil, Option.some_inj] at hv
    rw [← hv]
    exact ⟨_, at?_nil _, .map es es'⟩
  | cons s rest =>
    cases s with
    | value key =>
      obtain ⟨_, u, hmap, hget, hu⟩ := map_of_at? hv
      cases hmap
      obtain ⟨hkey, hrest⟩ := avoids_cons.1 hpath
      obtain ⟨u', hget', hkeeps⟩ := h key u (fun name hname => hkey name hname key rfl) hget
      obtain ⟨v', hv', halike⟩ := hkeeps rest v hrest hu
      exact ⟨v', by rw [at?_map, hget', Option.bind_some, hv'], halike⟩
    | item i =>
      obtain ⟨_, _, hseq, -⟩ := seq_of_at? hv
      cases hseq

/-- Laying a tree over a base keeps it. -/
theorem merge {base overlay : Tree} (hbase : base.WellFormed) (hoverlay : overlay.WellFormed) :
    Keeps names overlay (base.merge overlay) := by
  induction overlay using Tree.induction generalizing base with
  | map above ih =>
    cases base with
    | map below =>
      rw [merge_map_map]
      refine map fun key v _ hget => ⟨_, get?_mergeEntries_above hbase hoverlay hget, ?_⟩
      unfold laidOver
      split
      next existing hbelow =>
        obtain ⟨k, hmem, -⟩ := Entries.mem_of_get? hget
        exact (ih _ hmem).2 (hbase.of_get? hbelow) (hoverlay.of_get? hget)
      · exact refl v
    | _ =>
      rw [merge_map_of_not_map (by simp)]
      exact refl _
  | _ =>
    rw [merge_of_not_map (by simp)]
    exact refl _

/-- Placing a base beneath a mapping keeps the mapping. -/
theorem underlay {base : Tree} {own : Entries} (hbase : base.WellFormed)
    (hown : WellFormed (.map own)) : Keeps names (.map own) (.map (Tree.underlay base own)) := by
  rw [underlay_eq_mergeEntries, ← merge_map_map]
  exact merge hbase.entries hown

/-- Erasing one of the keys that do not count. -/
theorem erase {name : String} (hname : name ∈ names) (es : Entries) :
    Keeps names (.map es) (.map (Entries.erase es (.str name))) :=
  map fun _ v hkey hget => ⟨v, by rw [Entries.get?_erase (hkey name hname), hget], refl v⟩

end Keeps

end Tree

end LayeredConfig
