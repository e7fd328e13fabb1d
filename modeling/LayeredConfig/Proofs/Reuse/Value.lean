import LayeredConfig.Proofs.Tree.Traversal

/-!
# Trees that only reuse sections

Where `_use` is the only directive, and the sections that are used stay what they are, a resolution
is a function of the tree: a traversal by `Reuse.mapping`. It is monotone in the room it is given,
and it goes along with merging: if each of two trees is resolved to something, and the second fits
over what the first is resolved to, then the two trees merged are resolved to the two results
merged.
-/

namespace LayeredConfig

open Directive Tree

namespace Reuse

/-! ## The function -/

variable (find : String → Option Tree)

/-- The sections of some names, merged one by one over what was merged before. -/
def sections : (merged : Tree) → List String → Option Tree
  | merged, [] => some merged
  | merged, name :: rest => (find name).bind fun found =>
    if found.isMapping then sections (merged.merge found) rest else none

/-- Carry out the `_use` of a mapping, if it has one. -/
def carryOut (resolve : Tree → Option Tree) (es : Entries) : Option Entries :=
  match Entries.get? es (.str useKey) with
  | none => some es
  | some value =>
    (Directive.names useKey value).toOption.bind fun names =>
      (sections find .empty names).bind fun merged =>
        (resolve merged).bind fun base =>
          some (underlay base (Entries.erase es (.str useKey)))

/-- The mapping has a `_use`. -/
abbrev uses (es : Entries) : Bool := Entries.has es (.str useKey)

/-- Resolve a mapping with a `_use`, in which others may be nested as deep as `room` says. -/
def mapping (resolve : Tree → Option Tree) : (room : Nat) → Entries → Option Tree
  | 0, _ => none
  | room + 1, es => (carryOut find resolve es).bind fun es =>
    (traverseEntries uses (mapping resolve room) es).map Tree.map

/-- Resolve reused sections, which may reuse others so many levels deep. -/
def base (room : Nat) : (levels : Nat) → Tree → Option Tree
  | 0, _ => none
  | levels + 1, t => Tree.traverse uses (mapping find (base room levels) (room + t.nodeCount)) t

/-! ## Room -/

variable {find} {onward : Entries → Option Tree}

/-- More room changes no result. -/
theorem mapping_mono {resolve : Tree → Option Tree} {room : Nat} (more : Nat) {es : Entries}
    {t : Tree} (h : mapping find resolve room es = some t) :
    mapping find resolve (room + more) es = some t := by
  induction room generalizing es t with
  | zero => cases h
  | succ room ih =>
    rw [mapping] at h
    rw [Nat.succ_add, mapping]
    obtain ⟨es₁, hes₁, hvalues⟩ := Option.bind_eq_some_iff.1 h
    obtain ⟨es', hes', rfl⟩ := Option.map_eq_some_iff.1 hvalues
    rw [hes₁, Option.bind_some, traverseEntries_mono (fun es t => ih) hes', Option.map_some]

/-! ## Well-formedness -/

theorem sections_wellFormed (hfind : ∀ name t, find name = some t → t.WellFormed)
    {merged t : Tree} {names : List String} (hmerged : merged.WellFormed)
    (h : sections find merged names = some t) : t.WellFormed := by
  induction names generalizing merged with
  | nil =>
    cases h
    exact hmerged
  | cons name rest ih =>
    obtain ⟨found, hfound, hrest⟩ := Option.bind_eq_some_iff.1 h
    split at hrest
    · exact ih (hmerged.merge (hfind name found hfound)) hrest
    · cases hrest

variable {resolve : Tree → Option Tree}

/-- What carrying out a `_use` makes of a mapping that has one. -/
theorem carryOut_eq_some {es es' : Entries} {value : Tree}
    (hvalue : Entries.get? es (.str useKey) = some value) :
    carryOut find resolve es = some es' ↔
      ∃ names merged below, Directive.names useKey value = .ok names ∧
        sections find .empty names = some merged ∧ resolve merged = some below ∧
        es' = underlay below (Entries.erase es (.str useKey)) := by
  rw [carryOut, hvalue]
  simp only [Option.bind_eq_some_iff, Option.some_inj]
  constructor
  · rintro ⟨names, hnames, merged, hmerged, below, hbelow, rfl⟩
    cases hparsed : Directive.names useKey value with
    | error fault => rw [hparsed] at hnames; cases hnames
    | ok names' =>
      rw [hparsed] at hnames
      cases hnames
      exact ⟨names, merged, below, rfl, hmerged, hbelow, rfl⟩
  · rintro ⟨names, merged, below, hnames, hmerged, hbelow, rfl⟩
    exact ⟨names, by rw [hnames]; rfl, merged, hmerged, below, hbelow, rfl⟩

/-- Without a `_use` there is nothing to carry out. -/
theorem carryOut_of_has {es : Entries} (h : Entries.has es (.str useKey) = false) :
    carryOut find resolve es = some es := by
  have hnone : Entries.get? es (.str useKey) = none := by
    simpa [Entries.has_eq_isSome] using h
  rw [carryOut, hnone]

section WellFormed

variable (hfind : ∀ name t, find name = some t → t.WellFormed)
  (hresolve : ∀ t t', t.WellFormed → resolve t = some t' → t'.WellFormed)
include hfind hresolve

/-- Only a well-formed base is placed beneath a mapping. -/
theorem carryOut_wellFormed {es es' : Entries} (hes : WellFormed (.map es))
    (h : carryOut find resolve es = some es') : WellFormed (.map es') := by
  cases hvalue : Entries.get? es (.str useKey) with
  | none =>
    rw [carryOut, hvalue] at h
    cases h
    exact hes
  | some value =>
    obtain ⟨names, merged, below, -, hmerged, hbelow, rfl⟩ := (carryOut_eq_some hvalue).1 h
    exact (hresolve merged below (sections_wellFormed hfind wellFormed_empty hmerged)
      hbelow).underlay (hes.erase _)

theorem mapping_wellFormed {room : Nat} {es : Entries} {t : Tree} (hes : WellFormed (.map es))
    (h : mapping find resolve room es = some t) : t.WellFormed := by
  induction room generalizing es t with
  | zero => cases h
  | succ room ih =>
    rw [mapping] at h
    obtain ⟨es₁, hes₁, hvalues⟩ := Option.bind_eq_some_iff.1 h
    obtain ⟨es', hes', rfl⟩ := Option.map_eq_some_iff.1 hvalues
    exact traverseEntries_wellFormed (carryOut_wellFormed hfind hresolve hes hes₁)
      (fun e _ v hwf h => traverse_wellFormed (fun es t => ih) hwf h) hes'

omit hresolve in
theorem base_wellFormed {room levels : Nat} {t t' : Tree} (ht : t.WellFormed)
    (h : base find room levels t = some t') : t'.WellFormed := by
  induction levels generalizing t t' with
  | zero => cases h
  | succ levels ih =>
    exact traverse_wellFormed (fun es t => mapping_wellFormed hfind fun t t' => ih) ht h

end WellFormed

/-! ## Values that are there -/

section Kept

variable (hfind : ∀ name t, find name = some t → t.WellFormed)
  (hresolve : ∀ t t', t.WellFormed → resolve t = some t' → t'.WellFormed)
include hfind hresolve

theorem carryOut_keeps {es es' : Entries} (hes : WellFormed (.map es))
    (h : carryOut find resolve es = some es') : Keeps [useKey] (.map es) (.map es') := by
  cases hvalue : Entries.get? es (.str useKey) with
  | none =>
    rw [carryOut, hvalue] at h
    cases h
    exact Keeps.refl _
  | some value =>
    obtain ⟨names, merged, below, -, hmerged, hbelow, rfl⟩ := (carryOut_eq_some hvalue).1 h
    have hwf := hresolve merged below (sections_wellFormed hfind wellFormed_empty hmerged) hbelow
    exact (Keeps.erase List.mem_cons_self es).trans (Keeps.underlay hwf (hes.erase _))

omit hfind hresolve in
/-- A mapping is resolved by resolving values: those that it has when its `_use`, if it has one, has
been carried out. -/
theorem values_of_tree {room : Nat} {es : Entries} {t : Tree}
    (h : Tree.traverse uses (mapping find resolve room) (.map es) = some t) :
    ∃ es₁ es', carryOut find resolve es = some es₁ ∧
      traverseEntries uses (mapping find resolve room) es₁ = some es' ∧ t = .map es' := by
  by_cases huse : Entries.has es (.str useKey) = true
  · rw [traverse_stops huse] at h
    cases room with
    | zero => cases h
    | succ room =>
      rw [mapping] at h
      obtain ⟨es₁, hes₁, hvalues⟩ := Option.bind_eq_some_iff.1 h
      obtain ⟨es', hes', rfl⟩ := Option.map_eq_some_iff.1 hvalues
      exact ⟨es₁, es', hes₁, traverseEntries_mono (fun es t => mapping_mono 1) hes', rfl⟩
  · have hnone : Entries.has es (.str useKey) = false := by simpa using huse
    obtain ⟨es', hes', rfl⟩ := (traverse_map hnone).1 h
    exact ⟨es, es', carryOut_of_has hnone, hes', rfl⟩

omit hfind hresolve in
/-- With room for one more, it does not matter whether the mapping has a `_use`. -/
theorem mapping_of_tree {room : Nat} {es : Entries} {t : Tree}
    (h : Tree.traverse uses (mapping find resolve room) (.map es) = some t) :
    mapping find resolve (room + 1) es = some t := by
  obtain ⟨es₁, es', hes₁, hes', rfl⟩ := values_of_tree h
  rw [mapping, hes₁, Option.bind_some, hes', Option.map_some]

/-- In the place of each value that a tree keeps, it is resolved to something, which is a mapping
only if the value is. -/
theorem at?_tree {room : Nat} {t₀ t t' v : Tree} {keys : List Tree} (hkeeps : Keeps [useKey] t₀ t)
    (ht : t.WellFormed) (h : Tree.traverse uses (mapping find resolve room) t = some t')
    (huse : .str useKey ∉ keys) (hv : t₀.at? (keyPath keys) = some v) :
    ∃ v', t'.at? (keyPath keys) = some v' ∧ ∀ es', v' = .map es' → ∃ es, v = .map es := by
  induction keys generalizing room t₀ t t' with
  | nil =>
    obtain rfl : t₀ = v := by simpa using hv
    refine ⟨t', at?_nil _, ?_⟩
    rintro es' rfl
    obtain ⟨es, rfl⟩ := map_of_traverse h
    cases hkeeps.alike with
    | map es₀ => exact ⟨es₀, rfl⟩
    | same => exact ⟨es, rfl⟩
  | cons key rest ih =>
    obtain ⟨hkey, hrest⟩ := not_or.1 (List.mem_cons.not.1 huse)
    obtain ⟨es₀, v₀, rfl, hget₀, hv₀⟩ := map_of_at? hv
    obtain ⟨es, rfl⟩ : ∃ es, t = .map es := by
      cases hkeeps.alike with
      | map _ es => exact ⟨es, rfl⟩
      | same => exact ⟨es₀, rfl⟩
    obtain ⟨es₁, es', hes₁, hes', rfl⟩ := values_of_tree h
    have hwf := carryOut_wellFormed hfind hresolve ht hes₁
    have hkept := carryOut_keeps hfind hresolve ht hes₁
    have hpath : Avoids [useKey] [.value key] := by simpa [Avoids, eq_comm] using hkey
    obtain ⟨u, hu, hkeeps'⟩ := (hkeeps.trans hkept).at? hpath (v := v₀) (by simp [hget₀])
    have hget : Entries.get? es₁ key = some u := by simpa using hu
    obtain ⟨u', hu', hresolved⟩ := traverse_of_get? hes' hget
    obtain ⟨v', hv', hmap⟩ := ih hkeeps' (hwf.of_get? hget) hresolved hrest hv₀
    refine ⟨v', ?_, hmap⟩
    change (Tree.map es').at? (.value key :: keyPath rest) = some v'
    rw [at?_map, hu', Option.bind_some, hv']

end Kept

/-! ## Merging -/

mutual

/-- In each place where a mapping of the overlay meets a value, that is a mapping, and the mapping
of the overlay has no `_use`. -/
def fits : (below above : Tree) → Bool
  | .map below, .map above => !Entries.has above (.str useKey) && fitsEntries below above
  | _, .map _ => false
  | _, _ => true
termination_by structural _ above => above

/-- The same for the values of entries. -/
def fitsEntries (below : Entries) : (above : List (Tree × Tree)) → Bool
  | [] => true
  | (key, value) :: rest =>
    ((Entries.get? below key).all fun under => fits under value) && fitsEntries below rest
termination_by structural above => above

end

theorem fitsEntries_iff {below above : Entries} :
    fitsEntries below above = true ↔
      ∀ e ∈ above, ∀ under, Entries.get? below e.1 = some under → fits under e.2 = true := by
  induction above with
  | nil => simp [fitsEntries]
  | cons e rest ih =>
    obtain ⟨key, value⟩ := e
    rw [fitsEntries, Bool.and_eq_true, ih, List.forall_mem_cons, Option.all_eq_true]

theorem fits_map {below : Tree} {above : Entries} :
    fits below (.map above) = true ↔
      ∃ bs, below = .map bs ∧ Entries.has above (.str useKey) = false ∧
        ∀ e ∈ above, ∀ under, Entries.get? bs e.1 = some under → fits under e.2 = true := by
  cases below with
  | map bs =>
    rw [fits, Bool.and_eq_true, fitsEntries_iff, Bool.not_eq_true']
    exact ⟨fun h => ⟨bs, rfl, h⟩, fun ⟨_, heq, h⟩ => by cases heq; exact h⟩
  | _ => simp [fits]

theorem fits_of_get? {below above : Entries} (habove : WellFormed (.map above))
    (h : fits (.map below) (.map above) = true) {key under top : Tree}
    (hunder : Entries.get? below key = some under) (htop : Entries.get? above key = some top) :
    fits under top = true := by
  obtain ⟨_, heq, -, hvalues⟩ := fits_map.1 h
  cases heq
  obtain ⟨k, hmem, hsame⟩ := Entries.mem_of_get? htop
  have hkey : k.WellFormed := ((wellFormed_map.1 habove).2 _ hmem).1
  exact hvalues _ hmem under ((Entries.get?_congr hkey hsame).symm.trans hunder)

/-- What fits over a tree fits at every path. -/
theorem fits_at? {below above under : Tree} {top : Entries} (habove : above.WellFormed)
    (h : fits below above = true) {keys : List Tree}
    (hunder : below.at? (keyPath keys) = some under)
    (htop : above.at? (keyPath keys) = some (.map top)) :
    (∃ es, under = .map es) ∧ Entries.has top (.str useKey) = false := by
  induction keys generalizing below above with
  | nil =>
    obtain rfl : below = under := by simpa using hunder
    obtain rfl : above = .map top := by simpa using htop
    obtain ⟨bs, rfl, huse, -⟩ := fits_map.1 h
    exact ⟨⟨bs, rfl⟩, huse⟩
  | cons key rest ih =>
    obtain ⟨bs, b, rfl, hb, hunder⟩ := map_of_at? hunder
    obtain ⟨as, a, rfl, ha, htop⟩ := map_of_at? htop
    exact ih (habove.of_get? ha) (fits_of_get? habove h hb ha) hunder htop

section Merging

variable (hfind : ∀ name t, find name = some t → t.WellFormed)
  (hresolve : ∀ t t', t.WellFormed → resolve t = some t' → t'.WellFormed)
include hfind hresolve

/-- What fits over the result does not cover a mapping of the base with a mapping, where the tree
itself hides it. -/
theorem uncovers_of_fits {room : Nat} {below t : Tree} {own above : Entries}
    (hown : WellFormed (.map own)) (habove : WellFormed (.map above))
    (h : Tree.traverse uses (mapping find resolve room) (.map own) = some t)
    (hfits : fits t (.map above) = true) :
    Uncovers below (.map (Entries.erase own (.str useKey))) (.map above) := by
  have hkeeps : Keeps [useKey] (.map (Entries.erase own (.str useKey))) (.map own) := by
    refine Keeps.map fun key v hkey hget => ⟨v, ?_, Keeps.refl v⟩
    rwa [Entries.get?_erase (hkey _ List.mem_cons_self)] at hget
  intro keys _ top v _ htop hv
  by_cases huse : .str useKey ∈ keys
  · -- the overlay has a `_use` on the way, but may have none where the tree has a value
    obtain ⟨lead, rest, rfl, hlead⟩ := List.eq_append_cons_of_mem huse
    rw [keyPath, List.map_append, at?_append, Option.bind_eq_some_iff] at htop hv
    obtain ⟨top', htop', hrest⟩ := htop
    obtain ⟨v', hv', -⟩ := hv
    obtain ⟨es, _, rfl, hget, -⟩ := map_of_at? hrest
    obtain ⟨under, hunder, -⟩ := at?_tree hfind hresolve hkeeps hown h hlead hv'
    have hnone := (fits_at? habove hfits hunder htop').2
    rw [Entries.has_eq_isSome, hget] at hnone
    cases hnone
  · obtain ⟨under, hunder, hmap⟩ := at?_tree hfind hresolve hkeeps hown h huse hv
    obtain ⟨es, rfl⟩ := (fits_at? habove hfits hunder htop).1
    exact hmap es rfl

/-- A mapping may be laid over another before the `_use` of that one is carried out. -/
theorem carryOut_mergeEntries {own own' above : Entries} (hown : WellFormed (.map own))
    (habove : WellFormed (.map above)) (huse : Entries.has above (.str useKey) = false)
    (huncovers : ∀ t, Uncovers t (.map (Entries.erase own (.str useKey))) (.map above))
    (h : carryOut find resolve own = some own') :
    carryOut find resolve (mergeEntries own above) = some (mergeEntries own' above) := by
  have hnone : Entries.get? above (.str useKey) = none := by
    simpa [Entries.has_eq_isSome] using huse
  have hget := get?_mergeEntries_below hown habove hnone
  cases hvalue : Entries.get? own (.str useKey) with
  | none =>
    rw [carryOut, hvalue] at h
    cases h
    rw [carryOut, hget, hvalue]
  | some value =>
    obtain ⟨names, merged, below, hnames, hmerged, hbelow, rfl⟩ := (carryOut_eq_some hvalue).1 h
    refine (carryOut_eq_some (hget.trans hvalue)).2
      ⟨names, merged, below, hnames, hmerged, hbelow, Tree.map.inj ?_⟩
    have hwf := hresolve merged below (sections_wellFormed hfind wellFormed_empty hmerged) hbelow
    have herased := hown.erase (.str useKey)
    have hlaid : WellFormed (.map (mergeEntries (Entries.erase own (.str useKey)) above)) := by
      simpa using herased.merge habove
    calc Tree.map (mergeEntries (underlay below (Entries.erase own (.str useKey))) above)
        = (below.merge (.map (Entries.erase own (.str useKey)))).merge (.map above) := by
          rw [← merge_map_map, map_underlay herased]
      _ = below.merge ((Tree.map (Entries.erase own (.str useKey))).merge (.map above)) :=
          merge_assoc hwf herased habove (huncovers below)
      _ = .map (underlay below (Entries.erase (mergeEntries own above) (.str useKey))) := by
          rw [merge_map_map, ← map_underlay hlaid, erase_mergeEntries hown habove hnone]

/-- Trees that fit over one another may be merged before they are resolved. -/
theorem tree_merge {room room' : Nat} {t t' above above' : Tree} (ht : t.WellFormed)
    (habove : above.WellFormed) (h : Tree.traverse uses (mapping find resolve room) t = some t')
    (h' : Tree.traverse uses (mapping find resolve room') above = some above')
    (hfits : fits t' above = true) :
    Tree.traverse uses (mapping find resolve (room + room')) (t.merge above) =
      some (t'.merge above') := by
  have hwf : ∀ {room t t'}, Tree.WellFormed t →
      Tree.traverse uses (mapping find resolve room) t = some t' → t'.WellFormed := fun ht h =>
    traverse_wellFormed (fun es t => mapping_wellFormed hfind hresolve) ht h
  have hmore : ∀ room es t, mapping find resolve room es = some t →
      mapping find resolve (room + room') es = some t := fun room es t => mapping_mono room'
  have hmore' : ∀ room es t, mapping find resolve room' es = some t →
      mapping find resolve (room + room') es = some t := fun room es t h => by
    rw [Nat.add_comm]
    exact mapping_mono room h
  induction above using Tree.induction generalizing room t t' above' with
  | map es ih =>
    obtain ⟨bs', rfl, huse, -⟩ := fits_map.1 hfits
    obtain ⟨bs, rfl⟩ := map_of_traverse h
    obtain ⟨es', hes', rfl⟩ := (traverse_map huse).1 h'
    have hbs'Wf := hwf ht h
    have hes'Wf := hwf habove h'
    -- the values below the overlay, whatever has been placed beneath them
    have hvalues : ∀ room own, WellFormed (.map own) →
        traverseEntries uses (mapping find resolve room) own = some bs' →
        traverseEntries uses (mapping find resolve (room + room')) (mergeEntries own es) =
          some (mergeEntries bs' es') := by
      intro room own hown hresolved
      refine traverseEntries_mergeEntries hown hbs'Wf habove hes'Wf
        (traverseEntries_mono (hmore room) hresolved)
        (traverseEntries_mono (hmore' room) hes') fun k u v u' v' hu hv hu' hv' => ?_
      obtain ⟨u₁, hu₁, hresolvedU⟩ := traverse_of_get? hresolved hu
      obtain ⟨v₁, hv₁, hresolvedV⟩ := traverse_of_get? hes' hv
      obtain rfl : u₁ = u' := Option.some_inj.1 (hu₁.symm.trans hu')
      obtain rfl : v₁ = v' := Option.some_inj.1 (hv₁.symm.trans hv')
      obtain ⟨key, hmem, -⟩ := Entries.mem_of_get? hv
      exact (ih _ hmem).2 (hown.of_get? hu) (habove.of_get? hv) hresolvedU hresolvedV
        (fits_of_get? habove hfits hu' hv)
    have hnone : Entries.get? es (.str useKey) = none := by
      simpa [Entries.has_eq_isSome] using huse
    have hhas : Entries.has (mergeEntries bs es) (.str useKey) =
        Entries.has bs (.str useKey) := by
      rw [Entries.has_eq_isSome, get?_mergeEntries_below ht habove hnone, Entries.has_eq_isSome]
    rw [merge_map_map, merge_map_map]
    by_cases hbs : Entries.has bs (.str useKey) = true
    · have huncovers : ∀ below, Uncovers below (.map (Entries.erase bs (.str useKey))) (.map es) :=
        fun _ => uncovers_of_fits hfind hresolve ht habove h hfits
      rw [traverse_stops hbs] at h
      rw [traverse_stops (hhas.trans hbs)]
      cases room with
      | zero => cases h
      | succ room =>
        rw [mapping] at h
        obtain ⟨own, hown, hresolved⟩ := Option.bind_eq_some_iff.1 h
        obtain ⟨_, hresolved, heq⟩ := Option.map_eq_some_iff.1 hresolved
        cases heq
        rw [Nat.succ_add, mapping,
          carryOut_mergeEntries hfind hresolve ht habove huse huncovers hown, Option.bind_some,
          hvalues room own (carryOut_wellFormed hfind hresolve ht hown) hresolved,
          Option.map_some]
    · obtain ⟨_, hresolved, heq⟩ := (traverse_map (by simpa using hbs)).1 h
      cases heq
      exact (traverse_map (by simpa [hhas] using hbs)).2 ⟨_, hvalues room bs ht hresolved, rfl⟩
  | _ =>
    have hnot : ∀ es', above' ≠ .map es' := by
      rintro es' rfl
      obtain ⟨es, heq⟩ := map_of_traverse h'
      cases heq
    rw [merge_of_not_map (by simp), merge_of_not_map hnot]
    exact traverse_mono (hmore' room) h'

end Merging

/-! ## Layers -/

/-- Each layer fits over what those before it are resolved to, merged over a tree. -/
def fitsOver : (below : Tree) → (layers : List (Tree × Tree)) → Bool
  | _, [] => true
  | below, (layer, result) :: rest => fits below layer && fitsOver (below.merge result) rest

/-- Each of some layers, given with what it is resolved to, fits over those before it. -/
def fitting : (layers : List (Tree × Tree)) → Bool
  | [] => true
  | (_, result) :: rest => fitsOver result rest

section Layers

variable (hfind : ∀ name t, find name = some t → t.WellFormed)
  (hresolve : ∀ t t', t.WellFormed → resolve t = some t' → t'.WellFormed)
include hfind hresolve

theorem tree_foldl_merge {room room' : Nat} {below below' : Tree} {layers : List (Tree × Tree)}
    (hbelow : below.WellFormed) (hlayers : ∀ e ∈ layers, e.1.WellFormed)
    (h : Tree.traverse uses (mapping find resolve room') below = some below')
    (hresolved : ∀ e ∈ layers, Tree.traverse uses (mapping find resolve room) e.1 = some e.2)
    (hfits : fitsOver below' layers = true) :
    Tree.traverse uses (mapping find resolve (room' + room * layers.length))
        ((layers.map Prod.fst).foldl Tree.merge below) =
      some ((layers.map Prod.snd).foldl Tree.merge below') := by
  induction layers generalizing room' below below' with
  | nil => exact h
  | cons e rest ih =>
    obtain ⟨layer, result⟩ := e
    obtain ⟨hlayer, hrest⟩ := List.forall_mem_cons.1 hlayers
    obtain ⟨hresult, hresolved⟩ := List.forall_mem_cons.1 hresolved
    rw [fitsOver, Bool.and_eq_true] at hfits
    have hmerged := tree_merge hfind hresolve hbelow hlayer h hresult hfits.1
    have hroom : room' + room * (rest.length + 1) = room' + room + room * rest.length := by
      rw [Nat.mul_succ]
      omega
    rw [List.length_cons, hroom]
    exact ih (hbelow.merge hlayer) hrest hmerged hresolved hfits.2

/-- Layers that fit over one another may be merged before they are resolved. -/
theorem tree_layers {room : Nat} {layers : List (Tree × Tree)}
    (hlayers : ∀ e ∈ layers, e.1.WellFormed)
    (hresolved : ∀ e ∈ layers, Tree.traverse uses (mapping find resolve room) e.1 = some e.2)
    (hfits : fitting layers = true) :
    Tree.traverse uses (mapping find resolve (room * layers.length))
        ((layers.map Prod.fst).foldl Tree.merge .empty) =
      some ((layers.map Prod.snd).foldl Tree.merge .empty) := by
  cases layers with
  | nil => rfl
  | cons e rest =>
    obtain ⟨first, result⟩ := e
    obtain ⟨hfirst, hrest⟩ := List.forall_mem_cons.1 hlayers
    obtain ⟨hresult, hresolved⟩ := List.forall_mem_cons.1 hresolved
    have hwf : result.WellFormed :=
      traverse_wellFormed (fun es t => mapping_wellFormed hfind hresolve) hfirst hresult
    have hroom : room * (rest.length + 1) = room + room * rest.length := by
      rw [Nat.mul_succ, Nat.add_comm]
    rw [List.map_cons, List.map_cons, List.foldl_cons, List.foldl_cons, empty_merge hfirst,
      empty_merge hwf, List.length_cons, hroom]
    exact tree_foldl_merge hfind hresolve hfirst hrest hresult hresolved hfits

end Layers

end Reuse

end LayeredConfig
