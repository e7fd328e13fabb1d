import LayeredConfig.Proofs.Reuse.Staging

/-!
# How deep sections use others

If no path of uses is longer than the levels that a resolution has, it makes no difference whether a
section is used before or after its turn has come: pulling it in gives what it gives in the document
as it was written. Then `Reuse.inTurn` makes of each section what `Reuse.mapping` makes of it there.
-/

namespace LayeredConfig

open Directive Tree

namespace Reuse

variable {T : String → Prop} {es cur done rest : Entries} {others : List Tree}
  {room room' levels levels' depth n : Nat}

/-- No path of uses from the section has more steps. -/
def Shallow (es : Entries) (n : Nat) (u : String) : Prop :=
  ∀ path, List.IsChain (Uses es) (u :: path) → path.length ≤ n

theorem Shallow.use {u v : String} (h : Shallow es n u) (huse : Uses es u v) :
    ∃ m, n = m + 1 ∧ Shallow es m v := by
  have hpath : ∀ path, List.IsChain (Uses es) (v :: path) → path.length + 1 ≤ n := fun path hpath =>
    h (v :: path) (List.isChain_cons_cons.2 ⟨huse, hpath⟩)
  have hone := hpath [] (.singleton v)
  refine ⟨n - 1, by simp at hone; omega, fun path hchain => ?_⟩
  have := hpath path hchain
  omega

/-- A rank that goes down with every use bounds the paths. -/
theorem shallow_of_rank (rank : String → Nat)
    (h : ∀ e ∈ es, ∀ u, e.1 = .str u → Sectional (fun v => rank v < rank u) e.2) (u : String) :
    Shallow es (rank u) u := by
  intro path
  induction path generalizing u with
  | nil => exact fun _ => Nat.zero_le _
  | cons v rest ih =>
    intro hpath
    obtain ⟨⟨t, ht, hsome⟩, hrest⟩ := List.isChain_cons_cons.1 hpath
    obtain ⟨k, hmem, hkey⟩ := Entries.mem_of_get? ht
    have hdown := of_somewhere_calls (h _ hmem u (same_str.1 hkey)) hsome
    have := ih v hrest
    rw [List.length_cons]
    omega

/-- Each section is as it was written, or is resolved to what it is resolved to there with as many
levels as it needs. -/
structure Partly (T : String → Prop) (room : Nat) (es cur : Entries) : Prop where
  sectional : Sectional T (.map cur)
  each : ∀ u, T u → section? cur u = section? es u ∨
    ∃ raw t, section? es u = some raw ∧ section? cur u = some t ∧
      ∀ n levels, Shallow es n u → n < levels → base (find es) room levels raw = some t

theorem Partly.refl (hes : Sectional T (.map es)) : Partly T room es es where
  sectional := hes
  each _ _ := .inl rfl

/-- The same is pulled in from a document that has been partly resolved as from the one that was
written, and more levels or room make no difference. -/
theorem Partly.pulled_eq (hes : Sectional T (.map es)) (hcur : Partly T room' es cur) {u : String}
    (hu : T u) (hshallow : Shallow es n u) (hlevels : n < levels) (hlevels' : n < levels') :
    pulled cur (base (find cur) room levels) u = pulled es (base (find es) room' levels') u := by
  induction n using Nat.strongRecOn generalizing u levels levels' with
  | ind n ih =>
    obtain ⟨levels, rfl⟩ : ∃ l, levels = l + 1 := ⟨levels - 1, by omega⟩
    obtain ⟨levels', rfl⟩ : ∃ l, levels' = l + 1 := ⟨levels' - 1, by omega⟩
    have hnesting : ∀ room t, nesting t ≤ room + t.nodeCount := fun room t =>
      Nat.le_trans (nesting_le_nodeCount t) (Nat.le_add_left _ _)
    rcases hcur.each u hu with hsame | ⟨raw, t, hraw, ht, hbase⟩
    · refine pulled_congr hsame.symm fun t ht => ?_
      have huses := sectional_uses hes (hsame ▸ ht)
      rw [base_succ, base_succ]
      refine tree_eq_of_agree hcur.sectional.wellFormed hes.wellFormed
        (finishes_base hcur.sectional room levels) (fun v ⟨hv, huse⟩ => ?_) huses (hnesting _ t)
        (hnesting _ t)
      obtain ⟨m, rfl, hm⟩ := hshallow.use huse
      exact ih m (Nat.lt_succ_self m) hv hm (by omega) (by omega)
    · have hvalue := hbase n (levels' + 1) hshallow hlevels'
      have hfinished := base_finished hes (hes.section? hraw) hvalue
      have hmapping : t.isMapping = raw.isMapping := by
        rw [base_succ] at hvalue
        exact (isMapping_tree hvalue).1
      have hself : base (find cur) room (levels + 1) t = some t := by
        rw [base_succ]
        exact tree_of_lacks hfinished.lacks_use
      rw [pulled, pulled, ht, hraw, Option.bind_some, Option.bind_some, hself, hvalue, hmapping]

/-- A section is resolved in a document that has been partly resolved as it is in the one that was
written. -/
theorem Partly.tree_eq (hes : Sectional T (.map es)) (hcur : Partly T room es cur) {u : String}
    {raw : Tree} (hraw : Entries.get? es (.str u) = some raw) (hshallow : Shallow es n u)
    (hlevels : n ≤ levels) (hlevels' : n ≤ levels') (hdepth : nesting raw ≤ depth) {depth' : Nat}
    (hdepth' : nesting raw ≤ depth') :
    Tree.traverse uses (mapping (find cur) (base (find cur) room levels) depth) raw =
      Tree.traverse uses (mapping (find es) (base (find es) room levels') depth') raw := by
  have huses : Sectional (fun v => T v ∧ Uses es u v) raw :=
    (hes.of_get? hraw).restrict.mono fun v ⟨hv, hsome⟩ => ⟨hv, raw, hraw, hsome⟩
  refine tree_eq_of_agree hcur.sectional.wellFormed hes.wellFormed
    (finishes_base hcur.sectional room levels) (fun v ⟨hv, huse⟩ => ?_) huses hdepth hdepth'
  obtain ⟨m, rfl, hm⟩ := hshallow.use huse
  exact hcur.pulled_eq hes hv hm (by omega) (by omega)

/-- When the next section in turn has been resolved, more of the document has. -/
theorem Partly.next (hes : Sectional T (.map es)) {F : Frame} {raw t : Tree}
    (hcur : Partly T room es (F.entries raw)) (hraw : Entries.get? es (.str F.name) = some raw)
    (hshallow : Shallow es levels F.name) (hdepth : nesting raw ≤ depth)
    (h : Tree.traverse uses (mapping (find (F.entries raw)) (base (find (F.entries raw)) room levels)
        depth) raw = some t) (hnext : Sectional T (.map (F.entries t))) :
    Partly T room es (F.entries t) where
  sectional := hnext
  each u hu := by
    by_cases hname : u = F.name
    · subst hname
      rw [F.section?_entries, section?, hraw, Option.filter_some, Option.filter_some,
        (isMapping_tree h).2]
      cases raw.isNull with
      | true => exact .inl rfl
      | false =>
        refine .inr ⟨raw, t, rfl, rfl, fun n levels' hn hlevels' => ?_⟩
        obtain ⟨levels', rfl⟩ : ∃ l, levels' = l + 1 := ⟨levels' - 1, by omega⟩
        rw [base_succ, ← h, hcur.tree_eq hes hraw hshallow (Nat.le_refl _) (Nat.le_refl _) hdepth
          hdepth]
        have hmin : Shallow es (min n levels) F.name := fun path hpath =>
          Nat.le_min.2 ⟨hn path hpath, hshallow path hpath⟩
        exact (Partly.refl hes).tree_eq hes hraw hmin (by omega) (by omega)
          (Nat.le_trans (nesting_le_nodeCount raw) (Nat.le_add_left _ _)) hdepth
    · rw [F.section?_entries_of_ne hname t raw]
      exact hcur.each u hu

/-- If no path of uses is too long, the sections are made into what they are in the document as it
was written. -/
theorem inTurn_eq_entries (hes : Sectioned others T es) (hdue : Due T es done rest)
    (hpartly : Partly T room es (done ++ rest))
    (hshallow : ∀ u, Entries.has rest (.str u) = true → Shallow es levels u)
    (hdepth : ∀ e ∈ rest, nesting e.2 ≤ depth) :
    inTurn room levels depth done rest =
      traverseEntries uses (mapping (find es) (base (find es) room levels) depth) rest := by
  induction rest generalizing done with
  | nil => rfl
  | cons e rest ih =>
    obtain ⟨F, rfl, hkey, hcur, hraw, hentries, hnext⟩ := hdue.step hes
    obtain ⟨hfirst, hrest⟩ := List.forall_mem_cons.1 hdepth
    have hpartly' : Partly T room es (F.entries e.2) := hcur ▸ hpartly
    have hname : Shallow es levels F.name := by
      refine hshallow F.name ?_
      rw [Entries.has, List.any_cons, hkey, Tree.same_refl, Bool.true_or]
    have heq := hpartly'.tree_eq hes.sectional hraw hname (Nat.le_refl _) (Nat.le_refl _) hfirst
      hfirst
    rw [inTurn, traverseEntries, ← hcur, ← heq]
    cases ht : Tree.traverse uses
        (mapping (find (F.entries e.2)) (base (find (F.entries e.2)) room levels) depth) e.2 with
    | none => rfl
    | some t =>
      have hdue' := hnext ht
      have hcur' : done ++ [(e.1, t)] ++ rest = F.entries t := by rw [hentries]; simp
      have hsectional := hdue'.stage.sectional
      rw [hcur'] at hsectional
      have hpartly'' := hpartly'.next hes.sectional hraw hname hfirst ht hsectional
      rw [Option.bind_some, Option.bind_some, ih hdue' (hcur' ▸ hpartly'') ?_ hrest]
      intro u hu
      refine hshallow u ?_
      rw [Entries.has, List.any_cons, Bool.or_eq_true]
      exact .inr hu

/-- Something is pulled in for every section, if all are mappings and no path of uses is too
long. -/
theorem exists_pulled (hes : Sectional T (.map es))
    (hmapping : ∀ u, T u → ∃ t, section? es u = some t ∧ t.isMapping = true) {u : String} (hu : T u)
    (hshallow : Shallow es n u) (hlevels : n < levels) :
    ∃ b, pulled es (base (find es) room levels) u = some b := by
  induction n using Nat.strongRecOn generalizing u levels with
  | ind n ih =>
    obtain ⟨levels, rfl⟩ : ∃ l, levels = l + 1 := ⟨levels - 1, by omega⟩
    obtain ⟨t, ht, hmap⟩ := hmapping u hu
    obtain ⟨b, hb⟩ : ∃ b, base (find es) room (levels + 1) t = some b := by
      rw [base_succ]
      refine exists_tree_of_pulled hes.wellFormed (finishes_base hes room levels)
        (fun v ⟨hv, huse⟩ => ?_) (sectional_uses hes ht)
        (Nat.le_trans (nesting_le_nodeCount t) (Nat.le_add_left _ _))
      obtain ⟨m, rfl, hm⟩ := hshallow.use huse
      exact ih m (Nat.lt_succ_self m) hv hm (by omega)
    exact ⟨b, pulled_eq_some.2 ⟨t, ht, hmap, hb⟩⟩

/-- Then every section is resolved to something. -/
theorem exists_entries_of_shallow (room : Nat) (hes : Sectional T (.map es))
    (hmapping : ∀ u, T u → ∃ t, section? es u = some t ∧ t.isMapping = true)
    (hshallow : ∀ u, Shallow es levels u) (hdepth : ∀ e ∈ es, nesting e.2 ≤ depth) :
    ∃ es', traverseEntries uses (mapping (find es) (base (find es) room levels) depth) es =
      some es' := by
  refine exists_traverseEntries fun e he => ?_
  obtain ⟨name, hname⟩ := hes.text he
  have hraw : Entries.get? es (.str name) = some e.2 :=
    hname ▸ Entries.get?_of_mem hes.wellFormed he
  have huses : Sectional (fun v => T v ∧ Uses es name v) e.2 :=
    (hes.of_get? hraw).restrict.mono fun v ⟨hv, hsome⟩ => ⟨hv, e.2, hraw, hsome⟩
  refine exists_tree_of_pulled hes.wellFormed (finishes_base hes room levels)
    (fun v ⟨hv, huse⟩ => ?_) huses (hdepth e he)
  obtain ⟨m, rfl, hm⟩ := (hshallow name).use huse
  exact exists_pulled hes hmapping hv hm (Nat.lt_succ_self m)

end Reuse

open Reuse in
/-- A document of sections none of which uses others too deep is loaded as `Reuse.mapping` says, or
not at all. -/
theorem Settings.load_entries {s : Settings} {o : LoadOptions} {path : FilePath} {w : World}
    {T : String → Prop} {es : Entries} (hself : o.selfReferences = true)
    (hreads : s.Reads o path w (.map es)) (hes : Sectioned (o.sources.getD []) T es)
    (hshallow : ∀ u, Shallow es substitutionLimit u) :
    ∃ room, let value := traverseEntries Reuse.uses (mapping (Reuse.find es)
        (base (Reuse.find es) room substitutionLimit) (room + (Tree.map es).nodeCount)) es
      (∀ rs, value = some rs → ∃ ledger w', outcome (s.load path o) w =
        (.ok (withPath o.pathField (FilePath.normalize w.directory path) (.map rs), ledger), w')) ∧
      (value = none → ∃ e w', outcome (s.load path o) w = (.error e, w')) := by
  obtain ⟨room, hsome, hnone⟩ := load_inTurn (E := fun _ => True) hself hreads hes
    fun _ _ _ _ _ _ _ _ _ _ _ _ _ _ => trivial
  rw [inTurn_eq_entries hes (.start hes) (.refl hes.sectional) (fun u _ => hshallow u)
    (hes.nesting_le room)] at hsome hnone
  refine ⟨room, hsome, fun hvalue => ?_⟩
  obtain ⟨e, w', -, hrun⟩ := hnone hvalue
  exact ⟨e, w', hrun⟩

end LayeredConfig
