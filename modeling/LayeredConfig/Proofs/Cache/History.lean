import LayeredConfig.Proofs.Cache.Contents

/-!
# Caches over time

A cache that nothing was in at first behaves as a map from queries to results, whatever is done with
it and however often (`Turn`): each query is answered with the result that was kept for it last, as
long as this result holds and unless it was removed, and the entries listed are those of the map.
-/

namespace LayeredConfig.Store

open Cache (Query Kept Contents Separate query)

variable {s : Store} {R : Set Query} {w w' : World} {c c' : Contents} {q : Query} {k : Kept}
  {paths : List FilePath} {settings : List String}

/-! ## Listing -/

/-- The entries are those of the contents, once each, in the order of their keys. -/
structure Lists (s : Store) (c : Contents) (entries : List EntryInfo) : Prop where
  ordered : entries.Pairwise fun a b => a.key < b.key
  kept : ∀ e ∈ entries, ∃ q k, c q = some k ∧ e.key = q.key ∧ e.inputs = q.paths ∧
    e.modified = k.written ∧ e.path = s.entryPath q.key
  complete : ∀ q k, c q = some k → ∃ e ∈ entries, e.key = q.key ∧ e.inputs = q.paths

theorem listed_eq (hroot : w.hasDirectory s.root = true) :
    s.listed w = ((w.names (w.placeOf s.root)).filterMap fun name =>
      w.inspected (s.root.join ⟨name⟩)).mergeSort fun a b => decide (a.key ≤ b.key) := by
  obtain ⟨t, hlocate⟩ := locate_root hroot
  have hlisting : w.listing s.root = .ok (w.names (w.placeOf s.root)) := by
    rw [World.listing, hlocate]
  rw [listed, if_pos hroot, hlisting]
  dsimp only
  rw [List.filterMap_map]
  rfl

theorem mem_listed_iff {e : EntryInfo} (hroot : w.hasDirectory s.root = true) :
    e ∈ s.listed w ↔
      ∃ name ∈ w.names (w.placeOf s.root), w.inspected (s.root.join ⟨name⟩) = some e := by
  rw [listed_eq hroot, List.mem_mergeSort, List.mem_filterMap]

/-- Entries are found under their paths if each name that a key is read from is found. -/
theorem Reachable.of_keys (hsound : w.Sound)
    (h : ∀ key, IsKey key → key ++ ".yml" ∈ w.names (w.placeOf s.root) →
      (w.find? (s.entryPath key)).isSome = true) : s.Reachable w := by
  intro names hlisting name hname hread
  rw [World.listing] at hlisting
  split at hlisting
  next place t hlocate =>
    cases hlisting
    rw [World.placeOf_of_locate hlocate] at hname
    obtain ⟨key, hkey⟩ := Option.isSome_iff_exists.1 hread
    obtain ⟨hvalid, rfl⟩ := (keyOf?_join_iff (World.walk_of_locate hlocate).1
      (hsound.plain_of_mem_names hname)).1 hkey
    exact h key hvalid hname
  all_goals cases hlisting

/-- What is listed under a name has the key that is read from it. -/
theorem name_of_inspected (hsound : w.Sound) (hroot : s.root.text ≠ "") {name : String}
    {e : EntryInfo} (hname : name ∈ w.names (w.placeOf s.root))
    (he : w.inspected (s.root.join ⟨name⟩) = some e) : IsKey e.key ∧ name = e.key ++ ".yml" := by
  refine (keyOf?_join_iff hroot (hsound.plain_of_mem_names hname)).1 ?_
  unfold World.inspected at he
  split at he
  next key node hkey hnode =>
    cases he
    exact hkey
  · cases he

/-- Entries with different keys that are sorted by their keys are strictly in order. -/
theorem ordered_mergeSort {entries : List EntryInfo} (h : (entries.map (·.key)).Nodup) :
    (entries.mergeSort fun a b => decide (a.key ≤ b.key)).Pairwise fun a b => a.key < b.key := by
  have hsorted : (entries.mergeSort fun a b => decide (a.key ≤ b.key)).Pairwise
      fun a b => decide (a.key ≤ b.key) = true := by
    refine List.pairwise_mergeSort (fun a b c hab hbc => ?_) (fun a b => ?_) entries
    · exact decide_eq_true (String.le_trans (of_decide_eq_true hab) (of_decide_eq_true hbc))
    · simpa using String.le_total a.key b.key
  have hdistinct : (entries.mergeSort fun a b => decide (a.key ≤ b.key)).Pairwise
      fun a b => a.key ≠ b.key :=
    List.pairwise_map.1 (((List.mergeSort_perm entries _).map _).nodup_iff.2 h)
  refine hsorted.imp₂ (fun a b hle hne => ?_) hdistinct
  exact String.not_le.1 fun hge => hne (String.le_antisymm (of_decide_eq_true hle) hge)

/-- The names in a directory are different, and so are the keys of what is listed. -/
theorem listed_ordered (hsound : w.Sound) (s : Store) :
    (s.listed w).Pairwise fun a b => a.key < b.key := by
  by_cases hroot : w.hasDirectory s.root = true
  · rw [listed_eq hroot]
    refine ordered_mergeSort ?_
    obtain ⟨t, hlocate⟩ := locate_root hroot
    rw [List.map_filterMap]
    refine List.pairwise_filterMap.2 ((hsound.names_nodup _).imp_of_mem ?_)
    intro name name' hname hname' hne key hread key' hread' hsame
    obtain ⟨e, he, rfl⟩ := Option.map_eq_some_iff.1 hread
    obtain ⟨e', he', rfl⟩ := Option.map_eq_some_iff.1 hread'
    have hnonempty := (World.walk_of_locate hlocate).1
    obtain ⟨-, rfl⟩ := name_of_inspected hsound hnonempty hname he
    obtain ⟨-, rfl⟩ := name_of_inspected hsound hnonempty hname' he'
    exact hne (by rw [hsame])
  · rw [listed, if_neg hroot]
    exact List.Pairwise.nil

namespace Shelf

/-- What is listed of the entry of a query. -/
theorem inspected_entry (h : Shelf s R w c) (hq : c q = some k) :
    ∃ size, w.inspected (s.entryPath q.key) =
      some ⟨q.key, q.paths, size, k.written, s.entryPath q.key⟩ := by
  obtain ⟨text, hread, hfile⟩ := h.stands q k hq
  have hkey : keyOf? (s.entryPath q.key) = some q.key :=
    (keyOf?_join_iff h.nonempty q.isKey.plain).2 ⟨q.isKey, rfl⟩
  rw [World.inspected, hkey, hfile, World.entry_of_find? hfile hread]
  exact ⟨_, rfl⟩

/-- Every name of an entry is that of the entry of a query, which is found. -/
theorem reachable (h : Shelf s R w c) : s.Reachable w := by
  refine Reachable.of_keys h.sound fun key hkey hname => ?_
  obtain ⟨q, hkept, rfl⟩ := h.only key hkey (World.mem_names_iff.1 hname)
  obtain ⟨k, hk⟩ := Option.isSome_iff_exists.1 hkept
  obtain ⟨text, -, hfile⟩ := h.stands q k hk
  rw [hfile]
  rfl

/-- A name in the directory of the cache that is listed is that of the entry of a query. -/
theorem kept_of_inspected (h : Shelf s R w c) {name : String} {e : EntryInfo}
    (hname : name ∈ w.names (w.placeOf s.root))
    (he : w.inspected (s.root.join ⟨name⟩) = some e) :
    ∃ q k, c q = some k ∧ name = q.key ++ ".yml" ∧ e.key = q.key ∧ e.inputs = q.paths ∧
      e.modified = k.written ∧ e.path = s.entryPath q.key := by
  obtain ⟨hkey, rfl⟩ := name_of_inspected h.sound h.nonempty hname he
  obtain ⟨q, hkept, hq⟩ := h.only _ hkey (World.mem_names_iff.1 hname)
  obtain ⟨k, hk⟩ := Option.isSome_iff_exists.1 hkept
  rw [← hq] at he
  obtain ⟨size, hentry⟩ := h.inspected_entry hk
  cases hentry.symm.trans he
  exact ⟨q, k, hk, rfl, rfl, rfl, rfl, rfl⟩

/-- What is listed are the contents. -/
theorem lists (h : Shelf s R w c) : s.Lists c (s.listed w) := by
  by_cases hroot : w.hasDirectory s.root = true
  · refine ⟨listed_ordered h.sound s, fun e he => ?_, fun q k hk => ?_⟩
    · obtain ⟨name, hname, hentry⟩ := (mem_listed_iff hroot).1 he
      obtain ⟨q, k, hk, -, hinfo⟩ := h.kept_of_inspected hname hentry
      exact ⟨q, k, hk, hinfo⟩
    · obtain ⟨size, hentry⟩ := h.inspected_entry hk
      obtain ⟨text, -, hfile⟩ := h.stands q k hk
      have hname : q.key ++ ".yml" ∈ w.names (w.placeOf s.root) :=
        World.mem_names_iff.2 (h.isSome_node? q.isKey (by rw [hfile]; rfl))
      exact ⟨_, (mem_listed_iff hroot).2 ⟨_, hname, hentry⟩, rfl, rfl⟩
  · rw [listed, if_neg hroot]
    refine ⟨List.Pairwise.nil, fun e he => ?_, fun q k hk => ?_⟩
    · cases he
    · exact absurd (h.there q k hk) hroot

/-! ## Clearing -/

/-- Clearing removes as many entries as are listed, and then nothing is kept. -/
theorem clear (h : Shelf s R w c) (hR : Separate R) :
    ∃ w', outcome s.clear w = (.ok (s.listed w).length, w') ∧ Shelf s R w' Contents.empty := by
  have hlists := h.lists
  have hkeys : ∀ key ∈ (s.listed w).map (·.key), ∃ q ∈ R, q.key = key := by
    intro key hkey
    obtain ⟨e, he, rfl⟩ := List.mem_map.1 hkey
    obtain ⟨q, k, hk, hq, -⟩ := hlists.kept e he
    exact ⟨q, h.asked q k hk, hq.symm⟩
  obtain ⟨w', c', hrun, h', hc'⟩ := h.removeAll hR hkeys
  -- What was kept is listed, so its key is among those removed.
  have hnothing : c' = Contents.empty := by
    refine funext fun q => Option.eq_none_iff_forall_ne_some.2 fun k hk => ?_
    obtain ⟨hkept, hnot⟩ := hc' q k hk
    obtain ⟨e, he, hq, -⟩ := hlists.complete q k hkept
    exact hnot (List.mem_map.2 ⟨e, he, hq⟩)
  refine ⟨w', ?_, hnothing ▸ h'⟩
  rw [Store.clear]
  refine (outcome_bind_of_ok (entries_run h.reachable) _).trans ?_
  exact (outcome_bind_of_ok hrun _).trans rfl

end Shelf

/-! ## Histories -/

/-- The cache has not been used yet: nothing is in the place of its directory, which is there or can
be made there. -/
structure Unused (s : Store) (w : World) : Prop where
  sound : w.Sound
  token : '/' ∉ w.token.toList
  root : w.hasDirectory s.root = true ∨ s.Roomy w
  vacant : ∀ name, w.node? (w.placeOf s.root ++ [name]) = none

/-- Something else happened, at other places than those of entries. -/
structure Elsewhere (s : Store) (w w' : World) : Prop where
  directory : w'.directory = w.directory
  token : '/' ∉ w'.token.toList
  sound : w'.Sound
  root : w.hasDirectory s.root = true → w'.hasDirectory s.root = true
  entries : ∀ key, IsKey key → w'.node? (s.entryPlace w key) = w.node? (s.entryPlace w key)

/-- One thing that is done with the cache, or happens elsewhere, and what it means for the contents.
Among what is asked are only some queries, and what is saved reads back as it is written. -/
inductive Turn (s : Store) (R : Set Query) : World × Contents → World × Contents → Prop where
  | saved {w w₁ w' : World} {c : Contents} {paths : List FilePath} {settings : List String}
      {tree : Tree} {l l' : Ledger} (hasked : query w paths settings ∈ R)
      (hsigned : outcome (signed l) w = (.ok l', w₁))
      (hreads : Envelope.ReadsBack ⟨engineName, (query w paths settings).paths, tree, l'⟩)
      (hsave : outcome (s.save paths settings tree l) w = (.ok (l', .ok ()), w')) :
      Turn s R (w, c) (w', c.keep (query w paths settings) ⟨tree, l', w.now⟩)
  | unsaved {w w' : World} {c : Contents} {paths : List FilePath} {settings : List String}
      {tree : Tree} {l l' : Ledger} {fault : Error}
      (hsave : outcome (s.save paths settings tree l) w = (.ok (l', .error fault), w')) :
      Turn s R (w, c) (w', c)
  | lookedUp {w w' : World} {c : Contents} {paths : List FilePath} {settings : List String}
      {hit : Option (Tree × Ledger)} (hasked : query w paths settings ∈ R)
      (hlookup : outcome (s.lookup paths settings) w = (.ok hit, w')) : Turn s R (w, c) (w', c)
  | removed {w w' : World} {c : Contents} {key : String}
      (hremove : outcome (s.remove key) w = (.ok true, w')) :
      Turn s R (w, c) (w', c.without s w key)
  | unremoved {w w' : World} {c : Contents} {key : String} {r : Except Error Bool}
      (hremove : outcome (s.remove key) w = (r, w')) (hr : r ≠ .ok true) : Turn s R (w, c) (w', c)
  | cleared {w w' : World} {c : Contents} {count : Nat}
      (hclear : outcome s.clear w = (.ok count, w')) : Turn s R (w, c) (w', Contents.empty)
  | elsewhere {w w' : World} {c : Contents} (h : s.Elsewhere w w') : Turn s R (w, c) (w', c)

theorem Unused.shelf (h : s.Unused w) : Shelf s R w Contents.empty where
  sound := h.sound
  token := h.token
  root := h.root
  asked := nofun
  there := nofun
  stands := nofun
  only key _ hnode := by
    rw [entryPlace, h.vacant] at hnode
    cases hnode

/-- Each turn keeps the files in step with the contents. -/
theorem Turn.shelf (hR : Separate R) (hturn : Turn s R (w, c) (w', c')) (h : Shelf s R w c) :
    Shelf s R w' c' := by
  cases hturn with
  | saved hasked hsigned hreads hsave =>
    obtain ⟨l', w₁, r, w₂, -, hsave', -, hkept⟩ := h.save hR _ _ _ _
    cases hsave.symm.trans hsave'
    exact hkept rfl hasked hreads
  | unsaved hsave =>
    obtain ⟨l', w₁, r, w₂, -, hsave', hfault, -⟩ := h.save hR _ _ _ _
    cases hsave.symm.trans hsave'
    exact hfault ⟨_, rfl⟩
  | lookedUp hasked hlookup =>
    obtain ⟨-, rfl⟩ := Prod.mk.inj (hlookup.symm.trans (h.lookup hR hasked))
    exact h
  | removed hremove => exact (h.remove hremove).2 rfl
  | unremoved hremove hr => exact (h.remove hremove).1 hr
  | cleared hclear =>
    obtain ⟨w₁, hclear', hempty⟩ := h.clear hR
    cases hclear.symm.trans hclear'
    exact hempty
  | elsewhere helse =>
    exact h.of_same_entries helse.directory helse.token helse.sound helse.root helse.entries

/-- What the cache does is what a map with its contents does. -/
structure AsMap (s : Store) (R : Set Query) (w : World) (c : Contents) : Prop where
  /-- A query is answered with what is kept for it as long as that holds. -/
  lookup : ∀ paths settings, query w paths settings ∈ R →
    outcome (s.lookup paths settings) w = (.ok (c.answer s w paths settings), w)
  /-- The entries are those of the contents. -/
  entries : ∃ infos, outcome s.entries w = (.ok infos, w) ∧ s.Lists c infos
  /-- Saving ends, and returns the ledger in which the running program is recorded. -/
  save : ∀ paths settings tree l, ∃ l' w₁ r w', outcome (signed l) w = (.ok l', w₁) ∧
    outcome (s.save paths settings tree l) w = (.ok (l', r), w')
  /-- The entry of a query can be removed if there is one. -/
  remove : ∀ q ∈ R, ∃ w', outcome (s.remove q.key) w = (.ok (c q).isSome, w')
  /-- With the entry of a query no other is removed. -/
  without : ∀ q ∈ R, ∀ q', c.without s w q.key q' = if q' = q then none else c q'
  /-- All entries can be removed. -/
  clear : ∃ infos w', outcome s.entries w = (.ok infos, w) ∧
    outcome s.clear w = (.ok infos.length, w')

theorem Shelf.without_key (h : Shelf s R w c) (hR : Separate R) (hasked : q ∈ R) (q' : Query) :
    c.without s w q.key q' = if q' = q then none else c q' := by
  unfold Contents.without
  by_cases hsame : q' = q
  · rw [hsame, if_pos rfl, if_pos rfl]
  rw [if_neg hsame]
  split
  next hplace =>
    rw [placeOf_entryPath h.nonempty q.isKey, placeOf_entryPath h.nonempty q'.isKey] at hplace
    cases hkept : c q' with
    | none => rfl
    | some k => exact absurd (hR.eq_of_key (h.asked q' k hkept) hasked (entryPlace_inj hplace)) hsame
  · rfl

/-- A cache that has not been used behaves as a map ever after. -/
theorem behaves_as_map (hR : Separate R) {w₀ : World} (hstart : s.Unused w₀)
    (hrun : Relation.ReflTransGen (Turn s R) (w₀, Contents.empty) (w, c)) : s.AsMap R w c := by
  -- By induction on the turns, each of which keeps the files in step with the contents.
  have h : Shelf s R w c := by
    generalize hend : (w, c) = last at hrun
    induction hrun generalizing w c with
    | refl =>
      cases hend
      exact hstart.shelf
    | @tail before _ _ hturn ih =>
      subst hend
      exact hturn.shelf hR (ih rfl)
  obtain ⟨w', hclear, -⟩ := h.clear hR
  exact {
    lookup := fun paths settings hasked => h.lookup hR hasked
    entries := ⟨_, entries_run h.reachable, h.lists⟩
    save := fun paths settings tree l => by
      obtain ⟨l', w₁, r, w', hsigned, hsave, -⟩ := h.save hR paths settings tree l
      exact ⟨l', w₁, r, w', hsigned, hsave⟩
    remove := fun q hasked => h.remove_key hR hasked
    without := fun q hasked q' => h.without_key hR hasked q'
    clear := ⟨_, w', entries_run h.reachable, hclear⟩ }

section Example

/-- A world with a file and a program, in which there is no cache yet. -/
def unopened : World :=
  { World.holding [(["r.yml"], .file "a: 1\n".toUTF8 ⟨5000000000⟩),
      (["engine"], .file "\n".toUTF8 ⟨4000000000⟩)] with
    program := some ⟨"/engine"⟩
    now := ⟨9000000000⟩ }

/-- A store whose directory is to be made there. -/
def unopenedStore : Store := ⟨⟨"/cache"⟩, Packages.none⟩

/-- What is kept in it. -/
def unopenedTree : Tree := .map [(.str "a", .int 1)]

/-- What is known of the program. -/
def engineLedger : Ledger where
  records := [(⟨"/engine"⟩, { Record.blank with
    modified := ⟨4616189618054758400⟩
    date := some "1970-01-01 00:00:04"
    hash := some "01ba4719c80b6fe911b091a7c05124b64eeece964e09c058ef8f9805daca546b"
    attributes := [("engine", "recipe-config 0.4.0")] })]
  missed := []

theorem eq_ok_of_toOption {r : Except Error Unit} (h : r.toOption = some ()) : r = .ok () := by
  cases r with
  | error fault => cases h
  | ok u => rfl

/-- The result that was saved is found, and after its entry is removed it is not. -/
theorem saved_result_is_found :
    ∃ q w₁ w₂, outcome (unopenedStore.save [⟨"r.yml"⟩] ["x"] unopenedTree Ledger.empty) unopened =
        (.ok (engineLedger, .ok ()), w₁) ∧
      outcome (unopenedStore.lookup [⟨"/r.yml"⟩] ["x"]) w₁ =
        (.ok (some (unopenedTree, engineLedger)), w₁) ∧
      outcome (unopenedStore.remove (Query.key q)) w₁ = (.ok true, w₂) ∧
      outcome (unopenedStore.lookup [⟨"/r.yml"⟩] ["x"]) w₂ = (.ok none, w₂) := by
  have hquery : query unopened [⟨"r.yml"⟩] ["x"] = ⟨[⟨"/r.yml"⟩], ["x"]⟩ := by decide
  generalize hq : query unopened [⟨"r.yml"⟩] ["x"] = q at hquery
  have hR : Separate {q} := by
    refine ⟨?_, ?_, ?_⟩
    · rintro _ rfl
      rw [hquery]
      decide
    · rintro _ rfl
      rw [hquery]
      decide
    · rintro _ rfl _ rfl -
      rfl
  have hunused : unopenedStore.Unused unopened := by
    refine ⟨by decide, by decide, .inr (Roomy.of_pieces (by decide) (by decide) _), fun name => ?_⟩
    have hplace : unopened.placeOf unopenedStore.root = ["cache"] := by decide
    rw [hplace]
    rfl
  have hsaved : succeeds (unopenedStore.save [⟨"r.yml"⟩] ["x"] unopenedTree Ledger.empty) unopened
      (fun r w => r.1 = engineLedger ∧ r.2.toOption = some () ∧ w.directory = ⟨"/"⟩ ∧
        Contents.answer (fun _ => some ⟨unopenedTree, engineLedger, ⟨9000000000⟩⟩) unopenedStore w
          [⟨"/r.yml"⟩] ["x"] = some (unopenedTree, engineLedger)) = true := by
    decide +kernel
  have hsigned : succeeds (signed Ledger.empty) unopened (fun l _ => l = engineLedger) = true := by
    decide +kernel
  have hreads : Envelope.ReadsBack ⟨engineName, q.paths, unopenedTree, engineLedger⟩ := by
    rw [hquery]
    decide +kernel
  obtain ⟨⟨l, r⟩, w₁, hsave, htest⟩ := succeeds_iff.1 hsaved
  obtain ⟨rfl, hr, hdirectory, hanswer⟩ := of_decide_eq_true htest
  obtain ⟨l, w, hrecorded, htest⟩ := succeeds_iff.1 hsigned
  obtain rfl := of_decide_eq_true htest
  obtain rfl := eq_ok_of_toOption hr
  have hasked {w : World} (hw : w.directory = ⟨"/"⟩) : query w [⟨"/r.yml"⟩] ["x"] = q := by
    rw [query, hw, hquery]
    decide
  have hkept : Relation.ReflTransGen (Turn unopenedStore {q}) (unopened, Contents.empty)
      (w₁, Contents.empty.keep q ⟨unopenedTree, engineLedger, unopened.now⟩) := by
    refine .single ?_
    subst hq
    exact .saved rfl hrecorded hreads hsave
  have h₁ := behaves_as_map hR hunused hkept
  have hthere : (Contents.empty.keep q ⟨unopenedTree, engineLedger, unopened.now⟩) q =
      some ⟨unopenedTree, engineLedger, unopened.now⟩ := if_pos rfl
  obtain ⟨w₂, hremove⟩ := h₁.remove q rfl
  rw [hthere, Option.isSome_some] at hremove
  have h₂ := behaves_as_map hR hunused (hkept.tail (.removed hremove))
  refine ⟨q, w₁, w₂, hsave, ?_, hremove, ?_⟩
  · rw [h₁.lookup _ _ (hasked hdirectory), Contents.answer, hasked hdirectory, hthere]
    rw [Contents.answer] at hanswer
    rw [← hanswer]
    rfl
  · have hdirectory₂ : w₂.directory = ⟨"/"⟩ := by
      rw [remove_run] at hremove
      rcases removed_cases hremove with ⟨-, rfl⟩ | ⟨-, rfl, -⟩
      · exact hdirectory
      · exact hdirectory
    rw [h₂.lookup _ _ (hasked hdirectory₂), Contents.answer, hasked hdirectory₂,
      h₁.without q rfl, if_pos rfl]
    rfl

/-- A world with two files, in which there is no cache yet. -/
def twoInputs : World :=
  { World.holding [(["a"], .file "\n".toUTF8 ⟨5000000000⟩), (["b"], .file "\n".toUTF8 ⟨5000000000⟩)]
      with
    now := ⟨9000000000⟩ }

/-- What was saved for one path with a zero character answers a query with two paths. -/
theorem zeroPath_answers :
    ∃ l w hit w', outcome (unopenedStore.save [⟨"/a\x00/b"⟩] [] (.int 1) Ledger.empty) twoInputs =
        (.ok (l, .ok ()), w) ∧
      query w [⟨"/a"⟩, ⟨"/b"⟩] [] ≠ query twoInputs [⟨"/a\x00/b"⟩] [] ∧
      outcome (unopenedStore.lookup [⟨"/a"⟩, ⟨"/b"⟩] []) w = (.ok (some hit), w') := by
  have hsaved : succeeds (unopenedStore.save [⟨"/a\x00/b"⟩] [] (.int 1) Ledger.empty) twoInputs
      (fun r w => r.2.toOption = some () ∧
        query w [⟨"/a"⟩, ⟨"/b"⟩] [] ≠ query twoInputs [⟨"/a\x00/b"⟩] [] ∧
        (unopenedStore.answer w [⟨"/a"⟩, ⟨"/b"⟩] []).1.isSome) = true := by
    decide +kernel
  obtain ⟨⟨l, r⟩, w, hsave, htest⟩ := succeeds_iff.1 hsaved
  obtain ⟨hr, hother, hanswer⟩ := of_decide_eq_true htest
  obtain rfl := eq_ok_of_toOption hr
  obtain ⟨hit, hhit⟩ := Option.isSome_iff_exists.1 hanswer
  exact ⟨l, w, hit, _, hsave, hother, by rw [lookup_run, hhit]⟩

/-- A cache whose path is empty. -/
def nowhere : Store := ⟨⟨""⟩, Packages.none⟩

/-- What was saved there is not found, though it holds. -/
theorem nowhere_misses :
    ∃ l w w', outcome (nowhere.save [⟨"/a"⟩] [] (.int 1) Ledger.empty) twoInputs =
        (.ok (l, .ok ()), w) ∧
      (Contents.empty.keep (query twoInputs [⟨"/a"⟩] []) ⟨.int 1, l, twoInputs.now⟩).answer nowhere w
        [⟨"/a"⟩] [] = some (.int 1, l) ∧
      outcome (nowhere.lookup [⟨"/a"⟩] []) w = (.ok none, w') := by
  have hsaved : succeeds (nowhere.save [⟨"/a"⟩] [] (.int 1) Ledger.empty) twoInputs
      (fun r w => r.2.toOption = some () ∧
        (Contents.empty.keep (query twoInputs [⟨"/a"⟩] []) ⟨.int 1, r.1, twoInputs.now⟩).answer
          nowhere w [⟨"/a"⟩] [] = some (.int 1, r.1) ∧
        (nowhere.answer w [⟨"/a"⟩] []).1 = none) = true := by
    decide +kernel
  obtain ⟨⟨l, r⟩, w, hsave, htest⟩ := succeeds_iff.1 hsaved
  obtain ⟨hr, hholds, hanswer⟩ := of_decide_eq_true htest
  obtain rfl := eq_ok_of_toOption hr
  exact ⟨l, w, _, hsave, hholds, by rw [lookup_run, hanswer]⟩

/-- A text that can be a key. -/
def zeroKey : String := "0000000000000000000000000000000000000000000000000000000000000000"

/-- A world with an empty directory. -/
def emptied : World := .holding [(["c"], .directory ⟨5000000000⟩)]

/-- A missing directory there, with the name of an entry. -/
def wayside : FilePath := ⟨"/c/" ++ zeroKey ++ ".yml"⟩

/-- A cache in the empty directory whose path leads through the missing one. -/
def detour : Store where
  root := ⟨"/c/" ++ zeroKey ++ ".yml/.."⟩
  packages := Packages.none

/-- The world in which the missing directory has been made. -/
def withWayside : World :=
  emptied.put (emptied.placeOf wayside) (.directory emptied.directoryTime)

theorem detour_made :
    outcome (Host.makeDirectories detour.root : ExceptT Error InWorld _) emptied =
      (.ok (.ok ()), withWayside) := by
  have hpieces : detour.root.pieces.length = 4 := by decide +kernel
  have hparent : detour.root.parent? = some wayside := by decide +kernel
  have hfirst : emptied.makeDirectory detour.root = (.error .missing, emptied) :=
    World.makeDirectory_eq_of_error (by decide +kernel)
  have habove : emptied.makeDirectory wayside = (.ok (), withWayside) :=
    World.makeDirectory_eq_of_ok (by decide +kernel)
  have hsecond : withWayside.makeDirectory detour.root = (.error .exists, withWayside) :=
    World.makeDirectory_eq_of_error (by decide +kernel)
  have hroot : withWayside.hasDirectory detour.root = true := by decide +kernel
  have hwayside : outcome (Host.makeDirectoriesWithin 4 wayside : ExceptT Error InWorld _) emptied =
      (.ok (.ok ()), withWayside) := by
    rw [Host.makeDirectoriesWithin, if_neg (by decide +kernel),
      outcome_bind_of_ok (makeDirectory_run emptied wayside), habove]
    exact orThere_run withWayside wayside (.ok ())
  -- The way is missing at first. Once it has been made, the two dots lead back to where there was a
  -- directory all along.
  rw [Host.makeDirectories, hpieces, Host.makeDirectoriesWithin, if_neg (by decide +kernel),
    outcome_bind_of_ok (makeDirectory_run emptied detour.root), hfirst]
  dsimp only
  rw [hparent]
  dsimp only
  rw [outcome_bind_of_ok hwayside]
  dsimp only
  rw [outcome_bind_of_ok (makeDirectory_run withWayside detour.root), hsecond, orThere_run]
  dsimp only
  rw [if_pos hroot]

/-- A tree that cannot be written. -/
def twiceTagged : Tree := .tagged "t" (.tagged "u" .null)

/-- An attempt to save what cannot be written leaves an entry behind. -/
theorem detour_lists :
    ∃ l fault w infos, outcome (detour.save [⟨"/a"⟩] [] twiceTagged Ledger.empty) emptied =
        (.ok (l, .error fault), w) ∧
      outcome detour.entries w = (.ok infos, w) ∧ infos ≠ [] := by
  have hsigned : outcome (signed Ledger.empty) emptied = (.ok Ledger.empty, emptied) := rfl
  have hobstacle : Yaml.obstacle? false
      (envelope withWayside [⟨"/a"⟩] twiceTagged Ledger.empty).asTree = some .twoTags := by
    decide +kernel
  have hstored : detour.stored withWayside [⟨"/a"⟩] []
      (envelope withWayside [⟨"/a"⟩] twiceTagged Ledger.empty) =
        (.error (.unwritable .twoTags), withWayside) := by
    rw [stored, Yaml.render, hobstacle]
  have hroot : withWayside.hasDirectory detour.root = true := by decide +kernel
  have hname : zeroKey ++ ".yml" ∈
      withWayside.names (withWayside.placeOf detour.root) := by decide +kernel
  have hinspected : (withWayside.inspected (detour.entryPath zeroKey)).isSome = true := by
    decide +kernel
  obtain ⟨e, he⟩ := Option.isSome_iff_exists.1 hinspected
  have hreachable : detour.Reachable withWayside := by
    have hlisting : withWayside.listing detour.root = .ok [zeroKey ++ ".yml"] := by decide +kernel
    intro names hnames name hmem _
    rw [hlisting] at hnames
    cases hnames
    obtain rfl := List.mem_singleton.1 hmem
    decide +kernel
  refine ⟨Ledger.empty, .unwritable .twoTags, withWayside, _, ?_, entries_run hreachable,
    List.ne_nil_of_mem ((mem_listed_iff hroot).2 ⟨_, hname, he⟩)⟩
  rw [save_eq hsigned, saveSigned_of_made detour_made, hstored]

/-- Without the conditions on paths and on the cache it is no map: a query may be answered with what
was saved for another, what was saved may not be found, and what was not saved may be listed. -/
theorem unfit_caches_are_no_maps :
    (∃ l w hit w', outcome (unopenedStore.save [⟨"/a\x00/b"⟩] [] (.int 1) Ledger.empty) twoInputs =
        (.ok (l, .ok ()), w) ∧
      query w [⟨"/a"⟩, ⟨"/b"⟩] [] ≠ query twoInputs [⟨"/a\x00/b"⟩] [] ∧
      outcome (unopenedStore.lookup [⟨"/a"⟩, ⟨"/b"⟩] []) w = (.ok (some hit), w')) ∧
    (∃ l w w', outcome (nowhere.save [⟨"/a"⟩] [] (.int 1) Ledger.empty) twoInputs =
        (.ok (l, .ok ()), w) ∧
      (Contents.empty.keep (query twoInputs [⟨"/a"⟩] []) ⟨.int 1, l, twoInputs.now⟩).answer nowhere w
        [⟨"/a"⟩] [] = some (.int 1, l) ∧
      outcome (nowhere.lookup [⟨"/a"⟩] []) w = (.ok none, w')) ∧
    ∃ l fault w infos, outcome (detour.save [⟨"/a"⟩] [] twiceTagged Ledger.empty) emptied =
        (.ok (l, .error fault), w) ∧
      outcome detour.entries w = (.ok infos, w) ∧ infos ≠ [] :=
  ⟨zeroPath_answers, nowhere_misses, detour_lists⟩

end Example

end LayeredConfig.Store
