import LayeredConfig.Proofs.Cache.Entries
import LayeredConfig.Proofs.Cache.Naming
import LayeredConfig.Proofs.Cache.Rerun
import LayeredConfig.Proofs.Making

/-!
# The contents of a cache

What a cache holds is a map from queries, the paths in normal form and the settings, to results with
the time they were kept at (`Contents`). A directory of files stands for such a map (`Shelf`): the
files with the name of an entry are those of the queries that have a result, and each reads as the
envelope of this result. Saving a result, removing an entry and removing all of them do to the files
what they mean for the map, looking up a result does nothing to either, and other changes of the
world make no difference while they leave the directory alone.
-/

namespace LayeredConfig

namespace Cache

/-! ## Queries and results -/

/-- What is asked of a cache: paths in normal form, and the settings that matter. -/
structure Query where
  paths : List FilePath
  settings : List String
deriving DecidableEq

/-- The key of a query. -/
def Query.key (q : Query) : String := Sha256.hex (material q.paths q.settings)

/-- What is asked with paths as they are written in a world. -/
def query (w : World) (paths : List FilePath) (settings : List String) : Query :=
  ⟨paths.map (FilePath.normalize w.directory), settings⟩

theorem key_query (w : World) (paths : List FilePath) (settings : List String) :
    (query w paths settings).key = key w.directory paths settings := rfl

theorem Query.isKey (q : Query) : Store.IsKey q.key := Store.isKey_hex _

/-- A result and when it was kept. -/
structure Kept where
  tree : Tree
  ledger : Ledger
  written : Instant

/-- What is kept for each query. -/
abbrev Contents := Query → Option Kept

namespace Contents

/-- Nothing is kept. -/
def empty : Contents := fun _ => none

/-- A result is kept for a query, instead of any older one. -/
def keep (c : Contents) (q : Query) (k : Kept) : Contents := fun q' => if q' = q then some k else c q'

/-- Nothing is kept any more for the queries whose file a key leads to. -/
def without (c : Contents) (s : Store) (w : World) (key : String) : Contents := fun q =>
  if w.placeOf (s.entryPath q.key) = w.placeOf (s.entryPath key) then none else c q

/-- The result kept for a query, if all paths are there and none is newer than the result, and the
ledger of the result reports no change. -/
def answer (c : Contents) (s : Store) (w : World) (paths : List FilePath)
    (settings : List String) : Option (Tree × Ledger) :=
  (c (query w paths settings)).bind fun k =>
    if (paths.all fun p => (w.modified? p).any fun t => t.nanoseconds ≤ k.written.nanoseconds) &&
        !k.ledger.changedIn w k.written s.packages then
      some (k.tree, k.ledger)
    else none

end Contents

/-- Queries that the cache can tell apart: no text has a zero character, and no two of them have
different material and the same digest. -/
structure Separate (R : Set Query) : Prop where
  paths : ∀ q ∈ R, ∀ p ∈ q.paths, '\x00' ∉ p.text.toList
  settings : ∀ q ∈ R, ∀ s ∈ q.settings, '\x00' ∉ s.toList
  digests : ∀ q ∈ R, ∀ q' ∈ R, Sha256.hex (material q.paths q.settings) =
    Sha256.hex (material q'.paths q'.settings) →
      material q.paths q.settings = material q'.paths q'.settings

theorem Separate.eq_of_key {R : Set Query} (h : Separate R) {q q' : Query} (hq : q ∈ R)
    (hq' : q' ∈ R) (hkey : q.key = q'.key) : q = q' := by
  obtain ⟨hpaths, hsettings⟩ := material_inj (h.paths q hq) (h.paths q' hq') (h.settings q hq)
    (h.settings q' hq') (h.digests q hq q' hq' hkey)
  cases q
  cases q'
  rw [Query.mk.injEq]
  exact ⟨hpaths, hsettings⟩

end Cache

namespace Store

open Cache (Query Kept Contents Separate query)

variable {s : Store} {R : Set Query} {w w' : World} {c c' : Contents} {q : Query} {k : Kept}
  {key : String}

/-! ## Places of entries -/

/-- The place of a key's entry. -/
def entryPlace (s : Store) (w : World) (key : String) : Place :=
  w.placeOf s.root ++ [key ++ ".yml"]

theorem placeOf_entryPath (hroot : s.root.text ≠ "") (hkey : IsKey key) :
    w.placeOf (s.entryPath key) = s.entryPlace w key :=
  FilePath.names_absolute_join hkey.plain hroot

theorem entryPlace_inj {key' : String} (h : s.entryPlace w key = s.entryPlace w key') :
    key = key' := by
  have hnames := List.singleton_injective (List.append_cancel_left h)
  have hletters := congrArg String.toList hnames
  rw [String.toList_append, String.toList_append] at hletters
  exact String.toList_inj.1 (List.append_cancel_right hletters)

/-- The way to the directory of the cache leads through no place of an entry. -/
structure Roomy (s : Store) (w : World) : Prop where
  nonempty : s.root.text ≠ ""
  above : ∀ p, p.Above s.root → ∀ key, IsKey key → w.placeOf p ≠ s.entryPlace w key

/-- A path without two dots leads through no place behind it. -/
theorem Roomy.of_pieces (hroot : s.root.text ≠ "") (hup : ['.', '.'] ∉ s.root.pieces) (w : World) :
    s.Roomy w := by
  refine ⟨hroot, fun p hp key _ hplace => ?_⟩
  have hlength := hp.length_names_le hup w.directory
  rw [← World.placeOf, hplace, entryPlace, List.length_append, World.placeOf] at hlength
  exact absurd hlength (by simp)

theorem locate_root (h : w.hasDirectory s.root = true) :
    ∃ t, w.locate s.root = .ok (w.placeOf s.root, some (.directory t)) :=
  World.hasDirectory_iff.1 h

/-- What is found as an entry is found there as long as nothing changes at its place. -/
theorem find?_entryPath (hroot : w.hasDirectory s.root = true)
    (hroot' : w'.hasDirectory s.root = true) (hdirectory : w'.directory = w.directory)
    (hkey : IsKey key) (hnode : w'.node? (s.entryPlace w key) = w.node? (s.entryPlace w key))
    {node : Node} (h : w.find? (s.entryPath key) = some node) :
    w'.find? (s.entryPath key) = some node := by
  obtain ⟨t, hlocate⟩ := locate_root hroot
  obtain ⟨t', hlocate'⟩ := locate_root hroot'
  have hplace : w'.placeOf s.root = w.placeOf s.root := by
    rw [World.placeOf, World.placeOf, hdirectory]
  rw [World.find?] at h ⊢
  cases hfound : w.locate (s.entryPath key) with
  | error fault =>
    rw [hfound] at h
    cases h
  | ok found =>
    have hhere := World.locate_join_of_ok hlocate hlocate hkey.plain hfound
    have hthere := World.locate_join_of_ok hlocate hlocate' hkey.plain hfound
    rw [entryPath, hhere] at h
    rw [entryPath, hthere, hplace]
    exact hnode.trans h

/-! ## Files that stand for the contents -/

/-- The entry of a query is a file, written when the result was kept, that reads as its envelope. -/
def Stands (s : Store) (w : World) (q : Query) (k : Kept) : Prop :=
  ∃ text, (Yaml.decode Envelope.decoder text).toOption =
      some ⟨engineName, q.paths, k.tree, k.ledger⟩ ∧
    w.find? (s.entryPath q.key) = some (.file text.toUTF8 k.written)

/-- The files of a cache stand for its contents. -/
structure Shelf (s : Store) (R : Set Query) (w : World) (c : Contents) : Prop where
  sound : w.Sound
  token : '/' ∉ w.token.toList
  root : w.hasDirectory s.root = true ∨ s.Roomy w
  asked : ∀ q k, c q = some k → q ∈ R
  there : ∀ q k, c q = some k → w.hasDirectory s.root = true
  stands : ∀ q k, c q = some k → s.Stands w q k
  only : ∀ key, IsKey key → (w.node? (s.entryPlace w key)).isSome = true →
    ∃ q, (c q).isSome = true ∧ q.key = key

namespace Shelf

theorem nonempty (h : Shelf s R w c) : s.root.text ≠ "" := by
  rcases h.root with hroot | hroot
  · obtain ⟨t, hlocate⟩ := locate_root hroot
    exact (World.walk_of_locate hlocate).1
  · exact hroot.nonempty

theorem located (h : Shelf s R w c) (hroot : w.hasDirectory s.root = true) :
    s.Located (w.placeOf s.root) w := ⟨locate_root hroot, h.token⟩

/-- After a change the files stand for the contents if what is kept was kept before and is left
alone, or is new and has its entry, and there are no other entries. -/
theorem of_change (h : Shelf s R w c) (hdirectory : w'.directory = w.directory)
    (htoken : '/' ∉ w'.token.toList) (hsound : w'.Sound)
    (hroot : w.hasDirectory s.root = true → w'.hasDirectory s.root = true)
    (hkept : ∀ q k, c' q = some k →
      c q = some k ∧ w'.node? (s.entryPlace w q.key) = w.node? (s.entryPlace w q.key) ∨
      q ∈ R ∧ w'.hasDirectory s.root = true ∧ s.Stands w' q k)
    (honly : ∀ key, IsKey key → (w'.node? (s.entryPlace w key)).isSome = true →
      ∃ q, (c' q).isSome = true ∧ q.key = key) : Shelf s R w' c' where
  sound := hsound
  token := htoken
  root := by
    refine h.root.imp hroot fun hroomy => ⟨hroomy.nonempty, fun p hp key hkey => ?_⟩
    rw [entryPlace, World.placeOf, World.placeOf, hdirectory]
    exact hroomy.above p hp key hkey
  asked q k hq := (hkept q k hq).elim (fun hold => h.asked q k hold.1) fun hnew => hnew.1
  there q k hq := (hkept q k hq).elim (fun hold => hroot (h.there q k hold.1)) fun hnew => hnew.2.1
  stands q k hq := by
    rcases hkept q k hq with ⟨hc, hnode⟩ | ⟨-, -, hstands⟩
    · obtain ⟨text, hread, hfile⟩ := h.stands q k hc
      have hthere := h.there q k hc
      exact ⟨text, hread, find?_entryPath hthere (hroot hthere) hdirectory q.isKey hnode hfile⟩
    · exact hstands
  only key hkey hnode := by
    rw [entryPlace, World.placeOf, hdirectory] at hnode
    exact honly key hkey hnode

/-- Nothing is different for the contents where no entry is changed. -/
theorem of_same_entries (h : Shelf s R w c) (hdirectory : w'.directory = w.directory)
    (htoken : '/' ∉ w'.token.toList) (hsound : w'.Sound)
    (hroot : w.hasDirectory s.root = true → w'.hasDirectory s.root = true)
    (hentries : ∀ key, IsKey key →
      w'.node? (s.entryPlace w key) = w.node? (s.entryPlace w key)) : Shelf s R w' c :=
  h.of_change hdirectory htoken hsound hroot
    (fun q _ hq => .inl ⟨hq, hentries q.key q.isKey⟩)
    fun key hkey hnode => h.only key hkey (hentries key hkey ▸ hnode)

/-! ## Saving -/

theorem noted (h : Shelf s R w c) (hnoted : Noted w w') : Shelf s R w' c := by
  have hfiles := hnoted.sameFiles
  obtain ⟨memo, warnings, rfl⟩ := hnoted
  refine h.of_same_entries rfl h.token (h.sound.of_nodes_eq rfl) (fun hroot => ?_) fun _ _ => rfl
  rw [hfiles.hasDirectory_eq, hroot]

/-- Making the directory of the cache changes no contents. -/
theorem made (h : Shelf s R w c) :
    ∃ made w', outcome (Host.makeDirectories s.root : ExceptT Error InWorld _) w = (.ok made, w') ∧
      Shelf s R w' c ∧ w'.directory = w.directory ∧ w'.now = w.now ∧
      (made = .ok () → w'.hasDirectory s.root = true) := by
  by_cases hroot : w.hasDirectory s.root = true
  · obtain ⟨node, hfind, hnode⟩ := (Option.any_eq_true _ _).1 hroot
    exact ⟨_, w, makeDirectories_run hfind, h, rfl, rfl, fun _ => hroot⟩
  · have hroomy := h.root.resolve_left hroot
    obtain ⟨made, w', hmade, hgrown, hdirectory⟩ :=
      makeDirectoriesWithin_run (s.root.pieces.length + 1) w s.root
    refine ⟨made, w', hmade, ?_, hgrown.directory, hgrown.now, fun h => hdirectory h hroomy.nonempty⟩
    -- Nothing is kept yet, and no directory that is made is at the place of an entry.
    refine h.of_change hgrown.directory (hgrown.token ▸ h.token) (hgrown.sound h.sound)
      (fun hthere => absurd hthere hroot) (fun q k hq => absurd (h.there q k hq) hroot) ?_
    intro key hkey hnode
    rcases hgrown.nodes (s.entryPlace w key) with hsame | ⟨⟨p, hp, hplace⟩, -, -⟩
    · exact h.only key hkey (hsame ▸ hnode)
    · exact absurd hplace.symm (hroomy.above p hp key hkey)

end Shelf

/-- The name of the file that the entry of a key is written to first. -/
def stagingName (w : World) (key : String) : String := "." ++ key ++ "." ++ w.token ++ ".tmp"

theorem stagingName_ne (w : World) (key key' : String) : stagingName w key ≠ key' ++ ".yml" := by
  intro h
  have hlast := congrArg (fun name => name.toList.getLast?) h
  have htmp : ".tmp".toList.getLast? = some 'p' := rfl
  have hyml : ".yml".toList.getLast? = some 'l' := rfl
  simp only [stagingName, String.toList_append] at hlast
  rw [List.getLast?_append_of_ne_nil _ (by decide), List.getLast?_append_of_ne_nil _ (by decide),
    htmp, hyml] at hlast
  cases hlast

/-- The file that an entry is written to first is at the place of no entry. -/
theorem entryPlace_ne_staging (s : Store) (w : World) (key key' : String) :
    s.entryPlace w key ≠ w.placeOf s.root ++ [stagingName w key'] := fun h =>
  stagingName_ne w key' key (List.singleton_injective (List.append_cancel_left h)).symm

/-- Moving that file to its place changes one entry. -/
theorem node?_moved (s : Store) (w : World) (key key' : String) (node : Node) :
    (((w.put (w.placeOf s.root ++ [stagingName w key]) node).erase
        (w.placeOf s.root ++ [stagingName w key])).put (s.entryPlace w key) node).node?
          (s.entryPlace w key') = if key' = key then some node else w.node? (s.entryPlace w key') := by
  have hother := entryPlace_ne_staging s w key' key
  rw [World.node?_put (by simp [entryPlace])]
  by_cases hkey : key' = key
  · rw [if_pos hkey, hkey, if_pos rfl]
  · rw [if_neg hkey, if_neg fun h => hkey (entryPlace_inj h), World.node?_erase (by simp),
      if_neg hother, World.node?_put (by simp), if_neg hother]

/-- Replacing the file of a query puts its new content at the place of its entry; if that fails, at
most the file is there that it was written to first. -/
theorem replaced_cases {paths : List FilePath} {settings : List String} {text : String}
    {dir : Place} (h : s.Located dir w) {r : Except SystemFault Unit}
    (hreplaced : s.replaced w (query w paths settings).key text = (r, w')) :
    (∃ fault, r = .error fault) ∧
      (w' = w ∨ w' = w.put (dir ++ [stagingName w (query w paths settings).key])
        (.file text.toUTF8 w.now)) ∨
    r = .ok () ∧
      w' = ((w.put (dir ++ [stagingName w (query w paths settings).key])
          (.file text.toUTF8 w.now)).erase (dir ++ [stagingName w (query w paths settings).key])).put
        (dir ++ [(query w paths settings).key ++ ".yml"]) (.file text.toUTF8 w.now) := by
  obtain ⟨t, hroot⟩ := h.root
  have hstaging : FilePath.Plain (stagingName w (query w paths settings).key) :=
    Cache.plain_stagingName w.directory paths settings h.token
  have hname := Cache.plain_entryName w.directory paths settings
  unfold replaced staging at hreplaced
  split at hreplaced
  next hwrite =>
    cases hreplaced
    exact .inl ⟨⟨_, rfl⟩, .inl (World.write_error hwrite)⟩
  next w₁ hwrite =>
    have hroot₁ := (SameOutside.write hroot hstaging text.toUTF8).locate_directory hroot
    unfold stagingName at hroot₁
    rw [hwrite] at hroot₁
    obtain ⟨place, _, hplace, -, rfl⟩ := World.write_ok hwrite
    cases (World.locate_join_of_ok hroot hroot hstaging hplace).symm.trans hplace
    obtain fault | ⟨⟩ := r
    · exact .inl ⟨⟨_, rfl⟩, .inr (World.rename_error hreplaced)⟩
    · obtain ⟨old, node, new, found, hold, hnew, rfl⟩ := World.rename_ok hreplaced
      obtain ⟨rfl, hnode⟩ := Prod.mk.inj (Except.ok.inj
        ((World.locate_join_of_ok hroot₁ hroot₁ hstaging hold).symm.trans hold))
      cases (World.locate_join_of_ok hroot₁ hroot₁ hname hnew).symm.trans hnew
      rw [World.node?_put (by simp), if_pos rfl] at hnode
      cases hnode
      exact .inr ⟨rfl, rfl⟩

namespace Shelf

variable {paths : List FilePath} {settings : List String}

theorem plain_place (s : Store) (w : World) {name : String} (hname : FilePath.Plain name) :
    ∀ n ∈ w.placeOf s.root ++ [name], FilePath.Plain n := by
  intro n hn
  rcases List.mem_append.1 hn with hn | hn
  · exact World.plain_of_mem_placeOf hn
  · rwa [List.mem_singleton.1 hn]

/-- A result is kept if its entry is there now and the other entries are left alone. -/
theorem keep (h : Shelf s R w c) (hR : Separate R) (hasked : q ∈ R)
    (hdirectory : w'.directory = w.directory) (htoken : '/' ∉ w'.token.toList) (hsound : w'.Sound)
    (hthere : w'.hasDirectory s.root = true) (hstands : s.Stands w' q k)
    (hothers : ∀ key, key ≠ q.key →
      w'.node? (s.entryPlace w key) = w.node? (s.entryPlace w key)) :
    Shelf s R w' (c.keep q k) := by
  refine h.of_change hdirectory htoken hsound (fun _ => hthere) (fun q' k' hq' => ?_)
    fun key hkey hnode => ?_
  · unfold Contents.keep at hq'
    split at hq'
    next heq =>
      cases hq'
      rw [heq]
      exact .inr ⟨hasked, hthere, hstands⟩
    next hne =>
      -- Another query has another key, or else the two would be one.
      refine .inl ⟨hq', hothers _ fun hkey => hne ?_⟩
      exact hR.eq_of_key (h.asked q' k' hq') hasked hkey
  · by_cases hsame : key = q.key
    · exact ⟨q, by simp [Contents.keep], hsame.symm⟩
    · rw [hothers key hsame] at hnode
      obtain ⟨q', hkept, rfl⟩ := h.only key hkey hnode
      refine ⟨q', ?_, rfl⟩
      rw [Contents.keep, if_neg fun heq => hsame (congrArg Query.key heq), hkept]

/-- A failure to replace the file of a query leaves the contents as they were, and a success keeps
what the text of the file reads as. -/
theorem replaced (h : Shelf s R w c) (hR : Separate R) (hroot : w.hasDirectory s.root = true)
    (tree : Tree) (l : Ledger) {text : String} {r : Except SystemFault Unit}
    (hreplaced : s.replaced w (query w paths settings).key text = (r, w')) :
    ((∃ fault, r = .error fault) → Shelf s R w' c) ∧
    (r = .ok () → query w paths settings ∈ R → (Yaml.decode Envelope.decoder text).toOption =
        some ⟨engineName, (query w paths settings).paths, tree, l⟩ →
      Shelf s R w' (c.keep (query w paths settings) ⟨tree, l, w.now⟩)) := by
  have hlocated := h.located hroot
  have hsame := hlocated.sameOutside_replaced paths settings text
  rw [← Cache.key_query, hreplaced] at hsame
  have hthere : w'.hasDirectory s.root = true := hsame.hasDirectory_eq s.root ▸ hroot
  have hstaging : FilePath.Plain (stagingName w (query w paths settings).key) :=
    Cache.plain_stagingName w.directory paths settings h.token
  have hwritten := h.sound.put (plain_place s w hstaging) (.file text.toUTF8 w.now)
  rcases replaced_cases hlocated hreplaced with ⟨⟨fault, rfl⟩, hw'⟩ | ⟨rfl, hw'⟩
  · refine ⟨fun _ => ?_, nofun⟩
    rcases hw' with rfl | rfl
    · exact h
    · refine h.of_same_entries rfl h.token hwritten (fun _ => hthere) fun key _ => ?_
      rw [World.node?_put (by simp), if_neg (entryPlace_ne_staging s w key _)]
  · refine ⟨(by rintro ⟨fault, hfault⟩; cases hfault), fun _ hasked hread => ?_⟩
    refine h.keep hR hasked hsame.directory (hsame.token ▸ h.token) ?_ hthere
      ⟨text, hread, hlocated.find?_replaced hreplaced⟩ fun key hkey => ?_
    · rw [hw']
      exact (hwritten.erase _).put (plain_place s w (Query.isKey _).plain) _
    · rw [hw', ← entryPlace, node?_moved, if_neg hkey]

/-- Saving ends. If it fails, the contents are as they were, and else the result is kept with the
ledger in which the running program is recorded. -/
theorem save (h : Shelf s R w c) (hR : Separate R) (paths : List FilePath)
    (settings : List String) (tree : Tree) (l : Ledger) :
    ∃ l' w₁ r w', outcome (signed l) w = (.ok l', w₁) ∧
      outcome (s.save paths settings tree l) w = (.ok (l', r), w') ∧
      ((∃ fault, r = .error fault) → Shelf s R w' c) ∧
      (r = .ok () → query w paths settings ∈ R →
        Envelope.ReadsBack ⟨engineName, (query w paths settings).paths, tree, l'⟩ →
        Shelf s R w' (c.keep (query w paths settings) ⟨tree, l', w.now⟩)) := by
  obtain ⟨l', w₁, hsigned, hnoted⟩ := signed_ends l w
  have h₁ := h.noted hnoted
  obtain ⟨made, w₂, hmade, h₂, hdirectory, hnow, hthere⟩ := h₁.made
  have hquery : query w₂ paths settings = query w paths settings := by
    rw [query, query, hdirectory, hnoted.sameFiles.directory]
  have htime : w₂.now = w.now := by
    obtain ⟨memo, warnings, rfl⟩ := hnoted
    exact hnow
  cases made with
  | error fault =>
    exact ⟨l', w₁, _, w₂, hsigned, (save_eq hsigned).trans (saveSigned_of_fault hmade), fun _ => h₂,
      fun hr => by cases hr⟩
  | ok u =>
    refine ⟨l', w₁, _, _, hsigned, (save_eq hsigned).trans (saveSigned_of_made hmade), ?_⟩
    -- The directory that relative paths are seen from is the same after all that came before.
    have henvelope : envelope w₂ paths tree l' =
        ⟨engineName, (query w paths settings).paths, tree, l'⟩ := by
      rw [← hquery]
      rfl
    rw [henvelope, stored]
    cases hrender : Yaml.render (Envelope.asTree ⟨engineName, (query w paths settings).paths, tree,
        l'⟩) with
    | error obstacle => exact ⟨fun _ => h₂, fun hr => by cases hr⟩
    | ok text =>
      dsimp only
      rw [← Cache.key_query]
      obtain ⟨hfault, hkept⟩ := h₂.replaced hR (hthere rfl) tree l'
        (Prod.eta (s.replaced w₂ (query w₂ paths settings).key text)).symm
      split
      next fault w₃ hend =>
        rw [hend] at hfault
        exact ⟨fun _ => hfault ⟨fault, rfl⟩, fun hr => by cases hr⟩
      next w₃ hend =>
        rw [hend, hquery, htime] at hkept
        refine ⟨(by rintro ⟨fault, hfault⟩; cases hfault), fun _ hasked hreads => ?_⟩
        exact hkept rfl hasked (hreads text (by rw [hrender]; rfl))

/-! ## Looking up -/

/-- What is found as an entry is at the place of the entry. -/
theorem isSome_node? (h : Shelf s R w c) (hkey : IsKey key)
    (hfind : (w.find? (s.entryPath key)).isSome = true) :
    (w.node? (s.entryPlace w key)).isSome = true := by
  obtain ⟨node, hnode⟩ := Option.isSome_iff_exists.1 hfind
  rw [World.find?] at hnode
  split at hnode
  next place _ hlocate =>
    rw [← placeOf_entryPath h.nonempty hkey, ← World.placeOf_of_locate hlocate,
      ← World.node_of_walk (World.walk_of_locate hlocate).2, hnode]
    rfl
  · cases hnode

/-- The entry of a query is there if and only if a result is kept for it. -/
theorem isSome_find? (h : Shelf s R w c) (hR : Separate R) (hasked : q ∈ R) :
    (w.find? (s.entryPath q.key)).isSome = (c q).isSome := by
  rw [Bool.eq_iff_iff]
  constructor
  · intro hfind
    obtain ⟨q', hkept, hkey⟩ := h.only _ q.isKey (h.isSome_node? q.isKey hfind)
    obtain ⟨k, hk⟩ := Option.isSome_iff_exists.1 hkept
    rwa [← hR.eq_of_key (h.asked q' k hk) hasked hkey]
  · intro hkept
    obtain ⟨k, hk⟩ := Option.isSome_iff_exists.1 hkept
    obtain ⟨text, -, hfile⟩ := h.stands q k hk
    rw [hfile]
    rfl

/-- Looking up a query answers with what is kept for it, if that still holds, and changes nothing. -/
theorem lookup (h : Shelf s R w c) (hR : Separate R) (hasked : query w paths settings ∈ R) :
    outcome (s.lookup paths settings) w = (.ok (c.answer s w paths settings), w) := by
  have hfile : s.fileIn w paths settings = s.entryPath (query w paths settings).key := rfl
  rw [lookup_run, Contents.answer]
  cases hkept : c (query w paths settings) with
  | none =>
    have hgone := h.isSome_find? hR hasked
    rw [hkept, Option.isSome_none, Option.isSome_eq_false_iff, Option.isNone_iff_eq_none] at hgone
    rw [answer, hfile, World.modified?, hgone]
    cases w.hasDirectory s.root <;> rfl
  | some k =>
    obtain ⟨text, hread, hfind⟩ := h.stands _ k hkept
    have hdated : w.modified? (s.entryPath (query w paths settings).key) = some k.written := by
      rw [World.modified?, hfind]
      rfl
    rw [answer, hfile, hdated, World.entry_of_find? hfind hread, h.there _ k hkept]
    simp only [Bool.not_true, Bool.false_eq_true, if_false, bne_self_eq_false, Option.bind_some]
    cases paths.all fun p => (w.modified? p).any fun t => t.nanoseconds ≤ k.written.nanoseconds with
    | false => rfl
    | true => cases k.ledger.changedIn w k.written s.packages <;> rfl

/-! ## Removing -/

end Shelf

/-- Remove the entry of a key, as a function of the world. -/
def removed (s : Store) (w : World) (key : String) : Except Error Bool × World :=
  if (w.find? (s.entryPath key)).isSome then
    match w.removeFile (s.entryPath key) with
    | (.ok (), w') => (.ok true, w')
    | (.error fault, w') =>
      (.error (.cache ("cannot remove " ++ (s.entryPath key).text ++ ": " ++ fault.message)), w')
  else (.ok false, w)

theorem remove_run (s : Store) (w : World) (key : String) :
    outcome (s.remove key) w = s.removed w key := by
  have hremove : outcome (Host.removeFile (s.entryPath key) : ExceptT Error InWorld _) w =
      (.ok (w.removeFile (s.entryPath key)).1, (w.removeFile (s.entryPath key)).2) := rfl
  rw [remove, removed]
  refine (outcome_bind_of_ok (isPresent_run w (s.entryPath key)) _).trans ?_
  cases (w.find? (s.entryPath key)).isSome with
  | false => rfl
  | true =>
    simp only [Bool.not_true, Bool.false_eq_true, if_false, if_true]
    refine (outcome_bind_of_ok hremove _).trans ?_
    rcases w.removeFile (s.entryPath key) with ⟨_ | _, w'⟩
    · rfl
    · rfl

theorem removed_cases {r : Except Error Bool} (h : s.removed w key = (r, w')) :
    r ≠ .ok true ∧ w' = w ∨ r = .ok true ∧ w' = w.erase (w.placeOf (s.entryPath key)) ∧
      ∃ content t, w.node? (w.placeOf (s.entryPath key)) = some (.file content t) := by
  unfold removed World.removeFile at h
  split at h
  next hthere =>
    cases hlocate : w.locate (s.entryPath key) with
    | error fault =>
      rw [hlocate] at h
      cases h
      exact .inl ⟨nofun, rfl⟩
    | ok found =>
      obtain ⟨place, node⟩ := found
      have hnode := World.node_of_walk (World.walk_of_locate hlocate).2
      rw [hlocate] at h
      rw [← World.placeOf_of_locate hlocate]
      match node with
      | none | some (.directory _) =>
        cases h
        exact .inl ⟨nofun, rfl⟩
      | some (.file content t) =>
        cases h
        exact .inr ⟨rfl, rfl, content, t, hnode.symm⟩
  · cases h
    exact .inl ⟨nofun, rfl⟩

namespace Shelf

/-- Removing the entry of a key removes the results of the queries whose file the key leads to. -/
theorem remove (h : Shelf s R w c) {r : Except Error Bool}
    (hremove : outcome (s.remove key) w = (r, w')) :
    (r ≠ .ok true → Shelf s R w' c) ∧ (r = .ok true → Shelf s R w' (c.without s w key)) := by
  rw [remove_run] at hremove
  rcases removed_cases hremove with ⟨hr, rfl⟩ | ⟨hr, rfl, content, t, hnode⟩
  · exact ⟨fun _ => h, fun hr' => absurd hr' hr⟩
  refine ⟨fun hr' => absurd hr hr', fun _ => ?_⟩
  generalize hplace : w.placeOf (s.entryPath key) = place at *
  obtain ⟨dir, name, rfl⟩ : ∃ dir name, place = dir ++ [name] := by
    rcases List.eq_nil_or_concat place with rfl | ⟨dir, name, rfl⟩
    · cases hnode
    · exact ⟨dir, name, List.concat_eq_append⟩
  have hfile : SameOutside.NoDirectory w dir name := fun u hu => by
    cases hnode.symm.trans hu
  have herased := SameOutside.erase hfile
  have hwhere (key : String) (hkey : IsKey key) :
      w.placeOf (s.entryPath key) = s.entryPlace w key := placeOf_entryPath h.nonempty hkey
  refine h.of_change rfl h.token (h.sound.erase _) (fun hroot => ?_) (fun q k hq => .inl ?_) ?_
  · rw [herased.hasDirectory_eq, hroot]
  · unfold Contents.without at hq
    split at hq
    · cases hq
    next hother =>
      rw [hplace, hwhere _ q.isKey] at hother
      exact ⟨hq, by rw [World.node?_erase (by simp), if_neg hother]⟩
  · intro key' hkey' hthere
    rw [World.node?_erase (by simp)] at hthere
    split at hthere
    · cases hthere
    next hother =>
      obtain ⟨q, hq, rfl⟩ := h.only key' hkey' hthere
      refine ⟨q, ?_, rfl⟩
      rw [Contents.without, hplace, hwhere _ q.isKey, if_neg hother, hq]

/-- Removing the entry of a query tells whether there was one. -/
theorem remove_key (h : Shelf s R w c) (hR : Separate R) (hasked : q ∈ R) :
    ∃ w', outcome (s.remove q.key) w = (.ok (c q).isSome, w') := by
  rw [remove_run, removed, h.isSome_find? hR hasked]
  cases hkept : c q with
  | none => exact ⟨w, rfl⟩
  | some k =>
    obtain ⟨text, -, hfile⟩ := h.stands q k hkept
    rw [World.find?] at hfile
    split at hfile
    next place _ hlocate =>
      rw [Option.isSome_some, if_pos rfl, World.removeFile, hlocate, hfile]
      exact ⟨_, rfl⟩
    · cases hfile

/-- Removing the entries of some queries leaves no result for them, and no new one. -/
theorem removeAll (h : Shelf s R w c) (hR : Separate R) {keys : List String}
    (hkeys : ∀ key ∈ keys, ∃ q ∈ R, q.key = key) :
    ∃ w' c', outcome (s.removeAll keys) w = (.ok (), w') ∧ Shelf s R w' c' ∧
      ∀ q k, c' q = some k → c q = some k ∧ q.key ∉ keys := by
  induction keys generalizing w c with
  | nil => exact ⟨w, c, rfl, h, fun q k hq => ⟨hq, List.not_mem_nil⟩⟩
  | cons key rest ih =>
    obtain ⟨⟨q, hasked, rfl⟩, hrest⟩ := List.forall_mem_cons.1 hkeys
    obtain ⟨w₁, hremove⟩ := h.remove_key hR hasked
    obtain ⟨hkeeps, hdrops⟩ := h.remove hremove
    obtain ⟨c₁, h₁, hc₁⟩ : ∃ c₁, Shelf s R w₁ c₁ ∧
        ∀ q' k, c₁ q' = some k → c q' = some k ∧ q'.key ≠ q.key := by
      cases hkept : c q with
      | none =>
        refine ⟨c, hkeeps (by simp [hkept]), fun q' k hq' => ⟨hq', fun hkey => ?_⟩⟩
        rw [hR.eq_of_key (h.asked q' k hq') hasked hkey, hkept] at hq'
        cases hq'
      | some k =>
        refine ⟨_, hdrops (by simp [hkept]), fun q' k' hq' => ?_⟩
        unfold Contents.without at hq'
        split at hq'
        · cases hq'
        next hother => exact ⟨hq', fun hkey => hother (by rw [hkey])⟩
    obtain ⟨w', c', hrun, h', hc'⟩ := ih h₁ hrest
    refine ⟨w', c', ?_, h', fun q' k hq' => ?_⟩
    · rw [Store.removeAll]
      exact (outcome_bind_of_ok hremove _).trans hrun
    · obtain ⟨hold, hnot⟩ := hc' q' k hq'
      obtain ⟨hkept, hne⟩ := hc₁ q' k hold
      exact ⟨hkept, by simp [hne, hnot]⟩

end Shelf

end Store

end LayeredConfig
