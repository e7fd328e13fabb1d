import LayeredConfig.Ledger.File
import LayeredConfig.Proofs.Ledger.Updating
import LayeredConfig.Proofs.Writing
import LayeredConfig.Proofs.Yaml.Bare
import Mathlib.Data.String.Basic

/-!
# Ledgers that are saved are read back

A record is written as a mapping of its fields, without those that say nothing, and is read by
filling in what is left out. Each of the four kinds of record is given by the list of its fields, so
the writer and the reader of a kind can be compared field by field (`Record.takes` and the like).

What is written says nothing twice, so the reader has nothing to put in order: paths are there once,
and attributes are in the order of their names (`Storable`). Ledgers that are read are like that
too, whatever the text they are read from.
-/

namespace LayeredConfig

open Yaml (Decoder Reads Takes Yields fieldEntry reads_record recordTree recordTree_eq textMap)

/-- A fold that puts each item behind those before it gives the list back. -/
theorem foldl_eq_self {α : Type} {R : α → α → Prop} {f : List α → α → List α}
    (hf : ∀ front a, (∀ b ∈ front, R b a) → f front a = front ++ [a]) {as : List α}
    (h : as.Pairwise R) : as.foldl f [] = as := by
  induction as using List.reverseRecOn with
  | nil => rfl
  | append_singleton front a ih =>
    obtain ⟨hfront, -, hlast⟩ := List.pairwise_append.1 h
    rw [List.foldl_append, List.foldl_cons, List.foldl_nil, ih hfront]
    exact hf front a fun b hb => hlast b hb a (List.mem_singleton_self a)

/-! ## Values under names -/

namespace Named

variable {α : Type}

theorem insert_eq_append {name : String} {a : α} {es : Named α} (h : ∀ e ∈ es, e.1 < name) :
    insert name a es = es ++ [(name, a)] := by
  induction es with
  | nil => rfl
  | cons e rest ih =>
    obtain ⟨hfirst, hrest⟩ := List.forall_mem_cons.1 h
    rw [insert, if_neg hfirst.ne', if_neg hfirst.not_gt, ih hrest, List.cons_append]

/-- Values that are in the order of their names stay as they are. -/
theorem ofList_eq_self {es : Named α} (h : es.Pairwise fun e f => e.1 < f.1) : ofList es = es :=
  foldl_eq_self (fun _ _ => insert_eq_append) h

theorem mem_insert {name : String} {a : α} {es : Named α} {e : String × α}
    (h : e ∈ insert name a es) : e = (name, a) ∨ e ∈ es := by
  induction es with
  | nil => exact .inl (List.mem_singleton.1 h)
  | cons f rest ih =>
    rw [insert] at h
    split at h
    · exact (List.mem_cons.1 h).imp_right (List.mem_cons_of_mem f)
    · split at h
      · exact List.mem_cons.1 h
      · rcases List.mem_cons.1 h with rfl | h
        · exact .inr List.mem_cons_self
        · exact (ih h).imp_right (List.mem_cons_of_mem f)

theorem pairwise_insert {es : Named α} (h : es.Pairwise fun e f => e.1 < f.1) (name : String)
    (a : α) : (insert name a es).Pairwise fun e f => e.1 < f.1 := by
  induction es with
  | nil => exact List.pairwise_singleton _ _
  | cons e rest ih =>
    obtain ⟨hfirst, hrest⟩ := List.pairwise_cons.1 h
    rw [insert]
    split
    next hname => exact List.pairwise_cons.2 ⟨hname ▸ hfirst, hrest⟩
    next hne =>
      split
      next hlt =>
        refine List.pairwise_cons.2 ⟨fun f hf => ?_, h⟩
        rcases List.mem_cons.1 hf with rfl | hf
        · exact hlt
        · exact hlt.trans (hfirst f hf)
      next hge =>
        refine List.pairwise_cons.2 ⟨fun f hf => ?_, ih hrest⟩
        rcases mem_insert hf with rfl | hf
        · exact lt_of_le_of_ne (not_lt.1 hge) (Ne.symm hne)
        · exact hfirst f hf

theorem pairwise_ofList (es : List (String × α)) :
    (ofList es).Pairwise fun e f => e.1 < f.1 :=
  List.foldlRecOn es _ List.Pairwise.nil fun _ h e _ => pairwise_insert h e.1 e.2

end Named

/-! ## Fields -/

/-- The fields of git metadata. -/
def GitInfo.fields (g : GitInfo) : List (String × Option Tree) :=
  [("branch", some (.str g.branch)), ("describe", some (.str g.describe)),
    ("remotes", if g.remotes.isEmpty then none else some (.seq (g.remotes.map Tree.str)))]

/-- The fields of a record. -/
def Record.fields (r : Record) : List (String × Option Tree) :=
  [("mtime", some (.float r.modified)), ("mtime_str", r.date.map Tree.str),
    ("hash", r.hash.map Tree.str), ("git", r.git.map GitInfo.tree),
    ("origin", r.origin.map fun p => .str p.text),
    ("missing", if !r.missing then none else some (.bool r.missing)),
    ("attrs", if r.attributes.isEmpty then none
      else some (textMap (r.attributes.map fun e => (e.1, .str e.2))))]

/-- The fields of a missed file. -/
def Missed.fields (f : Missed) : List (String × Option Tree) :=
  [("path", some (.str f.path.text)), ("origin", some (.str f.origin.text)),
    ("package", f.package.map Tree.str), ("file_name", f.file.map fun p => .str p.text)]

/-- The fields of a ledger. -/
def Ledger.fields (l : Ledger) : List (String × Option Tree) :=
  [("deps", some (textMap (l.records.map fun e => (e.1.text, e.2.tree)))),
    ("failed", some (textMap (l.missed.map fun e => (e.1.text, e.2.tree))))]

theorem GitInfo.tree_eq (g : GitInfo) : g.tree = recordTree g.fields := by
  unfold GitInfo.tree GitInfo.fields
  split <;> rfl

theorem optionalField_eq (name : String) (value : Option String) :
    Tree.optionalField name value = fieldEntry name (value.map Tree.str) := by cases value <;> rfl

theorem Record.tree_eq (r : Record) : r.tree = recordTree r.fields := by
  have hmissing : (if r.missing then [(Tree.str "missing", Tree.bool true)] else []) =
      fieldEntry "missing" (if !r.missing then none else some (.bool r.missing)) := by
    cases r.missing <;> rfl
  have hattributes : fieldEntry "attrs" (if r.attributes.isEmpty then none
        else some (textMap (r.attributes.map fun e => (e.1, .str e.2)))) =
      if r.attributes.isEmpty then []
        else [(Tree.str "attrs", Tree.map (r.attributes.map fun e => (.str e.1, .str e.2)))] := by
    split
    · rfl
    · rw [textMap, List.map_map]
      rfl
  rw [recordTree_eq, Record.tree, optionalField_eq, optionalField_eq, optionalField_eq, hmissing,
    Option.map_map]
  simp only [Record.fields, List.flatMap_cons, List.flatMap_nil, List.append_nil,
    List.append_assoc, hattributes]
  cases r.git <;> rfl

theorem Missed.tree_eq (f : Missed) : f.tree = recordTree f.fields := by
  unfold Missed.tree Missed.fields
  cases f.package <;> cases f.file <;> rfl

theorem Ledger.tree_eq (l : Ledger) : l.tree = recordTree l.fields := by
  rw [Ledger.tree, recordTree, Ledger.fields]
  change _ = textMap [_, _]
  rw [textMap, textMap, textMap, List.map_map, List.map_map]
  rfl

/-! ## Reading what was written -/

theorem FilePath.takes (p : FilePath) : Takes FilePath.decoder (.str p.text) p :=
  fun _ _ h => (Takes.text p.text h).map FilePath.mk

theorem takes_texts (texts : List String) :
    Takes (Decoder.list Decoder.text) (.seq (texts.map Tree.str)) texts := by
  refine Takes.list (List.forall₂_map_left_iff.2 ?_)
  exact List.forall₂_same.2 fun s _ => Takes.text s

theorem GitInfo.takes (g : GitInfo) : Takes GitInfo.decoder g.tree g := by
  intro depth node h
  rw [g.tree_eq] at h
  obtain ⟨found, hfound, hbranch, hdescribe, hremotes⟩ :=
    reads_record ["branch", "describe", "remotes"] rfl (by decide) h
  have hremotes := hremotes.defaulted List.isEmpty_iff.1 (takes_texts g.remotes)
  exact hfound.bind <| (hbranch.field (Takes.text _)).bind <|
    (hdescribe.field (Takes.text _)).bind <| hremotes.map fun remotes => { g with remotes }

/-- The attributes are in the order of their names, each name once. -/
def Record.Ordered (r : Record) : Prop := r.attributes.Pairwise fun a b => a.1 < b.1

theorem Record.takes {r : Record} (h : r.Ordered) : Takes Record.decoder r.tree r := by
  intro depth node hnode
  rw [r.tree_eq] at hnode
  obtain ⟨found, hfound, hmodified, hdate, hhash, hgit, horigin, hmissing, hattributes⟩ :=
    reads_record ["mtime", "mtime_str", "hash", "git", "origin", "missing", "attrs"] rfl
      (by decide) hnode
  have hmodified : Reads (Decoder.fieldOr found "mtime" Binary64.zero Decoder.float) r.modified :=
    hmodified.fieldOr nofun fun u hu => Option.some.inj hu ▸ Takes.float r.modified
  have hmissing : Reads (Decoder.fieldOr found "missing" false Decoder.bool) r.missing :=
    hmissing.defaulted (by simp) (Takes.bool r.missing)
  have htable : Takes (Decoder.table Decoder.text)
      (textMap (r.attributes.map fun e => (e.1, .str e.2))) r.attributes :=
    Takes.table <| List.forall₂_map_left_iff.2 <| List.forall₂_same.2 fun e _ =>
      ⟨rfl, Takes.text e.2⟩
  have hattributes := hattributes.defaulted List.isEmpty_iff.1 htable
  have hread : Reads (Record.decoder depth node)
      { r with attributes := Named.ofList r.attributes } :=
    hfound.bind <| hmodified.bind <| (hdate.optional Takes.text nofun).bind <|
      (hhash.optional Takes.text nofun).bind <| (hgit.optional GitInfo.takes nofun).bind <|
      (horigin.optional FilePath.takes nofun).bind <| hmissing.bind <|
      hattributes.map fun es => { r with attributes := Named.ofList es }
  rwa [Named.ofList_eq_self h] at hread

theorem Missed.takes (f : Missed) : Takes Missed.decoder f.tree f := by
  intro depth node h
  rw [f.tree_eq] at h
  obtain ⟨found, hfound, hpath, horigin, hpackage, hfile⟩ :=
    reads_record ["path", "origin", "package", "file_name"] rfl (by decide) h
  exact hfound.bind <| (hpath.field (FilePath.takes _)).bind <|
    (horigin.field (FilePath.takes _)).bind <| (hpackage.optional Takes.text nofun).bind <|
    (hfile.optional FilePath.takes nofun).map fun file => { f with file }

namespace Ledger

variable {α : Type}

theorem assign_of_new {es : List (FilePath × α)} {path : FilePath}
    (h : ∀ e ∈ es, e.1.same path = false) (a : α) : assign es path a = es ++ [(path, a)] := by
  induction es with
  | nil => rfl
  | cons e rest ih =>
    obtain ⟨hfirst, hrest⟩ := List.forall_mem_cons.1 h
    rw [assign, hfirst, if_neg Bool.false_ne_true, ih hrest, List.cons_append]

/-- Entries under paths that are all different stay as they are. -/
theorem foldl_assign_of_distinct {es : List (FilePath × α)} (h : Distinct es) :
    (es.map fun e => (e.1.text, e.2)).foldl (fun l (p, a) => assign l ⟨p⟩ a) [] = es := by
  rw [List.foldl_map]
  exact foldl_eq_self (fun _ e hfront => assign_of_new hfront e.2) (distinct_iff.1 h)

theorem takes_byPath {value : Decoder α} {write : α → Tree} {es : List (FilePath × α)}
    (h : Distinct es) (ht : ∀ e ∈ es, Takes value (write e.2) e.2) :
    Takes (byPath value) (textMap (es.map fun e => (e.1.text, write e.2))) es := by
  have htable : Takes (Decoder.table value) (textMap (es.map fun e => (e.1.text, write e.2)))
      (es.map fun e => (e.1.text, e.2)) :=
    Takes.table <| List.forall₂_map_left_iff.2 <| List.forall₂_map_right_iff.2 <|
      List.forall₂_same.2 fun e he => ⟨rfl, ht e he⟩
  intro depth node hnode
  have hread := (htable hnode).map fun es => es.foldl (fun l (p, a) => assign l ⟨p⟩ a) []
  rw [foldl_assign_of_distinct h] at hread
  exact hread

/-- What every ledger is, as its lists stand for maps: no path is there twice, and attributes are in
the order of their names. -/
structure Storable (l : Ledger) : Prop where
  keyed : l.Keyed
  ordered : ∀ e ∈ l.records, e.2.Ordered

theorem Storable.takes {l : Ledger} (h : l.Storable) : Takes decoder l.tree l := by
  intro depth node hnode
  rw [l.tree_eq] at hnode
  obtain ⟨found, hfound, hrecords, hmissed⟩ :=
    reads_record ["deps", "failed"] rfl (by decide) hnode
  have hrecords : Reads (Decoder.fieldOr found "deps" [] (byPath Record.decoder)) l.records :=
    hrecords.fieldOr nofun fun u hu => Option.some.inj hu ▸
      takes_byPath h.keyed.records fun e he => Record.takes (h.ordered e he)
  have hmissed : Reads (Decoder.fieldOr found "failed" [] (byPath Missed.decoder)) l.missed :=
    hmissed.fieldOr nofun fun u hu => Option.some.inj hu ▸
      takes_byPath h.keyed.missed fun e _ => e.2.takes
  exact hfound.bind <| hrecords.bind <| hmissed.map fun missed => { l with missed }

/-! ## Ledgers from texts -/

theorem forall_mem_assign {P : α → Prop} {es : List (FilePath × α)} (h : ∀ e ∈ es, P e.2)
    (path : FilePath) {a : α} (ha : P a) : ∀ e ∈ assign es path a, P e.2 := by
  induction es with
  | nil => simpa [assign] using ha
  | cons e rest ih =>
    obtain ⟨hfirst, hrest⟩ := List.forall_mem_cons.1 h
    rw [assign]
    split
    · exact List.forall_mem_cons.2 ⟨ha, hrest⟩
    · exact List.forall_mem_cons.2 ⟨hfirst, ih hrest⟩

theorem forall_mem_foldl_assign {P : α → Prop} {es : List (String × α)} (h : ∀ e ∈ es, P e.2) :
    ∀ e ∈ es.foldl (fun l (p, a) => assign l ⟨p⟩ a) [], P e.2 :=
  List.foldlRecOn (motive := fun l : List (FilePath × α) => ∀ e ∈ l, P e.2) es _ nofun
    fun _ hl e he => forall_mem_assign hl ⟨e.1⟩ (h e he)

theorem yields_ordered (depth : Nat) (node : Yaml.Node) :
    Yields (Record.decoder depth node) Record.Ordered :=
  (Yields.trivial _).bind fun _ _ => (Yields.trivial _).bind fun _ _ =>
    (Yields.trivial _).bind fun _ _ => (Yields.trivial _).bind fun _ _ =>
    (Yields.trivial _).bind fun _ _ => (Yields.trivial _).bind fun _ _ =>
    (Yields.trivial _).bind fun _ _ => (Yields.trivial _).bind fun es _ =>
    Yields.pure (Named.pairwise_ofList es)

theorem yields_table {P : α → Prop} {value : Decoder α}
    (h : ∀ depth node, Yields (value depth node) P) (depth : Nat) (node : Yaml.Node) :
    Yields (Decoder.table value depth node) fun es => ∀ e ∈ es, P e.2 :=
  (Yields.trivial _).bind fun shown _ =>
    Yields.mapM (Q := fun e : String × α => P e.2)
      (fun e => (h shown.1 e.2).bind fun _ ha => Yields.pure ha) shown.2

/-- So is a ledger that is read, in whatever order its text has things. -/
theorem storable_of_ofText {text : String} {l : Ledger} (h : ofText text = .ok l) :
    l.Storable where
  keyed := keyed_of_ofText h
  ordered := by
    refine Yields.decode (Q := fun l : Ledger => ∀ e ∈ l.records, e.2.Ordered) (fun node => ?_) h
    refine (Yields.trivial _).bind fun fields _ =>
      Yields.bind (Q := fun es : List (FilePath × Record) => ∀ e ∈ es, e.2.Ordered) ?_
        fun _ hrecords => (Yields.trivial _).bind fun _ _ => Yields.pure hrecords
    unfold Decoder.fieldOr
    split
    · exact (yields_table yields_ordered _ _).bind fun es hes =>
        Yields.pure (forall_mem_foldl_assign hes)
    · exact Yields.pure nofun

end Ledger

/-! ## Writing -/

/-- Nothing stands in the way of writing the tree. -/
def Tree.Writable (t : Tree) : Prop := Yaml.obstacle? false t = none

theorem writable_textMap {es : List (String × Tree)} (h : ∀ e ∈ es, e.2.Writable) :
    (textMap es).Writable := by
  have hkeys : ((es.map fun e => (Tree.str e.1, e.2)).any fun e => Yaml.isAwkwardKey e.1) =
      false := by
    rw [List.any_map]
    exact List.any_eq_false.2 fun e _ => Bool.false_ne_true
  rw [textMap, Tree.Writable, Yaml.obstacle?, hkeys, Bool.and_false, if_neg Bool.false_ne_true]
  clear hkeys
  induction es with
  | nil => rfl
  | cons e rest ih =>
    obtain ⟨hfirst, hrest⟩ := List.forall_mem_cons.1 h
    rw [List.map_cons, Yaml.obstacleAmong?, ih hrest, hfirst]
    rfl

theorem writable_recordTree {fields : List (String × Option Tree)}
    (h : fields.Forall fun f => ∀ t ∈ f.2, t.Writable) : (recordTree fields).Writable := by
  refine writable_textMap fun e he => ?_
  obtain ⟨f, hf, hwritten⟩ := List.mem_filterMap.1 he
  obtain ⟨t, ht, rfl⟩ := Option.map_eq_some_iff.1 hwritten
  exact List.forall_iff_forall_mem.1 h f hf t ht

theorem writable_str (s : String) : (Tree.str s).Writable := rfl

theorem writable_texts (texts : List String) : (Tree.seq (texts.map Tree.str)).Writable := by
  rw [Tree.Writable, Yaml.obstacle?]
  induction texts with
  | nil => rfl
  | cons s rest ih => exact ih

theorem writable_some {t : Tree} (h : t.Writable) : ∀ u ∈ some t, u.Writable :=
  fun _ hu => Option.mem_some.1 hu ▸ h

theorem writable_map {α : Type} {write : α → Tree} (h : ∀ a, (write a).Writable) (a : Option α) :
    ∀ t ∈ a.map write, t.Writable := by
  intro t ht
  obtain ⟨b, -, rfl⟩ := Option.map_eq_some_iff.1 ht
  exact h b

theorem writable_ite {c : Prop} [Decidable c] {t : Tree} (h : t.Writable) :
    ∀ u ∈ if c then none else some t, u.Writable := by
  split
  · exact nofun
  · exact writable_some h

theorem GitInfo.writable (g : GitInfo) : g.tree.Writable := by
  rw [g.tree_eq]
  exact writable_recordTree ⟨writable_some (writable_str _), writable_some (writable_str _),
    writable_ite (writable_texts g.remotes)⟩

theorem Record.writable (r : Record) : r.tree.Writable := by
  rw [r.tree_eq]
  have hattributes : (textMap (r.attributes.map fun e => (e.1, .str e.2))).Writable := by
    refine writable_textMap fun e he => ?_
    obtain ⟨a, -, rfl⟩ := List.mem_map.1 he
    exact writable_str a.2
  exact writable_recordTree ⟨writable_some rfl, writable_map writable_str r.date,
    writable_map writable_str r.hash, writable_map GitInfo.writable r.git,
    writable_map (fun p : FilePath => writable_str p.text) r.origin, writable_ite rfl,
    writable_ite hattributes⟩

theorem Missed.writable (f : Missed) : f.tree.Writable := by
  rw [f.tree_eq]
  exact writable_recordTree ⟨writable_some (writable_str _), writable_some (writable_str _),
    writable_map writable_str f.package,
    writable_map (fun p : FilePath => writable_str p.text) f.file⟩

namespace Ledger

/-- Every ledger can be written. -/
theorem writable (l : Ledger) : l.tree.Writable := by
  rw [l.tree_eq]
  refine writable_recordTree ⟨writable_some (writable_textMap fun e he => ?_),
    writable_some (writable_textMap fun e he => ?_)⟩
  · obtain ⟨r, -, rfl⟩ := List.mem_map.1 he
    exact r.2.writable
  · obtain ⟨f, -, rfl⟩ := List.mem_map.1 he
    exact f.2.writable

theorem exists_text (l : Ledger) : ∃ text, l.text = .ok text := by
  rw [Ledger.text, Yaml.render, l.writable]
  exact ⟨_, rfl⟩

/-! ## Files -/

/-- A computation that is begun in a world saves the ledger: when it ends well, the file is loaded
as the ledger, and nothing but the file system can stop it. -/
structure Saves (l : Ledger) (file : FilePath) (x : ExceptT Error InWorld Unit) (w : World) :
    Prop where
  loaded : ∀ w', outcome x w = (.ok (), w') →
    outcome (load file : ExceptT Error InWorld Ledger) w' = (.ok l, w')
  refused : ∀ e w', outcome x w = (.error e, w') → ∃ fault, e = .system fault

namespace Saves

variable {l : Ledger} {file : FilePath} {x y : ExceptT Error InWorld Unit} {w v : World}

theorem congr (h : outcome x w = outcome y v) (hy : Saves l file y v) : Saves l file x w where
  loaded w' hrun := hy.loaded w' (h ▸ hrun)
  refused e w' hrun := hy.refused e w' (h ▸ hrun)

theorem of_loaded (h : outcome x w = (.ok (), v))
    (hload : outcome (load file : ExceptT Error InWorld Ledger) v = (.ok l, v)) :
    Saves l file x w where
  loaded w' hrun := by
    cases h.symm.trans hrun
    exact hload
  refused e w' hrun := by cases h.symm.trans hrun

theorem of_refusal {fault : SystemFault} (h : outcome x w = (.error (.system fault), v)) :
    Saves l file x w where
  loaded w' hrun := by cases h.symm.trans hrun
  refused e w' hrun := by
    cases h.symm.trans hrun
    exact ⟨fault, rfl⟩

end Saves

theorem load_run {l : Ledger} {file : FilePath} {w : World} {text : String}
    (hcontent : w.content file = .ok text.toUTF8) (htext : ofText text = .ok l) :
    outcome (load file : ExceptT Error InWorld Ledger) w = (.ok l, w) := by
  have hdecoded : String.fromUTF8? text.toUTF8 = some text := dif_pos text.isValidUTF8
  have hread : w.text file = .ok text := by
    rw [World.text, hcontent]
    dsimp only
    rw [hdecoded]
  rw [load, outcome_bind_of_ok (readText_run w file), hread]
  dsimp only
  rw [htext]
  rfl

theorem saves_write {l : Ledger} {text : String} (htext : ofText text = .ok l) (file : FilePath)
    (w : World) : Saves l file (do save.orSystem (← Host.write file text.toUTF8)) w := by
  generalize hwrite : w.write file text.toUTF8 = written
  obtain ⟨answer, w'⟩ := written
  have hrun : outcome (Host.write file text.toUTF8 : ExceptT Error InWorld _) w =
      (.ok answer, w') := by
    change (Except.ok (w.write file text.toUTF8).1, (w.write file text.toUTF8).2) = _
    rw [hwrite]
  cases answer with
  | error fault => exact .of_refusal ((outcome_bind_of_ok hrun _).trans (outcome_throw _ w'))
  | ok u =>
    exact .of_loaded ((outcome_bind_of_ok hrun _).trans (outcome_pure () w'))
      (load_run (World.content_of_write hwrite) htext)

theorem saves_save {l : Ledger} {text : String} (hwritten : l.text = .ok text)
    (htext : ofText text = .ok l) (file : FilePath) (w : World) : Saves l file (l.save file) w := by
  have hrest := saves_write htext file
  rw [save, hwritten]
  split
  next dir _ =>
    split
    · -- The directories are made first, as far as they are missing.
      obtain ⟨made, v, hmade, -⟩ := makeDirectoriesWithin_run (dir.pieces.length + 1) w dir
      cases made with
      | error fault =>
        exact .of_refusal ((outcome_bind_of_ok hmade _).trans
          (outcome_bind_of_error (outcome_throw (.system fault) v) _))
      | ok u =>
        exact .congr ((outcome_bind_of_ok hmade _).trans
          (outcome_bind_of_ok (outcome_pure () v) _)) (hrest v)
    · exact hrest w
  · exact hrest w

/-- **Ledgers come back as they were saved.** Every ledger has a text. If the text spells the tree
that was written, then it is read as the ledger: the same records and missed files in the same
order, each with the same fields, whether these were written or left out. So saving fails only if
the file system refuses, and what it leaves is loaded as the ledger.

This holds of ledgers that have come about in any way, among them those read from a text that
somebody else wrote. -/
theorem saved_ledger_is_read_back {l : Ledger}
    (h : l.Storable ∨ ∃ accepted, ofText accepted = .ok l) :
    ∃ text, l.text = .ok text ∧ (Yaml.Spells text l.tree →
      ofText text = .ok l ∧ ∀ file w, Saves l file (l.save file) w) := by
  have hstorable : l.Storable := by
    rcases h with h | ⟨accepted, haccepted⟩
    · exact h
    · exact storable_of_ofText haccepted
  obtain ⟨text, htext⟩ := l.exists_text
  refine ⟨text, htext, fun hspells => ?_⟩
  have hread : ofText text = .ok l := hspells.decode hstorable.takes
  exact ⟨hread, saves_save htext hread⟩

/-- A record and a missed file, each with some of their fields. -/
def assorted : Ledger where
  records := [(⟨"/a"⟩, {
    modified := Instant.epochSeconds ⟨1500000000⟩
    date := none
    hash := none
    git := some ⟨"m", "d", ["o"]⟩
    origin := none
    missing := true
    attributes := [("k", "")] })]
  missed := [(⟨"b"⟩, ⟨⟨"b"⟩, ⟨"/a"⟩, some "p", none⟩)]

theorem assorted_storable : assorted.Storable where
  keyed := ⟨distinct_iff.2 (by decide +kernel), distinct_iff.2 (by decide +kernel)⟩
  ordered := by
    unfold Record.Ordered
    decide +kernel

/-- It is saved in a directory that is made for it, and loaded again. -/
theorem assorted_is_read_back : ∃ text, assorted.text = .ok text ∧
    Yaml.Spells text assorted.tree ∧ ofText text = .ok assorted ∧
    ∃ w', outcome (assorted.save ⟨"/d/deps.yml"⟩) (.holding []) = (.ok (), w') ∧
      outcome (load ⟨"/d/deps.yml"⟩ : ExceptT Error InWorld Ledger) w' = (.ok assorted, w') := by
  have hspells : ∀ text ∈ assorted.text.toOption, Yaml.Spells text assorted.tree := by
    decide +kernel
  have hsaved : succeeds (assorted.save ⟨"/d/deps.yml"⟩) (.holding []) (fun _ _ => true) =
      true := by
    decide +kernel
  obtain ⟨text, htext, hread⟩ := saved_ledger_is_read_back (.inl assorted_storable)
  have hspelled : Yaml.Spells text assorted.tree := hspells text (by rw [htext]; rfl)
  obtain ⟨hparsed, hsaves⟩ := hread hspelled
  obtain ⟨⟨⟩, w', hrun, -⟩ := succeeds_iff.1 hsaved
  exact ⟨text, htext, hspelled, hparsed, w', hrun, (hsaves _ _).loaded w' hrun⟩

end Ledger

end LayeredConfig
