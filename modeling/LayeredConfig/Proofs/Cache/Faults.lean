import LayeredConfig.Proofs.Alongside
import LayeredConfig.Proofs.Cache.Unsaved

/-!
# Faults of a cache

A task is run twice: by a loader without a cache, in the world without the files of the cache, and
by a loader with it. `Alongside` says what the second must keep up so that both end the same, and
`Store.Serving` is what a cache keeps up in which no entry was right when the task began. What it
may answer later is what the loader has saved itself in the course of the task, and that is what the
loader without a cache has for the same request (`Settings.FaultyCache.serves`).

The one difference is that an answer of the cache has no regard for the files that include one
another, so that a cycle may not be noticed.
-/

namespace LayeredConfig

open Cache (Query query Separate)

/-! ## A world without the files of a directory -/

namespace World

variable {w v : World} {dir place : Place} {node : Node}

theorem Sound.node?_eq_some_iff (h : w.Sound) (hplace : place ≠ []) :
    w.node? place = some node ↔ (place, node) ∈ w.nodes := by
  rw [node?_of_ne_nil hplace, Option.map_eq_some_iff]
  constructor
  · rintro ⟨⟨_, _⟩, hfind, rfl⟩
    obtain rfl : _ = place := by simpa using List.find?_some hfind
    exact List.mem_of_find?_eq_some hfind
  · intro hmem
    cases hfind : w.nodes.find? fun e => e.1 == place with
    | none => exact absurd (List.find?_eq_none.1 hfind _ hmem) (by simp)
    | some e =>
      have hplace : e.1 = place := by simpa using List.find?_some hfind
      exact ⟨e, rfl, congrArg Prod.snd
        (List.inj_on_of_nodup_map h.once (List.mem_of_find?_eq_some hfind) hmem hplace)⟩

/-- The world without the files right in a directory. -/
def cleared (w : World) (dir : Place) : World :=
  { w with nodes := w.nodes.filter fun e => decide (e.1 ≠ [] ∧
      (e.2.isDirectory = true ∨ ¬ Inside dir e.1)) }

theorem mem_nodes_cleared : (place, node) ∈ (w.cleared dir).nodes ↔
    (place, node) ∈ w.nodes ∧ place ≠ [] ∧ (node.isDirectory = true ∨ ¬ Inside dir place) := by
  rw [cleared, List.mem_filter, decide_eq_true_eq]

theorem Sound.cleared (h : w.Sound) (dir : Place) : (w.cleared dir).Sound where
  once := h.once.sublist (List.filter_sublist.map _)
  plain e he := h.plain e (List.mem_of_mem_filter he)

/-- Only files in the directory are missing. -/
theorem Sound.sameOutside_cleared (h : w.Sound) (dir : Place) :
    SameOutside (fun place => Inside dir place ∧ (w.node? place).any (!·.isDirectory) = true) w
      (w.cleared dir) := by
  have hnode {place : Place} {node : Node} : (w.cleared dir).node? place = some node ↔
      w.node? place = some node ∧ (node.isDirectory = true ∨ ¬ Inside dir place) := by
    by_cases hplace : place = []
    · subst hplace
      refine ⟨fun hnode => ⟨hnode, .inr fun hinside => hinside.1 rfl⟩, fun hnode => hnode.1⟩
    · rw [(h.cleared dir).node?_eq_some_iff hplace, h.node?_eq_some_iff hplace, mem_nodes_cleared]
      simp [hplace]
  refine ⟨rfl, rfl, rfl, fun place hplace => Option.ext fun node => ?_, fun place t => ?_⟩
  · rw [hnode]
    refine ⟨fun h => h.1, fun h => ⟨h, ?_⟩⟩
    by_cases hinside : Inside dir place
    · refine .inl ?_
      simpa [hinside, h] using hplace
    · exact .inr hinside
  · rw [hnode]
    exact ⟨fun h => h.1, fun h => ⟨h, .inl rfl⟩⟩

/-- A path to a file that is not in the directory leads to the same. -/
theorem Sound.find?_cleared (h : w.Sound) {p : FilePath}
    (hp : w.hasFile p = true → ¬ Inside dir (w.placeOf p)) :
    (w.cleared dir).find? p = w.find? p := by
  refine (h.sameOutside_cleared dir).find?_eq ?_
  rw [Avoids]
  split
  next place node hlocate =>
    rintro ⟨hinside, hfile⟩
    refine hp ?_ (placeOf_of_locate hlocate ▸ hinside)
    rw [hasFile, find?, hlocate]
    rwa [← node_of_walk (walk_of_locate hlocate).2] at hfile
  · trivial

/-- A world in which something is at all places of another has at least as many of them. -/
theorem Sound.length_le (h : w.Sound)
    (hthere : ∀ e ∈ w.nodes, e.1 ≠ [] ∧ (v.node? e.1).isSome = true) :
    w.nodes.length ≤ v.nodes.length := by
  have hsubset : w.nodes.map Prod.fst ⊆ v.nodes.map Prod.fst := by
    intro place hplace
    obtain ⟨e, he, rfl⟩ := List.mem_map.1 hplace
    obtain ⟨hplace, hsome⟩ := hthere e he
    rw [node?_of_ne_nil hplace, Option.isSome_map, List.find?_isSome] at hsome
    obtain ⟨e', he', hsame⟩ := hsome
    exact List.mem_map.2 ⟨e', he', by simpa using hsame⟩
  simpa using (h.once.subperm hsubset).length_le

theorem document_fst_eq {p : FilePath} (h : v.find? p = w.find? p) :
    (v.document p).1 = (w.document p).1 := by
  have hcontent (bytes : ByteArray) : v.content p = .ok bytes ↔ w.content p = .ok bytes := by
    rw [content_eq_ok_iff, content_eq_ok_iff, h]
  unfold document
  cases hw : w.content p with
  | ok bytes => rw [(hcontent bytes).2 hw]
  | error fault =>
    cases hv : v.content p with
    | ok bytes => cases ((hcontent bytes).1 hv).symm.trans hw
    | error fault' => rfl

end World

/-- What lies beside a cache is there without its files. -/
theorem Store.Beside.find?_cleared {store : Store} {w : World} {P : FilePath → Prop}
    (h : store.Beside w P) {p : FilePath} (hp : P p) :
    (w.cleared (w.placeOf store.root)).find? p = w.find? p := by
  refine h.sound.find?_cleared fun hfile => ?_
  rw [World.hasFile, ← h.same p hp, World.find?] at hfile
  have havoids := h.avoids p hp
  rw [World.Avoids] at havoids
  split at hfile
  next place _ hlocate =>
    rw [hlocate] at havoids
    have hplace := World.placeOf_of_locate hlocate
    rw [World.placeOf, (store.opened_grown w).directory, ← World.placeOf] at hplace
    rwa [← hplace]
  · cases hfile

/-! ## What is asked in the course of a task -/

namespace Task

/-- How the files of a task are loaded. -/
def options : Task → LoadOptions
  | .load _ o => o
  | .resolve _ _ o => o
  | .nested _ o => o.forFile
  | .pattern _ o => o.forFile

/-- The files that a task names, in normal form. -/
def files (w : World) : Task → List FilePath
  | .load path _ => [FilePath.normalize w.directory path]
  | .nested files _ => files.map (FilePath.normalize w.directory)
  | .resolve _ _ _ | .pattern _ _ => []

theorem isNormal_of_mem_files {w : World} {task : Task} {file : FilePath}
    (h : file ∈ task.files w) : file.IsNormal := by
  cases task with
  | load path o =>
    rw [List.mem_singleton.1 h]
    exact FilePath.isNormal_normalize _ _
  | nested files o =>
    obtain ⟨p, -, rfl⟩ := List.mem_map.1 h
    exact FilePath.isNormal_normalize _ _
  | resolve document owner o => cases h
  | pattern pattern o => cases h

/-- The task names the path, or it is searched or found for an entry that is met. -/
def Concerns (task : Task) (w : World) (meets : List Meeting) (p : FilePath) : Prop :=
  p ∈ task.files w ∨ ∃ m ∈ meets, p ∈ m.searched ∨ p ∈ m.found

end Task

/-- What the cache is asked for a request. -/
def Request.queries (r : Request) : List Query :=
  r.cacheKeys.toList.map fun keys => ⟨[r.path], keys⟩

theorem Request.queries_eq (r : Request) {keys : List String} (h : r.path.IsNormal)
    (hkeys : r.cacheKeys = some keys) (v : World) : r.queries = [query v [r.path] keys] := by
  rw [queries, hkeys, query, List.map_singleton, h.normalize_eq]
  rfl

namespace Settings

open Terms (Mimics)

section Task

variable (s : Settings) (task : Task)

/-- The request for a file that the task names. -/
def request (file : FilePath) : Request := task.options.request file (s.loadKeys? task.options)

/-- What the cache is asked for a file that is included. -/
def includedQuery (file : FilePath) : Query := ⟨[file], s.keys "included" task.options.pathField⟩

/-- What the cache is asked for all files of a nested load. -/
def nestedQueries (w : World) : List Query :=
  match task with
  | .nested files o =>
    (s.nestedKeys? o).toList.map fun keys => ⟨files.map (FilePath.normalize w.directory), keys⟩
  | _ => []

/-- What the cache is asked for the files that the task names and those that are found. -/
def asks (w : World) (meets : List Meeting) : List Query :=
  (task.files w).flatMap (fun file => (s.request task file).queries) ++
    meets.flatMap fun m => m.found.toList.flatMap fun file => [s.includedQuery task file]

/-- The requests for the files that the task names and those that are found. -/
def Requested (w : World) (meets : List Meeting) (r : Request) : Prop :=
  (∃ file ∈ task.files w, r = s.request task file) ∨
    ∃ file : FilePath, file.IsNormal ∧ (∃ m ∈ meets, m.found = some file) ∧
      ∃ chain location, r = s.includedRequest task.options.pathField file chain location

end Task

variable {s : Settings} {store : Store} {task : Task} {w w₀ v : World} {meets : List Meeting}
  {r r' : Request} {q : Query}

theorem Requested.isNormal (h : s.Requested task w meets r) : r.path.IsNormal := by
  rcases h with ⟨file, hfile, rfl⟩ | ⟨file, hfile, -, chain, location, rfl⟩
  · exact Task.isNormal_of_mem_files hfile
  · exact hfile

theorem Requested.pathField (h : s.Requested task w meets r) :
    r.pathField = task.options.pathField := by
  rcases h with ⟨file, -, rfl⟩ | ⟨file, -, -, chain, location, rfl⟩ <;> rfl

theorem Requested.concerns (h : s.Requested task w meets r) : task.Concerns w meets r.path := by
  rcases h with ⟨file, hfile, rfl⟩ | ⟨file, -, ⟨m, hm, hfound⟩, chain, location, rfl⟩
  · exact .inl hfile
  · exact .inr ⟨m, hm, .inr hfound⟩

/-- The keys of files that are named are never those of files that are included. -/
theorem loadKeys?_ne {o : LoadOptions} {field : Option String} :
    s.loadKeys? o ≠ some (s.keys "included" field) := by
  unfold loadKeys?
  split
  · exact nofun
  · intro h
    have hmode : "mode=" ++ ("load includes=" ++ flag o.includes ++ " self-refs="
        ++ flag o.selfReferences) = "mode=" ++ "included" :=
      Option.some.inj (congrArg (fun keys => keys.bind List.head?) h)
    revert hmode
    cases o.includes <;> cases o.selfReferences <;> decide

/-- Requests for which the cache is asked the same differ only in who includes the file. -/
theorem Requested.akin (h : s.Requested task w meets r) (h' : s.Requested task w meets r')
    (hq : q ∈ r.queries) (hq' : q ∈ r'.queries) : r.Akin r' := by
  obtain ⟨keys, hkeys, rfl⟩ := List.mem_map.1 hq
  obtain ⟨keys', hkeys', heq⟩ := List.mem_map.1 hq'
  obtain ⟨hpath, rfl⟩ : r'.path = r.path ∧ keys' = keys := by simpa using heq
  rw [Option.mem_toList] at hkeys hkeys'
  rcases h with ⟨file, -, rfl⟩ | ⟨file, -, -, chain, location, rfl⟩
  · rcases h' with ⟨file', -, rfl⟩ | ⟨file', -, -, chain', location', rfl⟩
    · obtain rfl : file' = file := hpath
      exact .refl _
    · cases hkeys'
      exact absurd hkeys loadKeys?_ne
  · rcases h' with ⟨file', -, rfl⟩ | ⟨file', -, -, chain', location', rfl⟩
    · cases hkeys
      exact absurd hkeys' loadKeys?_ne
    · obtain rfl : file' = file := hpath
      exact ⟨_, _, rfl⟩

/-- A loader that serves all that a task needs ends it as a loader without a cache does, unless the
cache answers a nested load as a whole. -/
theorem Serves.sameEnd {κ : Type} {T : Terms κ} {A : Request → Prop} {queries : Request → List κ}
    (h : s.Serves T A queries) (htask : ∀ pattern o, task ≠ .pattern pattern o)
    (hr : ∀ file ∈ task.files T.world, A (s.request task file))
    (hincluded : ∀ file, T.Finds file → ∀ chain location,
      let r := s.includedRequest task.options.pathField file chain location
      A r ∧ queries r = T.ask file)
    (hmeets : ∀ m ∈ (s.uncached.follow [] task).meets T.world, T.Met m)
    (hfit : T.Fit ((task.files T.world).flatMap (fun file => queries (s.request task file)) ++
      ((s.uncached.follow [] task).meets T.world).flatMap T.asked) v)
    (hnested : ∀ files o, task = .nested files o → ∃ v',
      outcome (cached (s.storeFor? (s.nestedKeys? o)) (task.files T.world)) v = (.ok none, v') ∧
      T.Fit ((task.files T.world).flatMap (fun file => queries (s.request task file)) ++
        ((s.uncached.follow [] task).meets T.world).flatMap T.asked) v') :
    SameEnd T.Excused (outcome (s.uncached.perform task) T.world).1
      (outcome (s.perform task) v).1 := by
  have hrequest {file : FilePath} (hfile : file ∈ task.files T.world) :
      s.loadRequest T.world file task.options = s.request task file := by
    rw [loadRequest, (Task.isNormal_of_mem_files hfile).normalize_eq, request]
  have hfollow : (s.uncached.follow [] task).run = s.uncached.perform task := follow_run task
  rw [← hfollow]
  cases task with
  | load path o =>
    rw [Task.files, List.flatMap_singleton] at hfit
    exact (mimics_load h (hr _ List.mem_cons_self)).sameEnd (.refl _) hfit hmeets
  | resolve document owner o =>
    exact (mimics_resolve h hincluded document).sameEnd (.refl _) hfit hmeets
  | nested files o =>
    obtain ⟨v', hmiss, hfit'⟩ := hnested files o rfl
    rw [hfollow]
    refine sameEnd_nested h (.refl _) (h.agrees _ v hfit).directory hmiss (fun file hfile => ?_) ?_
      hmeets
    · exact hrequest hfile ▸ hr file hfile
    · have hsame : (files.map (FilePath.normalize T.world.directory)).flatMap
          (fun file => queries (s.loadRequest T.world file o.forFile)) =
          ((Task.nested files o).files T.world).flatMap fun file =>
            queries (s.request (.nested files o) file) :=
        List.flatMap_congr fun file hfile => congrArg queries (hrequest hfile)
      rwa [hsame]
  | pattern pattern o => exact absurd rfl (htask pattern o)

/-! ## Faulty caches -/

/-- The world without the files of a cache. -/
def withoutEntries (store : Store) (w : World) : World := w.cleared (w.placeOf store.root)

/-- The entries of `_include` that a loader without a cache meets there. -/
def metWithout (s : Settings) (store : Store) (task : Task) (w : World) : List Meeting :=
  (s.uncached.follow [] task).meets (withoutEntries store w)

/-- The cache of a loader has faulty entries only for what it is asked in a task, if any, and lies
beside the files. -/
structure FaultyCache (s : Settings) (store : Store) (task : Task) (w : World) : Prop where
  cache : s.store? = some store
  /-- The files of the task, and all places where others are looked for, are not in the cache. -/
  beside : store.Beside w (task.Concerns w (s.metWithout store task w))
  /-- The cache can tell apart what it is asked. -/
  separate : Separate {q | q ∈ s.nestedQueries task w ++ s.asks task w (s.metWithout store task w)}
  /-- No entry that is asked for was written by this engine. -/
  faulty : ∀ q ∈ s.nestedQueries task w ++ s.asks task w (s.metWithout store task w),
    ∀ e, w.entry (store.entryPath q.key) = .ok e → e.engine ≠ engineName
  /-- What is kept of a file that is asked for again reads back. -/
  reads : ∀ q, 2 ≤ (s.asks task w (s.metWithout store task w)).count q →
    ∀ r, s.Requested task w (s.metWithout store task w) r → q ∈ r.queries →
    ∀ t, s.Has (withoutEntries store w) r t →
    ∀ ledger, Envelope.ReadsBack ⟨engineName, q.paths, t, ledger⟩
  /-- The task ends without a cache, and not because directives are nested too deep. -/
  bounded : ∀ e, (outcome (s.uncached.perform task) (withoutEntries store w)).1 = .error e →
    ¬ e.IsUnbounded

namespace FaultyCache

/-- What the cache may answer is what such a request has without a cache. -/
def Known (s : Settings) (store : Store) (task : Task) (w : World) (q : Query) (t : Tree) : Prop :=
  ∃ r, s.Requested task w (s.metWithout store task w) r ∧ q ∈ r.queries ∧
    s.Has (withoutEntries store w) r t

/-- A loader with a faulty cache is compared with one without a cache in the world without the files
of the cache. -/
def terms (s : Settings) (store : Store) (task : Task) (w : World) : Terms Query where
  world := withoutEntries store w
  Fit := store.Serving {q | q ∈ s.nestedQueries task w ++ s.asks task w (s.metWithout store task w)}
    (Known s store task w) w
  Met m := m ∈ s.metWithout store task w
  Excused e := e.IsCycle ∨ e.IsUnbounded
  ask file := [s.includedQuery task file]

variable (h : s.FaultyCache store task w)
include h

theorem packages : store.packages = s.packages := by
  obtain ⟨root, hroot, hstore⟩ := Option.map_eq_some_iff.1 h.cache
  rw [← hstore]

theorem storeFor?_some (keys : List String) : s.storeFor? (some keys) = some (store, keys) := by
  rw [storeFor?, h.cache]
  rfl

/-- Worlds in which all is found that is found beside the cache are like the one without its
files. -/
theorem agrees_of {v : World} (hdirectory : v.directory = w.directory)
    (hsize : (withoutEntries store w).nodes.length ≤ v.nodes.length)
    (hpackages : ∀ name, s.packages.directoryIn v name = s.packages.directoryIn w name)
    (hfind : ∀ p, task.Concerns w (s.metWithout store task w) p → v.find? p = w.find? p) :
    s.Agrees (withoutEntries store w) (· ∈ s.metWithout store task w)
      (s.Requested task w (s.metWithout store task w)) v where
  directory := hdirectory
  size := hsize
  places owner entry := by
    have hcleared (name : String) : s.packages.directoryIn (withoutEntries store w) name =
        s.packages.directoryIn w name :=
      (h.beside.sound.sameOutside_cleared _).directoryIn_eq s.packages name
    have hhere : (withoutEntries store w).directory = w.directory := rfl
    simp only [places, hpackages, hcleared, hdirectory, hhere]
  files m hm p hp := by
    have hp' : task.Concerns w (s.metWithout store task w) p := .inr ⟨m, hm, .inl hp⟩
    rw [World.hasFile, World.hasFile, hfind p hp', withoutEntries, h.beside.find?_cleared hp']
  document r hr :=
    World.document_fst_eq ((hfind _ hr.concerns).trans (h.beside.find?_cleared hr.concerns).symm)

theorem agrees : s.Agrees (withoutEntries store w) (· ∈ s.metWithout store task w)
    (s.Requested task w (s.metWithout store task w)) w :=
  h.agrees_of rfl (List.length_filter_le _ _) (fun _ => rfl) fun _ _ => rfl

/-- A loader with a faulty cache serves. -/
theorem serves : s.Serves (terms s store task w)
    (s.Requested task w (s.metWithout store task w)) Request.queries where
  unnoted l := Store.Serving.unnoted store _ _ w l
  fewer _ _ _ hl hv := hv.fewer hl
  unbounded _ he := .inr he
  agrees l v hv := by
    refine h.agrees_of hv.directory ?_ (fun name => ?_) fun p hp => hv.find?_eq h.beside hp
    · refine (h.beside.sound.cleared _).length_le fun e he => ?_
      obtain ⟨hmem, hplace, hkept⟩ := World.mem_nodes_cleared.1 he
      rw [hv.node?_eq_some ((h.beside.sound.node?_eq_some_iff hplace).2 hmem) hkept]
      exact ⟨hplace, rfl⟩
    · rw [← h.packages]
      exact hv.directoryIn_eq h.beside name
  included r hr file hfile location := by
    obtain ⟨hnormal, hm⟩ := hfile
    rw [hr.pathField]
    exact ⟨.inr ⟨file, hnormal, hm, _, _, rfl⟩, rfl⟩
  answered r hr l v hv := by
    cases hkeys : r.cacheKeys with
    | none =>
      rw [storeFor?_none]
      exact ⟨none, v, rfl, hv, nofun⟩
    | some keys =>
      have hquery := r.queries_eq hr.isNormal hkeys v
      rw [hquery] at hv
      obtain ⟨hit, v', hlookup, hv', hhit⟩ := hv.lookup h.beside List.mem_cons_self
      rw [h.storeFor?_some, hquery]
      refine ⟨hit, v', hlookup, hv', fun result hresult => ?_⟩
      obtain ⟨r', hr', hq', hhas⟩ := hhit result hresult
      exact hhas.only (hr'.akin hr hq' (hquery ▸ List.mem_cons_self))
  kept r hr l v hv t ledger what hhas := by
    cases hkeys : r.cacheKeys with
    | none =>
      have hnone : r.queries = [] := by rw [Request.queries, hkeys]; rfl
      rw [hnone] at hv
      rw [storeFor?_none]
      exact ⟨ledger, v, rfl, hv⟩
    | some keys =>
      have hquery := r.queries_eq hr.isNormal hkeys v
      have hknown : Known s store task w (query v [r.path] keys) t :=
        ⟨r, hr, hquery ▸ List.mem_cons_self, hhas⟩
      rw [hquery] at hv
      obtain ⟨ledger', outcome', v', hsave, hv'⟩ :=
        hv.save h.separate h.beside h.faulty hknown ledger
      rw [h.storeFor?_some, keep, outcome_bind_of_ok hsave]
      cases outcome' with
      | ok u => exact ⟨ledger', v', rfl, hv'⟩
      | error fault => exact ⟨ledger', _, rfl, (Store.Serving.unnoted store _ _ w l).warned hv' _⟩

/-- At first all entries are faulty, so that none is wrong. -/
theorem start : (terms s store task w).Fit (s.asks task w (s.metWithout store task w)) w :=
  .start (fun _ hq => List.mem_append_right _ hq)
    (fun q hq t ⟨r, hr, hmem, hhas⟩ => h.reads q hq r hr hmem t hhas) h.faulty

/-- Nothing is found for a nested load as a whole. -/
theorem nested_misses {files : List FilePath} {o : NestedOptions} (htask : task = .nested files o) :
    ∃ v', outcome (cached (s.storeFor? (s.nestedKeys? o)) (task.files w)) w = (.ok none, v') ∧
      (terms s store task w).Fit (s.asks task w (s.metWithout store task w)) v' := by
  cases hkeys : s.nestedKeys? o with
  | none =>
    rw [storeFor?_none]
    exact ⟨w, rfl, h.start⟩
  | some keys =>
    rw [h.storeFor?_some]
    refine ⟨_, ?_, h.start.looked h.beside (task.files w) keys⟩
    refine (store.lookup_run w (task.files w) keys).trans ?_
    cases hanswer : (store.answer w (task.files w) keys).1 with
    | none => rfl
    | some hit =>
      obtain ⟨e, written, hanswers, -⟩ := Store.answer_fst_eq_some_iff.1 hanswer
      have hquery : query w (task.files w) keys ∈ s.nestedQueries task w := by
        subst htask
        rw [nestedQueries, hkeys, query, List.map_congr_left (g := id) fun file hfile =>
          (Task.isNormal_of_mem_files hfile).normalize_eq w.directory, List.map_id]
        exact List.mem_cons_self
      exact absurd hanswers.engine
        (h.faulty _ (List.mem_append_left _ hquery) e hanswers.entry)

/-- In a world with the files of the cache, a loader without a cache ends a task as it does in one
without these files. -/
theorem sameEnd_uncached (htask : ∀ pattern o, task ≠ .pattern pattern o) :
    SameEnd Error.IsUnbounded (outcome (s.uncached.perform task) (withoutEntries store w)).1
      (outcome (s.uncached.perform task) w).1 := by
  have hserves : s.uncached.Serves (uncachedTerms (withoutEntries store w) w _) _ fun _ => [] :=
    serves_uncached h.agrees fun r hr file hfile location => by
      rw [hr.pathField]
      exact .inr ⟨file, hfile.1, hfile.2, _, _, rfl⟩
  refine hserves.sameEnd htask (fun file hfile => .inl ⟨file, hfile, rfl⟩)
    (fun file hfile chain location => ?_) (fun m hm => hm) (.refl w) fun files o _ => ?_
  · exact ⟨.inr ⟨file, hfile.1, hfile.2, chain, location, rfl⟩, rfl⟩
  · rw [storeFor?_uncached]
    exact ⟨w, rfl, .refl w⟩

/-- Whatever is wrong with the entries of the cache, and whether or not new ones can be saved, a
task ends as it does without a cache, except that files which include one another may not be
noticed. -/
theorem sameEnd (htask : ∀ pattern o, task ≠ .pattern pattern o) :
    SameEnd Error.IsCycle (outcome (s.uncached.perform task) w).1
      (outcome (s.perform task) w).1 := by
  have hcached : SameEnd (fun e => e.IsCycle ∨ e.IsUnbounded)
      (outcome (s.uncached.perform task) (withoutEntries store w)).1
      (outcome (s.perform task) w).1 := by
    refine h.serves.sameEnd htask (fun file hfile => .inl ⟨file, hfile, rfl⟩)
      (fun file hfile chain location => ?_) (fun m hm => hm) h.start fun files o htask => ?_
    · exact ⟨.inr ⟨file, hfile.1, hfile.2, chain, location, rfl⟩, rfl⟩
    · exact h.nested_misses htask
  exact (h.sameEnd_uncached htask).of_bounded hcached h.bounded

end FaultyCache

section Example

/-- A loader with a cache. -/
def keeper : Settings := ⟨[], some ⟨"/cache"⟩, Packages.none⟩

/-- Its cache. -/
def keeperStore : Store := ⟨⟨"/cache"⟩, Packages.none⟩

/-- Load a document, which is not kept itself. -/
def documentTask : Task := .load ⟨"r.yml"⟩ { LoadOptions.default with useCache := false }

/-- What the cache is asked for the file that the document includes. -/
def partQuery : Query := ⟨[⟨"/p.yml"⟩], ["mode=included"]⟩

/-- Its key. -/
def partKey : String := "bd12df12e38e973cb14dab6a883e4fdaa2f4d975a39cbdbc3fdf7ea1a7a55109"

/-- A world in which the entry of the file that the document includes is none. -/
def marred : World :=
  { World.holding [(["r.yml"], .file "_include: p.yml\n".toUTF8 ⟨5000000000⟩),
      (["p.yml"], .file "a: 1\n".toUTF8 ⟨5000000000⟩),
      (["cache"], .directory ⟨6000000000⟩),
      (["cache", partKey ++ ".yml"], .file "[".toUTF8 ⟨6000000000⟩)] with
    now := ⟨9000000000⟩ }

theorem marred_faultyCache : keeper.FaultyCache keeperStore documentTask marred := by
  have hmet : keeper.metWithout keeperStore documentTask marred =
      [⟨⟨"/r.yml"⟩, "p.yml", ⟨"p.yml", none, false, false⟩, [⟨"/p.yml"⟩], some ⟨"/p.yml"⟩⟩] := by
    decide +kernel
  have hasks : keeper.nestedQueries documentTask marred ++
      keeper.asks documentTask marred (keeper.metWithout keeperStore documentTask marred) =
        [partQuery] := by
    rw [hmet]
    decide
  have hopened : keeperStore.opened marred = marred := Store.opened_eq (by decide)
  have hconcerns : ∀ p, documentTask.Concerns marred
      (keeper.metWithout keeperStore documentTask marred) p → p = ⟨"/r.yml"⟩ ∨ p = ⟨"/p.yml"⟩ := by
    intro p hp
    rw [hmet] at hp
    rcases hp with hp | ⟨m, hm, hp⟩
    · have hfiles : documentTask.files marred = [⟨"/r.yml"⟩] := by decide
      exact .inl (List.mem_singleton.1 (hfiles ▸ hp))
    · obtain rfl := List.mem_singleton.1 hm
      rcases hp with hp | hp
      · exact .inr (List.mem_singleton.1 hp)
      · exact .inr (Option.mem_some.1 hp).symm
  have hroot : marred.hasDirectory keeperStore.root = true := by decide
  have hbeside : keeperStore.Beside marred (documentTask.Concerns marred
      (keeper.metWithout keeperStore documentTask marred)) :=
    { sound := by decide +kernel
      token := by decide
      nonempty := by decide
      traceless := fun _ => hopened
      vacant := fun hnone => absurd hroot (by rw [hnone]; decide)
      packages := fun name => by rw [hopened]
      same := fun p _ => by rw [hopened]
      avoids := fun p hp => by
        rw [hopened]
        rcases hconcerns p hp with rfl | rfl
        · decide
        · decide }
  have hseparate : Separate {q | q ∈ [partQuery]} := by
    refine ⟨fun q hq => ?_, fun q hq => ?_, fun q hq q' hq' _ => ?_⟩
    · obtain rfl := List.mem_singleton.1 hq
      decide
    · obtain rfl := List.mem_singleton.1 hq
      decide
    · rw [List.mem_singleton.1 hq, List.mem_singleton.1 hq']
  have hfaulty (e : Envelope) : marred.entry (keeperStore.entryPath partQuery.key) ≠ .ok e := by
    have hkey : partQuery.key = partKey := by decide +kernel
    have hnone : (marred.entry (keeperStore.entryPath partKey)).toOption = none := by decide +kernel
    rw [hkey]
    intro he
    rw [he] at hnone
    cases hnone
  have hrun : succeeds (keeper.uncached.perform documentTask) (withoutEntries keeperStore marred)
      (fun _ _ => true) = true := by decide +kernel
  obtain ⟨result, w', hok, -⟩ := succeeds_iff.1 hrun
  refine ⟨rfl, hbeside, hasks.symm ▸ hseparate, fun q hq e he => ?_, fun q hq => ?_, fun e he => ?_⟩
  · rw [hasks, List.mem_singleton] at hq
    exact absurd (hq ▸ he) (hfaulty e)
  · have hcount : [partQuery].count q ≤ 1 := List.count_le_length
    have htwice : 2 ≤ [partQuery].count q := hasks ▸ hq
    omega
  · rw [hok] at he
    cases he

/-- A world in which a file is where the cache should be. -/
def blocked : World :=
  .holding [(["p.yml"], .file "a: 1\n".toUTF8 ⟨5000000000⟩), (["cache"], .file .empty ⟨6000000000⟩)]

end Example

end Settings

end LayeredConfig
