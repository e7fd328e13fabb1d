import LayeredConfig.Cache.Key
import LayeredConfig.Proofs.Parallel
import LayeredConfig.Proofs.Path.Respelling

/-!
# Normalizing paths

The names of a path are climbed to part by part, so a path that is joined to another goes on from
the names of that one, and it does not matter whether these are in normal form already
(`normalize_join`). A piece that is idle goes nowhere, and a name is taken back by two dots behind
it. Paths that differ only in these are spelled alike (`SpelledAlike`), and they have one normal
form, from wherever they are seen and whatever they are joined with. So they are one path to the
ledger, to the cache and in the chain of the files that include one another.
-/

namespace LayeredConfig

namespace FilePath

variable {here p q r d : FilePath}

/-! ## Joined paths -/

theorem innerParts_absolute_join (h : r.isAbsolute = false) :
    innerParts (absolute here (d.join r)).pieces =
      innerParts (absolute here d).pieces ++ innerParts r.pieces := by
  have habsolute : (d.join r).isAbsolute = d.isAbsolute := isAbsolute_join h
  cases hd : d.isAbsolute with
  | true =>
    rw [absolute, absolute, join_of_absolute (habsolute.trans hd), join_of_absolute hd,
      innerParts_join h]
  | false =>
    -- three paths are joined, and the parts of each stand behind those of the one before
    rw [absolute, absolute, innerParts_join (habsolute.trans hd), innerParts_join h,
      innerParts_join hd, List.append_assoc]

/-- A relative path goes on from the names of the path that it is joined to. -/
theorem names_join (h : r.isAbsolute = false) :
    (absolute here (d.join r)).names =
      ((innerParts r.pieces).foldl climb (absolute here d).names.reverse).reverse := by
  rw [names_eq, innerParts_absolute_join h, List.foldl_append, names_eq (absolute here d),
    List.reverse_reverse]

theorem names_normalize (here p : FilePath) :
    (normalize here p).names = (absolute here p).names :=
  names_ofNames fun _ => plain_of_mem_names

/-- A path may be normalized before another is joined to it. -/
theorem normalize_join (here d r : FilePath) :
    normalize here (d.join r) = normalize here ((normalize here d).join r) := by
  cases hr : r.isAbsolute with
  | true => rw [join_of_absolute hr, join_of_absolute hr]
  | false =>
    have hnormal : absolute here (normalize here d) = normalize here d :=
      join_of_absolute (isAbsolute_ofNames _)
    rw [normalize, normalize, names_join hr, names_join hr, hnormal, names_normalize]

/-- Two dots take back the last name. At the root there is none, and they lead to the root. -/
theorem normalize_join_up (here p : FilePath) :
    normalize here (p.join ⟨".."⟩) = ofNames (normalize here p).names.dropLast := by
  have hup : innerParts (pieces ⟨".."⟩) = [.up] := by decide +kernel
  have hclimb : climb (absolute here p).names.reverse .up =
      (absolute here p).names.dropLast.reverse := List.tail_reverse
  rw [normalize, names_join rfl, names_normalize, hup, List.foldl_cons, List.foldl_nil, hclimb,
    List.reverse_reverse]

/-! ## Paths that are spelled alike -/

/-- The second path is the first without a piece that stands for nothing, or without a name and the
two dots behind it. -/
inductive Drops : FilePath → FilePath → Prop
  | idle {p q : FilePath} {before after : List (List Char)} {piece : List Char}
    (hidle : isIdle piece = true) (hp : p.pieces = before ++ piece :: after)
    (hq : q.pieces = before ++ after) (habsolute : p.isAbsolute = q.isAbsolute) : Drops p q
  | back {p q : FilePath} {before after : List (List Char)} {name : String} (hname : Plain name)
    (hp : p.pieces = before ++ name.toList :: ['.', '.'] :: after)
    (hq : q.pieces = before ++ after) (habsolute : p.isAbsolute = q.isAbsolute) : Drops p q

/-- The paths differ only by slashes, dots, and names that are followed by two dots. -/
abbrev SpelledAlike : FilePath → FilePath → Prop := Relation.EqvGen Drops

/-- The paths start from the same place, and lead from everywhere to the same names. -/
structure SameWay (p q : FilePath) : Prop where
  absolute : p.isAbsolute = q.isAbsolute
  climb : ∀ names, (innerParts p.pieces).foldl climb names = (innerParts q.pieces).foldl climb names

theorem Drops.sameWay (h : Drops p q) : SameWay p q := by
  cases h with
  | idle hidle hp hq habsolute =>
    refine ⟨habsolute, fun names => ?_⟩
    rw [hp, hq, innerParts_append, innerParts_append, innerParts_cons_of_isIdle hidle]
  | back hname hp hq habsolute =>
    refine ⟨habsolute, fun names => ?_⟩
    -- the name is put upon those before it, and the dots take it off again
    rw [hp, hq, innerParts_append, innerParts_append, innerParts_cons hname.isIdle, hname.part,
      innerParts_cons rfl, List.foldl_append, List.foldl_append]
    rfl

theorem SpelledAlike.sameWay (h : SpelledAlike p q) : SameWay p q := by
  induction h with
  | rel _ _ h => exact h.sameWay
  | refl => exact ⟨rfl, fun _ => rfl⟩
  | symm _ _ _ ih => exact ⟨ih.absolute.symm, fun names => (ih.climb names).symm⟩
  | trans _ _ _ _ _ ih ih' =>
    exact ⟨ih.absolute.trans ih'.absolute, fun names => (ih.climb names).trans (ih'.climb names)⟩

namespace SameWay

theorem join (h : SameWay p q) (base : FilePath) : SameWay (base.join p) (base.join q) := by
  cases hp : p.isAbsolute with
  | true => rwa [join_of_absolute hp, join_of_absolute (h.absolute ▸ hp)]
  | false =>
    have hq : q.isAbsolute = false := h.absolute ▸ hp
    refine ⟨by rw [isAbsolute_join hp, isAbsolute_join hq], fun names => ?_⟩
    rw [innerParts_join hp, innerParts_join hq, List.foldl_append, List.foldl_append, h.climb]

theorem normalize_eq (h : SameWay p q) (here : FilePath) : normalize here p = normalize here q := by
  have hclimb := (h.join here).climb []
  rw [normalize, normalize, FilePath.absolute, FilePath.absolute, names_eq, names_eq, hclimb]

end SameWay

end FilePath

/-! ## What normalizes paths -/

variable {p q : FilePath} {m : Type → Type} [Monad m] [Host m]

theorem Host.normalize_congr (h : p.SameWay q) :
    (Host.normalize p : m FilePath) = Host.normalize q := by
  simp only [Host.normalize, h.normalize_eq]

theorem Ledger.track_congr (h : p.SameWay q) (l : Ledger) (mark : Ledger.Mark)
    (attributes : Named String) :
    (l.track p mark attributes : m Ledger) = l.track q mark attributes := by
  simp only [Ledger.track, Host.normalize_congr h]

theorem Ledger.miss_congr (h : p.SameWay q) (l : Ledger) (origin : FilePath)
    (file : Option FilePath) :
    (l.miss p origin none file : m Ledger) = l.miss q origin none file := by
  simp only [Ledger.miss, Host.normalize_congr h, Option.isSome_none, Bool.false_eq_true, if_false]

theorem Cache.key_congr (h : p.SameWay q) (here : FilePath) (before after : List FilePath)
    (settings : List String) :
    Cache.key here (before ++ p :: after) settings =
      Cache.key here (before ++ q :: after) settings := by
  simp only [Cache.key, List.map_append, List.map_cons, h.normalize_eq]

/-- A load begins the chain of files with the normal form of its path. -/
theorem Settings.load_congr (h : p.SameWay q) (s : Settings) (o : LoadOptions) :
    (s.load p o : ExceptT Error m (Tree × Ledger)) = s.load q o := by
  simp only [Settings.load, Host.normalize_congr h]

namespace Scope

/-- Where a relative entry is looked for does not depend on its spelling. -/
theorem candidates_congr {c : Scope m} {e e' : IncludeEntry}
    (h : FilePath.SameWay ⟨e.path⟩ ⟨e'.path⟩) (hpackage : e.package = none)
    (hpackage' : e'.package = none) (hrelative : FilePath.isAbsolute ⟨e.path⟩ = false) : c.candidates e = c.candidates e' := by
  have hrelative' : FilePath.isAbsolute ⟨e'.path⟩ = false := h.absolute ▸ hrelative
  have hnormal (here dir : FilePath) : FilePath.normalize here (dir.join ⟨e.path⟩) =
      FilePath.normalize here (dir.join ⟨e'.path⟩) := (h.join dir).normalize_eq here
  simp only [candidates, hpackage, hpackage', hrelative, hrelative', hnormal, Bool.false_eq_true,
    if_false]

/-- If a file is found for each of two spellings of an entry, it is the same. -/
theorem found_congr {c : Scope InWorld} {e e' : IncludeEntry} {w : World} {file file' : FilePath}
    (hfile : some file = ((c.settings.places w c.owner e).find? w.hasFile).map
      (FilePath.normalize w.directory))
    (hfile' : some file' = ((c.settings.places w c.owner e').find? w.hasFile).map
      (FilePath.normalize w.directory))
    (h : FilePath.SameWay ⟨e.path⟩ ⟨e'.path⟩) (hpackage : e.package = e'.package) :
    file = file' := by
  have hnormal (dir : FilePath) : FilePath.normalize w.directory (dir.join ⟨e.path⟩) =
      FilePath.normalize w.directory (dir.join ⟨e'.path⟩) := (h.join dir).normalize_eq w.directory
  -- a file that is found for an entry is the normal form of the only place there is
  have honly {place found : FilePath}
      (hfound : some found = ([place].find? w.hasFile).map (FilePath.normalize w.directory)) :
      found = FilePath.normalize w.directory place := by
    obtain ⟨_, hmem, rfl⟩ := Option.map_eq_some_iff.1 hfound.symm
    rw [List.mem_singleton.1 (List.mem_of_find?_eq_some hmem)]
  unfold Settings.places at hfile hfile'
  dsimp only at hfile hfile'
  rw [← hpackage] at hfile'
  cases hcase : e.package with
  | some package =>
    rw [hcase] at hfile hfile'
    dsimp only at hfile hfile'
    cases hdir : c.settings.packages.directoryIn w package with
    | none =>
      rw [hdir] at hfile
      cases hfile
    | some dir =>
      rw [hdir] at hfile hfile'
      rw [honly hfile, honly hfile', hnormal]
  | none =>
    rw [hcase] at hfile hfile'
    dsimp only at hfile hfile'
    rw [← h.absolute] at hfile'
    split at hfile
    next habsolute =>
      rw [if_pos habsolute] at hfile'
      rw [honly hfile, honly hfile', h.normalize_eq]
    next hrelative =>
      rw [if_neg hrelative] at hfile'
      simp only [hnormal] at hfile
      exact Option.some_inj.1 (hfile.trans hfile'.symm)

end Scope

namespace FilePath

/-- The two paths are one to all that normalizes paths. -/
structure Identified (p q : FilePath) : Prop where
  normalForm : ∀ here base : FilePath, normalize here p = normalize here q ∧
    normalize here (base.join p) = normalize here (base.join q)
  /-- They are recorded, and noted as missing, under one key. -/
  ledgerKey : ∀ (m : Type → Type) [Monad m] [Host m] (l : Ledger) (mark : Ledger.Mark)
    (attributes : Named String) (origin : FilePath) (file : Option FilePath),
    (l.track p mark attributes : m Ledger) = l.track q mark attributes ∧
      (l.miss p origin none file : m Ledger) = l.miss q origin none file
  /-- Among other paths they give one key of the cache. -/
  cacheKey : ∀ (here : FilePath) (before after : List FilePath) (settings : List String),
    Cache.key here (before ++ p :: after) settings = Cache.key here (before ++ q :: after) settings
  /-- The chain of files that begins with either is one. -/
  load : ∀ (m : Type → Type) [Monad m] [Host m] (s : Settings) (o : LoadOptions),
    (s.load p o : ExceptT Error m (Tree × Ledger)) = s.load q o
  /-- A relative entry of an `_include` is looked for at the same places. -/
  candidates : ∀ (m : Type → Type) [Monad m] [Host m] (c : Scope m) (e : IncludeEntry),
    e.package = none → p.isAbsolute = false →
    c.candidates { e with path := p.text } = c.candidates { e with path := q.text }
  /-- The file that is found for an entry comes into the chain under one path. -/
  found : ∀ (c : Scope InWorld) (raw raw' location location' : String) (e : IncludeEntry)
    (progress progress' : Progress) (w : World) (file file' : FilePath) (r r' : Progress)
    (w₁ w₁' : World),
    outcome ((c.find raw { e with path := p.text } location).run progress) w =
      (.ok (some file, r), w₁) →
    outcome ((c.find raw' { e with path := q.text } location').run progress') w =
      (.ok (some file', r'), w₁') → file = file'

theorem SameWay.identified (h : SameWay p q) : Identified p q where
  normalForm here base := ⟨h.normalize_eq here, (h.join base).normalize_eq here⟩
  ledgerKey _ _ _ l mark attributes origin file :=
    ⟨Ledger.track_congr h l mark attributes, Ledger.miss_congr h l origin file⟩
  cacheKey := Cache.key_congr h
  load _ _ _ := Settings.load_congr h
  candidates _ _ _ _ _ hpackage hrelative := Scope.candidates_congr h hpackage hpackage hrelative
  found _ _ _ _ _ _ _ _ _ _ _ _ _ _ _ hrun hrun' :=
    Scope.found_congr (Scope.found_of_find hrun) (Scope.found_of_find hrun') h rfl

/-- **Normal forms identify paths.** The normal form of a path is a slash and plain names, of which
two dots behind the path take back the last, if there is any. It is its own normal form, and a path
may be normalized before another is joined to it. Paths that differ only by slashes, dots, and names
that are followed by two dots are one to the ledger, the cache and the chains of files. -/
theorem normal_forms_identify :
    (∀ here p : FilePath, (normalize here p).isAbsolute = true ∧
      ∃ names, (∀ n ∈ names, Plain n) ∧ normalize here p = ofNames names ∧
        (normalize here p).parts = .root :: names.map .name ∧
        normalize here (p.join ⟨".."⟩) = ofNames names.dropLast) ∧
    (∀ here here' p : FilePath, normalize here' (normalize here p) = normalize here p) ∧
    (∀ here d r : FilePath,
      normalize here (d.join r) = normalize here ((normalize here d).join r)) ∧
    ∀ p q : FilePath, SpelledAlike p q → Identified p q := by
  refine ⟨fun here p => ⟨isAbsolute_ofNames _, (normalize here p).names, ?_, ?_, ?_,
    normalize_join_up here p⟩, fun here here' p => normalize_normalize here' here p,
    normalize_join, fun p q h => h.sameWay.identified⟩
  · exact fun _ => plain_of_mem_names
  · rw [names_normalize, normalize]
  · rw [names_normalize]
    exact parts_ofNames fun _ => plain_of_mem_names

/-- A path with a dot, slashes and a name that is taken back leads straight. -/
theorem winding_is_straight : Identified ⟨"x/./a//b/../c/"⟩ ⟨"x/a/c"⟩ ∧
    normalize ⟨"/w"⟩ ⟨"x/a/c"⟩ = ⟨"/w/x/a/c"⟩ ∧ normalize ⟨"/w"⟩ ⟨"/../.."⟩ = ⟨"/"⟩ := by
  obtain ⟨-, -, -, hidentified⟩ := normal_forms_identify
  have hdot : Drops ⟨"x/./a//b/../c/"⟩ ⟨"x/a//b/../c/"⟩ :=
    @Drops.idle _ _ ["x".toList] _ ['.'] rfl rfl rfl rfl
  have hslash : Drops ⟨"x/a//b/../c/"⟩ ⟨"x/a/b/../c/"⟩ :=
    @Drops.idle _ _ ["x".toList, "a".toList] _ [] rfl rfl rfl rfl
  have hback : Drops ⟨"x/a/b/../c/"⟩ ⟨"x/a/c/"⟩ :=
    @Drops.back _ _ ["x".toList, "a".toList] _ "b" (by decide) rfl rfl rfl
  have hend : Drops ⟨"x/a/c/"⟩ ⟨"x/a/c"⟩ :=
    @Drops.idle _ _ ["x".toList, "a".toList, "c".toList] [] [] rfl rfl rfl rfl
  refine ⟨hidentified _ _ ?_, by decide +kernel, by decide +kernel⟩
  exact .trans _ _ _ (.rel _ _ hdot) (.trans _ _ _ (.rel _ _ hslash)
    (.trans _ _ _ (.rel _ _ hback) (.rel _ _ hend)))

end FilePath

end LayeredConfig
