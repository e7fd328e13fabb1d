import Mathlib.Data.List.TakeWhile
import LayeredConfig.Proofs.Expansion
import LayeredConfig.Proofs.Glob.Components
import LayeredConfig.Proofs.Making
import LayeredConfig.Proofs.Resolution
import LayeredConfig.Proofs.Tree.Traversal

/-!
# What is found is matched

A pattern is expanded component by component, and matches paths as a whole. The files found by a
pattern in normal form are matched by it (`isMatch_of_expands`), unless a component with wildcards
stands for `.` or `..`. The converse does not hold: only in a match as a whole can `*` and `?` stand
for a slash.
-/

namespace LayeredConfig.Glob

open Pattern (Spells Reads glue glueAll literal? isRecursive)

variable {w : World} {c : Component} {cs : List Component} {path : FilePath} {names : List String}

/-- The names of a path with slashes between them. -/
def inner (names : List String) : List Char := ['/'].intercalate (names.map String.toList)

theorem inner_cons {name : String} (hnames : names ≠ []) :
    inner (name :: names) = name.toList ++ '/' :: inner names := by
  obtain ⟨next, rest, rfl⟩ := List.exists_cons_of_ne_nil hnames
  rfl

theorem inner_concat (names : List String) (name : String) :
    inner (names ++ [name]) = inner names ++ (if names = [] then [] else ['/']) ++ name.toList := by
  induction names with
  | nil => simp [inner]
  | cons first rest ih =>
    rw [List.cons_append, inner_cons (by simp), ih]
    by_cases hrest : rest = []
    · simp [hrest, inner]
    · rw [inner_cons hrest]
      simp [hrest]

/-- A name in a path of names is one name more. -/
theorem join_ofNames (hnames : ∀ n ∈ names, FilePath.Plain n) {name : String}
    (hname : FilePath.Plain name) :
    (FilePath.ofNames names).join ⟨name⟩ = FilePath.ofNames (names ++ [name]) := by
  have hgap : (FilePath.ofNames names).gap.toList = if names = [] then [] else ['/'] := by
    rw [FilePath.gap, FilePath.toList_ofNames]
    by_cases hempty : names = []
    · subst hempty
      rfl
    · obtain ⟨front, last, rfl⟩ := List.eq_nil_or_concat' names |>.resolve_left hempty
      have hlast : FilePath.Plain last := hnames last (by simp)
      have hslash : ('/' :: inner (front ++ [last])).getLast?.all (· == '/') = false := by
        rw [inner_concat, ← List.cons_append, List.getLast?_append_of_ne_nil _ hlast.nonempty,
          List.getLast?_eq_some_getLast hlast.nonempty, Option.all_some, beq_eq_false_iff_ne]
        intro hslash
        exact hlast.slash (hslash ▸ List.getLast_mem hlast.nonempty)
      change (if ('/' :: inner (front ++ [last])).getLast?.all (· == '/') then ""
        else "/").toList = _
      rw [hslash, if_neg hempty]
      rfl
  rw [FilePath.join_of_relative hname.isAbsolute]
  refine congrArg FilePath.mk (String.toList_inj.1 ?_)
  change _ = (FilePath.ofNames (names ++ [name])).text.toList
  rw [String.toList_append, String.toList_append, hgap, FilePath.toList_ofNames,
    FilePath.toList_ofNames]
  change '/' :: inner names ++ _ ++ _ = '/' :: inner (names ++ [name])
  rw [inner_concat]
  rfl

theorem below_ofNames (hnames : ∀ n ∈ names, FilePath.Plain n) {name : String}
    (hname : FilePath.Plain name) :
    below (FilePath.ofNames names) name = FilePath.ofNames (names ++ [name]) := by
  rw [below, FilePath.parts_ofNames hnames, if_neg (by simp), join_ofNames hnames hname]

/-! ## Single components -/

/-- The component stands for names only. -/
structure Tidy (c : Component) : Prop where
  literal : ∀ name, literal? c = some name → FilePath.Plain (String.ofList name)
  special : literal? c = none → specialNames c = []
  recursive : isRecursive c = true → c = [.anyDirectories]

theorem not_recursive_of_literal {name : List Char} (h : literal? c = some name) :
    isRecursive c = false := by
  induction c generalizing name with
  | nil => rfl
  | cons token rest ih =>
    cases token with
    | char ch =>
      obtain ⟨more, hmore, rfl⟩ := Option.map_eq_some_iff.1 h
      have := ih hmore
      simpa [isRecursive] using this
    | _ => cases h

/-- A component without wildcards stands for its own name. -/
theorem spells_literal {name : List Char} (h : literal? c = some name) (s : List Char) :
    Spells c s ↔ s = name := by
  induction c generalizing name s with
  | nil =>
    cases h
    constructor
    · intro h
      cases h
      rfl
    · rintro rfl
      exact .nil
  | cons token rest ih =>
    cases token with
    | char ch =>
      obtain ⟨more, hmore, rfl⟩ := Option.map_eq_some_iff.1 h
      constructor
      · intro h
        cases h with
        | one htakes h => rw [(ih hmore _).1 h, beq_iff_eq.1 htakes]
      · rintro rfl
        exact .one (beq_self_eq_true ch) ((ih hmore more).2 rfl)
    | _ => cases h

/-! ## What is reached -/

/-- Any number of directories stand for what none does, and for what more do. -/
theorem glueAll_directories (hcs : cs ≠ []) :
    glueAll ([.anyDirectories] :: cs) = .anyDirectories :: glueAll cs := by
  obtain ⟨next, rest, rfl⟩ := List.exists_cons_of_ne_nil hcs
  rfl

theorem dropRecursive_cons (hc : isRecursive c = true) (rest : List Component) :
    dropRecursive (c :: rest) = dropRecursive rest := List.dropWhile_cons_of_pos hc

/-- Components for any number of directories can stand for none. -/
theorem spells_of_dropRecursive (hcs : ∀ c ∈ cs, Tidy c) {s : List Char}
    (hmore : dropRecursive cs ≠ []) (h : Spells (glueAll (dropRecursive cs)) s) :
    Spells (glueAll cs) s := by
  induction cs with
  | nil => exact absurd rfl hmore
  | cons c rest ih =>
    obtain ⟨hc, hrest⟩ := List.forall_mem_cons.1 hcs
    by_cases hrecursive : isRecursive c = true
    · rw [dropRecursive_cons hrecursive] at hmore h
      have hnext : rest ≠ [] := by
        rintro rfl
        exact hmore rfl
      rw [hc.recursive hrecursive, glueAll_directories hnext]
      exact .directories [] (.inl rfl) (ih hrest hmore h)
    · have hdrop : dropRecursive (c :: rest) = c :: rest :=
        List.dropWhile_cons_of_neg hrecursive
      rwa [hdrop] at h

/-- Components for any number of directories stand for what one of them does. -/
theorem spells_deeper (hc : Tidy c) (hcs : ∀ c ∈ cs, Tidy c) (hrecursive : isRecursive c = true)
    {s : List Char} (h : Spells (glueAll (c :: dropRecursive (c :: cs))) s) :
    Spells (glueAll (c :: cs)) s := by
  rw [dropRecursive_cons hrecursive] at h
  obtain rfl := hc.recursive hrecursive
  by_cases hmore : dropRecursive cs = []
  · rw [hmore] at h
    clear hrecursive
    induction cs with
    | nil => exact h
    | cons next rest ih =>
      obtain ⟨hnext, hrest⟩ := List.forall_mem_cons.1 hcs
      have hrecursive : isRecursive next = true := List.dropWhile_eq_nil_iff.1 hmore _ (by simp)
      obtain rfl := hnext.recursive hrecursive
      rw [dropRecursive_cons hrecursive] at hmore
      rw [glueAll_directories (by simp)]
      exact .directories [] (.inl rfl) (ih hrest hmore)
  · have hcs' : cs ≠ [] := by
      rintro rfl
      exact hmore rfl
    rw [glueAll_directories hmore] at h
    rw [glueAll_directories hcs']
    cases h with
    | one htakes => cases htakes
    | directories taken hslash h =>
      exact .directories taken hslash (spells_of_dropRecursive hcs hmore h)

/-- What is in a directory is found by components for any number of directories. -/
theorem spells_below (hc : Tidy c) (hrecursive : isRecursive c = true) {s : List Char}
    (h : Spells (glueAll (c :: cs)) s) (name : List Char) :
    Spells (glueAll (c :: cs)) (name ++ '/' :: s) := by
  obtain rfl := hc.recursive hrecursive
  obtain ⟨q, hq⟩ : ∃ q, glueAll ([.anyDirectories] :: cs) = .anyDirectories :: q := by
    by_cases hcs : cs = []
    · exact ⟨[], by rw [hcs]; rfl⟩
    · exact ⟨_, glueAll_directories hcs⟩
  rw [hq] at h ⊢
  cases h with
  | one htakes => cases htakes
  | directories taken hslash h =>
    rw [← List.cons_append, ← List.append_assoc]
    refine .directories _ (.inr (hslash.elim (fun hnone => .inr ?_) (.imp_right fun hlast => ?_))) h
    · simp [hnone]
    · rw [List.getLast?_append_of_ne_nil _ (by simp), List.getLast?_cons_of_ne_nil]
      · exact hlast
      · rintro rfl
        cases hlast

/-- Without whole directories, a pattern stands for a text wherever it ends. -/
theorem spells_append {q : Pattern} {s u : List Char} (hc : Spells c s)
    (hwhole : .anyDirectories ∉ c) (hq : Spells q u) : Spells (c ++ q) (s ++ u) := by
  induction hc with
  | nil => exact hq
  | one htakes h ih => exact .one htakes (ih (List.not_mem_of_not_mem_cons hwhole))
  | text taken h ih =>
    rw [List.append_assoc]
    exact .text taken (ih (List.not_mem_of_not_mem_cons hwhole))
  | directories => exact absurd List.mem_cons_self hwhole

/-- A name for a component, and what comes behind a slash. -/
theorem spells_cons (hc : Tidy c) {s u : List Char} (hs : Spells c s) (hcs : cs ≠ [])
    (hu : Spells (glueAll cs) u) : Spells (glueAll (c :: cs)) (s ++ '/' :: u) := by
  by_cases hrecursive : isRecursive c = true
  · refine spells_below hc hrecursive ?_ s
    obtain rfl := hc.recursive hrecursive
    rw [glueAll_directories hcs]
    exact .directories [] (.inl rfl) hu
  · have hwhole : .anyDirectories ∉ c := by simpa [isRecursive] using hrecursive
    have hlast : c.getLast? ≠ some .anyDirectories := fun h => hwhole (List.mem_of_getLast? h)
    obtain ⟨next, rest, rfl⟩ := List.exists_cons_of_ne_nil hcs
    change Spells (glue c (glueAll (next :: rest))) _
    rw [glue, if_neg hlast]
    exact spells_append hs hwhole (.one (beq_self_eq_true '/') hu)

/-- The names on the way to a path that is reached are what the components stand for. -/
theorem spells_of_reaches (hw : w.Sound) (hcs : ∀ c ∈ cs, Tidy c)
    (hnames : ∀ n ∈ names, FilePath.Plain n) (h : Reaches w cs (FilePath.ofNames names) path) :
    ∃ found, path = FilePath.ofNames (names ++ found) ∧ (∀ n ∈ found, FilePath.Plain n) ∧
      (cs = [] ↔ found = []) ∧ Spells (glueAll cs) (inner found) := by
  generalize hdir : FilePath.ofNames names = dir at h
  have hstep : ∀ {c : Component} {rest : List Component} {dir path : FilePath} {names : List String}
      {name : String}, FilePath.ofNames names = dir → (∀ n ∈ names, FilePath.Plain n) →
      FilePath.Plain name → Spells c name.toList → Tidy c →
      (∀ {names : List String}, (∀ n ∈ names, FilePath.Plain n) →
        FilePath.ofNames names = below dir name →
        ∃ found, path = FilePath.ofNames (names ++ found) ∧ (∀ n ∈ found, FilePath.Plain n) ∧
          (rest = [] ↔ found = []) ∧ Spells (glueAll rest) (inner found)) →
      ∃ found, path = FilePath.ofNames (names ++ found) ∧ (∀ n ∈ found, FilePath.Plain n) ∧
        (c :: rest = [] ↔ found = []) ∧ Spells (glueAll (c :: rest)) (inner found) := by
    rintro c rest _ path names name rfl hnames hname hspells hc ih
    obtain ⟨found, hpath, hfound, hends, hrest⟩ := ih
      (List.forall_mem_append.2 ⟨hnames, List.forall_mem_singleton.2 hname⟩)
      (below_ofNames hnames hname).symm
    rw [List.append_assoc] at hpath
    refine ⟨name :: found, hpath, List.forall_mem_cons.2 ⟨hname, hfound⟩, by simp, ?_⟩
    by_cases hempty : rest = []
    · obtain rfl := hends.1 hempty
      subst hempty
      simpa [inner, glueAll] using hspells
    · rw [inner_cons fun h => hempty (hends.2 h)]
      exact spells_cons hc hspells hempty hrest
  induction h generalizing names with
  | here => exact ⟨[], by rw [List.append_nil, hdir], nofun, by simp, .nil⟩
  | literal hname h ih =>
    obtain ⟨hc, hrest⟩ := List.forall_mem_cons.1 hcs
    refine hstep hdir hnames (hc.literal _ hname) ?_ hc fun hnames hdir => ih hrest hnames hdir
    rw [String.toList_ofList]
    exact (spells_literal hname _).2 rfl
  | named hname hmatch h ih =>
    obtain ⟨hc, hrest⟩ := List.forall_mem_cons.1 hcs
    exact hstep hdir hnames (hw.plain_of_mem_names hname)
      (Pattern.spells_of_compare (beq_iff_eq.1 hmatch)) hc fun hnames hdir => ih hrest hnames hdir
  | special hliteral hname h ih =>
    rw [(hcs _ List.mem_cons_self).special hliteral] at hname
    cases hname
  | skip hrecursive hmore h ih =>
    have hdropped : ∀ c ∈ dropRecursive _, Tidy c := fun c hc =>
      hcs c ((List.dropWhile_sublist _).subset hc)
    obtain ⟨found, hpath, hfound, hends, hspells⟩ := ih hdropped hnames hdir
    refine ⟨found, hpath, hfound, ⟨nofun, fun h => absurd (hends.2 h) hmore⟩, ?_⟩
    exact spells_of_dropRecursive hcs hmore hspells
  | @last c rest _ name _ hrecursive hend hname =>
    have hplain := hw.plain_of_mem_names hname
    obtain ⟨hc, hrest⟩ := List.forall_mem_cons.1 hcs
    refine ⟨[name], by rw [← hdir, below_ofNames hnames hplain],
      List.forall_mem_singleton.2 hplain, by simp, spells_deeper hc hrest hrecursive ?_⟩
    rw [hend, hc.recursive hrecursive]
    simpa [inner, glueAll] using Spells.directories name.toList (.inr (.inl rfl)) .nil
  | @deeper c rest _ _ name _ hrecursive hname h ih =>
    have hplain := hw.plain_of_mem_names hname
    obtain ⟨hc, hrest⟩ := List.forall_mem_cons.1 hcs
    have hdropped : ∀ c' ∈ c :: dropRecursive (c :: rest), Tidy c' :=
      List.forall_mem_cons.2 ⟨hc, fun c' hc' => hcs c' ((List.dropWhile_sublist _).subset hc')⟩
    obtain ⟨found, hpath, hfound, hends, hspells⟩ := ih hdropped
      (List.forall_mem_append.2 ⟨hnames, List.forall_mem_singleton.2 hplain⟩)
      (by rw [← hdir, below_ofNames hnames hplain])
    rw [List.append_assoc] at hpath
    refine ⟨name :: found, hpath, List.forall_mem_cons.2 ⟨hplain, hfound⟩, by simp, ?_⟩
    rw [inner_cons fun h => by simpa using hends.2 h]
    exact spells_below hc hrecursive (spells_deeper hc hrest hrecursive hspells) _

/-- Components without wildcards lead to their own names. -/
theorem reaches_lead {lead : List String} {ns : List String} (hns : ∀ n ∈ ns, FilePath.Plain n)
    (hlead : ∀ n ∈ lead, FilePath.Plain n) {literals : List Component}
    (hliterals : List.Forall₂ (fun (n : String) c => literal? c = some n.toList) lead literals)
    (h : Reaches w (literals ++ cs) (FilePath.ofNames ns) path) :
    Reaches w cs (FilePath.ofNames (ns ++ lead)) path := by
  induction hliterals generalizing ns with
  | nil => rwa [List.append_nil]
  | @cons n c lead literals hc hliterals ih =>
    obtain ⟨hn, hlead⟩ := List.forall_mem_cons.1 hlead
    have hon : Reaches w (literals ++ cs) (below (FilePath.ofNames ns) n) path := by
      cases h with
      | literal hname h =>
        cases hc.symm.trans hname
        rwa [String.ofList_toList] at h
      | named hname hmatch h =>
        have hsame := (spells_literal hc _).1 (Pattern.spells_of_compare (beq_iff_eq.1 hmatch))
        rwa [String.toList_inj.1 hsame] at h
      | special hliteral => cases hc.symm.trans hliteral
      | skip hrecursive => cases hrecursive.symm.trans (not_recursive_of_literal hc)
      | last hrecursive => cases hrecursive.symm.trans (not_recursive_of_literal hc)
      | deeper hrecursive => cases hrecursive.symm.trans (not_recursive_of_literal hc)
    rw [below_ofNames hns hn] at hon
    have := ih (List.forall_mem_append.2 ⟨hns, List.forall_mem_singleton.2 hn⟩) hlead hon
    rwa [List.append_assoc] at this

/-! ## Patterns in normal form -/

/-- The results of a step for each item. -/
theorem forall₂_of_mapM {α β ε : Type} {f : α → Except ε β} {items : List α} {bs : List β}
    (h : items.mapM f = .ok bs) : List.Forall₂ (fun a b => f a = .ok b) items bs := by
  induction items generalizing bs with
  | nil =>
    cases h
    exact .nil
  | cons a rest ih =>
    rw [List.mapM_cons] at h
    obtain ⟨b, hb, h⟩ := except_bind_ok h
    obtain ⟨bs', hbs, h⟩ := except_bind_ok h
    cases h
    exact .cons hb (ih hbs)

/-- No component with wildcards stands for a dot or two dots. -/
def NamesOnly (pattern : String) : Prop :=
  ∀ cs ∈ (parseComponents pattern).toOption, ∀ c ∈ cs, literal? c = none → specialNames c = []

instance (pattern : String) : Decidable (NamesOnly pattern) :=
  inferInstanceAs (Decidable (∀ cs ∈ (parseComponents pattern).toOption,
    ∀ c ∈ cs, literal? c = none → specialNames c = []))

/-- What a pattern in normal form leads to is reached from the root. -/
theorem reaches_of_expands (hpath : Expands w (FilePath.ofNames names).text path) :
    ∃ cs, parseComponents (FilePath.ofNames names).text = .ok cs ∧
      Reaches w cs (FilePath.ofNames []) path := by
  obtain ⟨cs, hcs, hreaches⟩ := hpath
  refine ⟨cs, hcs, ?_⟩
  rwa [FilePath.isAbsolute, FilePath.toList_ofNames] at hreaches

section Normal

variable (hplain : ∀ n ∈ names, FilePath.Plain n)
include hplain

theorem components_ofNames (hnames : names ≠ []) :
    components (FilePath.ofNames names).text = names.map String.toList := by
  have hsplit : Text.splitAt (· == '/') (inner names) = names.map String.toList := by
    rw [Text.splitAt_eq_splitOnP]
    refine List.splitOn_intercalate '/' (fun piece hpiece => ?_) (by simpa using hnames)
    obtain ⟨n, hn, rfl⟩ := List.mem_map.1 hpiece
    exact (hplain n hn).slash
  have hinner : (FilePath.ofNames names).text.toList = '/' :: inner names :=
    FilePath.toList_ofNames names
  obtain ⟨front, last, rfl⟩ := List.eq_nil_or_concat' names |>.resolve_left hnames
  have hlast : last.toList ≠ [] := (hplain last (by simp)).nonempty
  unfold components
  rw [if_pos (by rw [FilePath.isAbsolute, hinner]; rfl), hinner, List.drop_one, List.tail_cons]
  dsimp only
  rw [hsplit]
  split
  next rest hreverse =>
    rw [List.map_append, List.reverse_append] at hreverse
    exact absurd (List.cons.inj hreverse).1 hlast
  · rfl

/-- The components are read from the names. -/
theorem reads_components (hnames : names ≠ [])
    (hcs : parseComponents (FilePath.ofNames names).text = .ok cs) :
    List.Forall₂ (Reads none) (names.map String.toList) cs := by
  have hroot : (FilePath.ofNames names).text ≠ "/" := by
    intro hroot
    have htext := congrArg String.toList hroot
    rw [FilePath.toList_ofNames] at htext
    obtain ⟨front, last, rfl⟩ := List.eq_nil_or_concat' names |>.resolve_left hnames
    have hempty : inner (front ++ [last]) = [] := (List.cons.inj htext).2
    rw [inner_concat] at hempty
    exact (hplain last (by simp)).nonempty (List.append_eq_nil_iff.1 hempty).2
  obtain ⟨p, -, hcs⟩ := except_bind_ok hcs
  obtain ⟨parsed, hparsed, hcs⟩ := except_bind_ok hcs
  rw [if_neg (by simpa using hroot)] at hcs
  cases hcs
  rw [components_ofNames hplain hnames] at hparsed
  refine (forall₂_of_mapM hparsed).imp fun piece c hc => ?_
  rw [Pattern.parse, String.toList_ofList] at hc
  exact Pattern.reads_of_read hc

/-- The components of a pattern in normal form stand for names. -/
theorem tidy_components (honly : NamesOnly (FilePath.ofNames names).text) (hnames : names ≠ [])
    (hcs : parseComponents (FilePath.ofNames names).text = .ok cs) : ∀ c ∈ cs, Tidy c := by
  intro c hc
  obtain ⟨piece, hpiece, hread⟩ := exists_of_mem_forall₂ (reads_components hplain hnames hcs) hc
  obtain ⟨n, hn, rfl⟩ := List.mem_map.1 hpiece
  refine ⟨fun name hname => ?_, honly cs (by rw [hcs]; rfl) c hc, fun hrecursive => ?_⟩
  · rw [hread.eq_of_literal hname, String.ofList_toList]
    exact hplain n hn
  · exact (hread.eq_of_recursive (hplain n hn).slash (by simpa [isRecursive] using hrecursive)).1

/-- The files that a pattern in normal form leads to are matched by it. -/
theorem isMatch_of_expands (hw : w.Sound) (honly : NamesOnly (FilePath.ofNames names).text)
    (hnames : names ≠ []) (hpath : Expands w (FilePath.ofNames names).text path) {p : Pattern}
    (hp : Pattern.parse (FilePath.ofNames names).text = .ok p) :
    p.isMatch path.text = true ∧ path.IsNormal := by
  obtain ⟨cs, hcs, hreaches⟩ := reaches_of_expands hpath
  have htidy := tidy_components hplain honly hnames hcs
  have hnone : ∀ n ∈ ([] : List String), FilePath.Plain n := nofun
  obtain ⟨found, rfl, hfound, -, hspells⟩ := spells_of_reaches hw htidy hnone hreaches
  refine ⟨?_, found, hfound, rfl⟩
  rw [Pattern.parse, FilePath.toList_ofNames] at hp
  have hreads := Pattern.reads_of_read hp
  obtain ⟨q, hq, rfl⟩ := hreads.char_inv rfl
  have hwhole : q = glueAll cs := by
    refine Pattern.eq_glueAll (reads_components hplain hnames hcs) (fun piece hpiece => ?_) hq
    obtain ⟨n, hn, rfl⟩ := List.mem_map.1 hpiece
    exact (hplain n hn).slash
  rw [Pattern.isMatch_iff hreads.ordered.1, List.nil_append, FilePath.toList_ofNames, hwhole]
  exact .one (beq_self_eq_true '/') hspells

end Normal

/-- A path that is found lies below the names before the first wildcard. -/
theorem below_lead (hw : w.Sound) {lead more : List String} (hmore : more ≠ [])
    (hplain : ∀ n ∈ lead ++ more, FilePath.Plain n)
    (hlead : ∀ n ∈ lead, FilePath.hasWildcard n = false)
    (honly : NamesOnly (FilePath.ofNames (lead ++ more)).text)
    (hpath : Expands w (FilePath.ofNames (lead ++ more)).text path) :
    ∃ found, found ≠ [] ∧ (∀ n ∈ found, FilePath.Plain n) ∧
      path = FilePath.ofNames (lead ++ found) := by
  obtain ⟨cs, hcs, hreaches⟩ := reaches_of_expands hpath
  have hnames : lead ++ more ≠ [] := by simp [hmore]
  have htidy := tidy_components hplain honly hnames hcs
  have hreads := (reads_components hplain hnames hcs).flip
  rw [List.map_append] at hreads
  have hfront := List.forall₂_take_append _ _ _ hreads
  have hback := List.forall₂_drop_append _ _ _ hreads
  generalize (lead.map String.toList).length = size at hfront hback
  have hliterals : List.Forall₂ (fun (n : String) c => literal? c = some n.toList) lead
      (cs.take size) := by
    have hread := List.forall₂_map_left_iff.1 hfront.flip
    exact forall₂_of_mem hread fun n hn c hc => hc.literal_of_plain (hlead n hn)
  rw [← List.take_append_drop size cs] at hreaches
  have hnone : ∀ n ∈ ([] : List String), FilePath.Plain n := nofun
  obtain ⟨hplain, -⟩ := List.forall_mem_append.1 hplain
  obtain ⟨found, hpath, hfound, hends, -⟩ := spells_of_reaches hw
    (fun c hc => htidy c (List.mem_of_mem_drop hc)) hplain
    (reaches_lead hnone hplain hliterals hreaches)
  refine ⟨found, fun hempty => hmore ?_, hfound, hpath⟩
  rw [hends.2 hempty] at hback
  cases more with
  | nil => rfl
  | cons n rest => cases hback

end LayeredConfig.Glob
