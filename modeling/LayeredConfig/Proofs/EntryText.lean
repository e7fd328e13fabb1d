import LayeredConfig.Directive
import LayeredConfig.Proofs.Path.Respelling
import LayeredConfig.Proofs.Trimming

/-!
# The text of an entry of `_include`

An entry that names a package and is optional is its path between a head, which holds the package
in parentheses, and a tail, which holds the flags in brackets (`Framed`). Without slashes in the
name of the package neither head nor tail has any. So if two such entries are the same when they are
taken for paths, they name the same package, and the paths in it are spellings of one another
(`framed_respelled`).
-/

namespace LayeredConfig

/-! ## Pieces and characters -/

namespace Text

/-- What is left behind the characters that pass a test. -/
theorem takeWhile_append_drop (p : Char → Bool) (s : List Char) :
    s.takeWhile p ++ s.drop (s.takeWhile p).length = s := by
  obtain ⟨rest, hrest⟩ := List.takeWhile_prefix p (l := s)
  generalize s.takeWhile p = front at hrest ⊢
  rw [← hrest, List.drop_left]

/-- A slash is one in lower case too. -/
theorem slash_mem_lowered {s : String} (h : '/' ∈ s.toList) : '/' ∈ (lowered s).toList := by
  suffices hall : ∀ (before rest : List Char), '/' ∈ rest → '/' ∈ lowerFrom before rest by
    rw [lowered, String.toList_ofList]
    exact hall [] _ h
  intro before rest
  induction rest generalizing before with
  | nil => exact nofun
  | cons c rest ih =>
    intro hmem
    rw [lowerFrom, List.mem_append]
    rcases List.mem_cons.1 hmem with rfl | hmem
    · exact .inl (List.mem_singleton.2 rfl)
    · exact .inr (ih _ hmem)

/-- A text without a slash before another only makes the first piece longer. -/
theorem splitAt_append {a s piece : List Char} {pieces : List (List Char)} (ha : '/' ∉ a)
    (hs : splitAt (· == '/') s = piece :: pieces) :
    splitAt (· == '/') (a ++ s) = (a ++ piece) :: pieces := by
  induction a with
  | nil => exact hs
  | cons c rest ih =>
    rw [List.mem_cons, not_or] at ha
    rw [List.cons_append, splitAt, if_neg (by simpa using Ne.symm ha.1), ih ha.2]
    rfl

/-- A text without a slash behind another only makes the last piece longer. -/
theorem splitAt_append_right {a s piece : List Char} (pieces : List (List Char)) (ha : '/' ∉ a)
    (hs : splitAt (· == '/') s = pieces ++ [piece]) :
    splitAt (· == '/') (s ++ a) = pieces ++ [piece ++ a] := by
  induction s generalizing pieces piece with
  | nil =>
    have hfirst : pieces = [] ∧ piece = [] := by
      rw [splitAt] at hs
      cases pieces with
      | nil => exact ⟨rfl, (List.cons.inj hs).1.symm⟩
      | cons first rest => simp at hs
    obtain ⟨rfl, rfl⟩ := hfirst
    have hempty : splitAt (· == '/') [] = [[]] := rfl
    have hall := splitAt_append ha hempty
    rw [List.append_nil] at hall
    exact hall
  | cons c rest ih =>
    rw [splitAt] at hs
    rw [List.cons_append, splitAt]
    by_cases hc : (c == '/') = true
    · rw [if_pos hc] at hs ⊢
      cases pieces with
      | nil =>
        obtain ⟨-, hnil⟩ := List.cons.inj hs
        rw [splitAt_eq_splitOnP] at hnil
        exact absurd hnil (List.splitOnP_ne_nil _ _)
      | cons first others =>
        obtain ⟨rfl, hrest⟩ := List.cons.inj hs
        rw [ih _ hrest]
        rfl
    · rw [if_neg hc] at hs ⊢
      cases hrest : splitAt (· == '/') rest with
      | nil =>
        rw [splitAt_eq_splitOnP] at hrest
        exact absurd hrest (List.splitOnP_ne_nil _ _)
      | cons first others =>
        rw [hrest] at hs
        cases pieces with
        | nil =>
          have hsplit := List.cons.inj hs
          rw [← hsplit.1, ih [] (by rw [hrest, hsplit.2, List.nil_append])]
          rfl
        | cons first' others' =>
          have hsplit := List.cons.inj hs
          rw [← hsplit.1, ih (first :: others') (hrest.trans (congrArg _ hsplit.2))]
          rfl

end Text

open Text (Blank Tight)

namespace IncludeEntry

/-! ## Heads and tails -/

/-- White space, a name in parentheses, and white space. -/
structure Head (package s : List Char) : Prop where
  shape : ∃ a name b, s = a ++ '(' :: name ++ ')' :: b ∧ Blank a ∧ Blank b ∧
    Text.trimBoth name = package ∧ ')' ∉ name

/-- White space, flags in brackets, and white space. -/
structure Tail (s : List Char) : Prop where
  shape : ∃ a flags b, s = a ++ '[' :: flags ++ ']' :: b ∧ Blank a ∧ Blank b ∧ '[' ∉ flags
  slash : '/' ∉ s

/-- What follows the parentheses in a text that begins with a head. -/
def behindHead (s : List Char) : List Char :=
  (((s.dropWhile Text.isBlank).dropWhile (· != ')')).tail).dropWhile Text.isBlank

/-- What stands in the parentheses of a text that begins with a head. -/
def inHead (s : List Char) : List Char :=
  Text.trimBoth (((s.dropWhile Text.isBlank).tail).takeWhile (· != ')'))

/-- What precedes the brackets in a text that ends with a tail. -/
def beforeTail (s : List Char) : List Char :=
  (((s.reverse.dropWhile (· != '[')).tail).dropWhile Text.isBlank).reverse

theorem Head.dropWhile {package s : List Char} (h : Head package s) (rest : List Char) :
    ∃ name b, (s ++ rest).dropWhile Text.isBlank = '(' :: name ++ ')' :: (b ++ rest) ∧ Blank b ∧
      Text.trimBoth name = package ∧ ')' ∉ name := by
  obtain ⟨a, name, b, rfl, ha, hb, hname, hparen⟩ := h.shape
  refine ⟨name, b, ?_, hb, hname, hparen⟩
  have hshape : a ++ '(' :: name ++ ')' :: b ++ rest =
      a ++ ('(' :: name ++ ')' :: (b ++ rest)) := by
    simp
  rw [hshape]
  refine ha.dropWhile_append fun c hc => ?_
  obtain rfl : '(' = c := Option.some.inj hc
  rfl

theorem Head.inHead {package s : List Char} (h : Head package s) (rest : List Char) :
    inHead (s ++ rest) = package := by
  obtain ⟨name, b, hdrop, -, hname, hparen⟩ := h.dropWhile rest
  have hinside : ∀ c ∈ name, (c != ')') = true := fun c hc => by
    rw [bne_iff_ne]
    rintro rfl
    exact hparen hc
  rw [IncludeEntry.inHead, hdrop, List.cons_append, List.tail_cons,
    List.takeWhile_append_of_pos hinside, List.takeWhile_cons_of_neg (by simp), List.append_nil,
    hname]

theorem Head.behindHead {package s : List Char} (h : Head package s) {rest : List Char}
    (hrest : ∀ c ∈ rest.head?, Text.isBlank c = false) : behindHead (s ++ rest) = rest := by
  obtain ⟨name, b, hdrop, hb, -, hparen⟩ := h.dropWhile rest
  have hinside : ∀ c ∈ '(' :: name, (c != ')') = true := fun c hc => by
    rw [bne_iff_ne]
    rintro rfl
    rcases List.mem_cons.1 hc with hc | hc
    · cases hc
    · exact hparen hc
  rw [IncludeEntry.behindHead, hdrop, List.dropWhile_append_of_pos hinside,
    List.dropWhile_cons_of_neg (by simp), List.tail_cons]
  exact hb.dropWhile_append hrest

/-- If the name in parentheses has no slash, no part of the head has. -/
theorem Head.slash {package s : List Char} (h : Head package s) (hpackage : '/' ∉ package) :
    '/' ∉ s := by
  obtain ⟨a, name, b, rfl, ha, hb, rfl, -⟩ := h.shape
  have hname : '/' ∉ name := fun hmem => hpackage (Text.mem_trimBoth hmem rfl)
  simp [ha.notMem (c := '/') rfl, hb.notMem (c := '/') rfl, hname]

theorem Tail.beforeTail {s : List Char} (h : Tail s) {front : List Char}
    (hfront : ∀ c ∈ front.getLast?, Text.isBlank c = false) :
    beforeTail (front ++ s) = front := by
  obtain ⟨a, flags, b, rfl, ha, hb, hflags⟩ := h.shape
  have hbehind : ∀ c ∈ b.reverse ++ ']' :: flags.reverse, (c != '[') = true := fun c hc => by
    rw [bne_iff_ne]
    rintro rfl
    simp only [List.mem_append, List.mem_reverse, List.mem_cons] at hc
    rcases hc with hc | hc | hc
    · exact hb.notMem rfl hc
    · cases hc
    · exact hflags hc
  have hreverse : (front ++ (a ++ '[' :: flags ++ ']' :: b)).reverse =
      (b.reverse ++ ']' :: flags.reverse) ++ '[' :: (a.reverse ++ front.reverse) := by
    simp
  rw [IncludeEntry.beforeTail, hreverse, List.dropWhile_append_of_pos hbehind,
    List.dropWhile_cons_of_neg (by simp), List.tail_cons, ha.reverse.dropWhile_append,
    List.reverse_reverse]
  intro c hc
  rw [List.head?_reverse] at hc
  exact hfront c hc

/-- The text of an entry is its path between a head and a tail. -/
structure Framed (raw : String) (entry : IncludeEntry) (package : String) : Prop where
  shape : ∃ head tail, raw.toList = head ++ entry.path.toList ++ tail ∧
    Head package.toList head ∧ Tail tail
  path : entry.path.toList ≠ []
  tight : Tight entry.path.toList

/-! ## Reading -/

theorem cutFlags?_shape {s text words : List Char} (h : cutFlags? s = some (text, words)) :
    ∃ sep, s = text ++ sep ++ '[' :: words ++ [']'] ∧ Blank sep ∧ '[' ∉ words ∧ ']' ∉ words ∧
      ∀ c ∈ text.getLast?, Text.isBlank c = false := by
  unfold cutFlags? at h
  split at h
  next before hreverse =>
    dsimp only at h
    split at h
    next lead hlead =>
      split at h
      · cases h
      · cases h
        have hbefore := Text.takeWhile_append_drop (fun c => c != '[' && c != ']') before
        rw [hlead] at hbefore
        have hread : s = (lead.dropWhile Text.isBlank).reverse ++
            (lead.takeWhile Text.isBlank).reverse ++
            '[' :: (before.takeWhile fun c => c != '[' && c != ']').reverse ++ [']'] := by
          rw [← List.reverse_append, List.takeWhile_append_dropWhile, ← List.reverse_reverse s,
            hreverse]
          conv_lhs => rw [← hbefore]
          simp
        refine ⟨_, hread, (Text.blank_takeWhile lead).reverse, fun hmem => ?_, fun hmem => ?_,
          fun c hc => ?_⟩
        · have hpass := List.all_eq_true.1 List.all_takeWhile _ (List.mem_reverse.1 hmem)
          simp at hpass
        · have hpass := List.all_eq_true.1 List.all_takeWhile _ (List.mem_reverse.1 hmem)
          simp at hpass
        · rw [List.getLast?_reverse] at hc
          exact Text.head?_dropWhile lead c hc
    · cases h
  · cases h

theorem cutPackage?_shape {s name path : List Char} (h : cutPackage? s = some (name, path)) :
    s = '(' :: name ++ ')' :: path ∧ name ≠ [] ∧ '(' ∉ name ∧ ')' ∉ name ∧ path ≠ [] := by
  unfold cutPackage? at h
  split at h
  next rest =>
    dsimp only at h
    split at h
    next behind hbehind =>
      split at h
      · cases h
      next hnonempty =>
        cases h
        have hrest := Text.takeWhile_append_drop (fun c => c != '(' && c != ')') rest
        rw [hbehind] at hrest
        refine ⟨?_, ?_, fun hmem => ?_, fun hmem => ?_, ?_⟩
        · rw [List.cons_append, hrest]
        · intro hnil
          simp [hnil] at hnonempty
        · have hpass := List.all_eq_true.1 List.all_takeWhile _ hmem
          simp at hpass
        · have hpass := List.all_eq_true.1 List.all_takeWhile _ hmem
          simp at hpass
        · rintro rfl
          simp at hnonempty
    · cases h
  · cases h

/-- Flags that are known have no slash. -/
theorem slash_notMem_flags {raw : String} {words : List Char} {set : Bool × Bool}
    (h : flags raw (Text.splitAt (· == ',') words) = .ok set) : '/' ∉ words := by
  have hwords : ∀ (list : List (List Char)) {set : Bool × Bool}, flags raw list = .ok set →
      ∀ word ∈ list, '/' ∉ word := by
    intro list
    induction list with
    | nil => exact fun _ => nofun
    | cons first rest ih =>
      intro set hset
      have hslash (known : String) (hknown : '/' ∉ known.toList)
          (hfirst : Text.lowered (String.ofList (Text.trimBoth first)) = known) :
          '/' ∉ first := by
        intro hmem
        have hlowered := Text.slash_mem_lowered
          (s := String.ofList (Text.trimBoth first)) (by
            rw [String.toList_ofList]
            exact Text.mem_trimBoth hmem rfl)
        rw [hfirst] at hlowered
        exact hknown hlowered
      unfold flags at hset
      dsimp only at hset
      rw [List.forall_mem_cons]
      split at hset
      next hoptional =>
        refine ⟨hslash "optional" (by decide) (beq_iff_eq.1 hoptional), ?_⟩
        cases hrest : flags raw rest with
        | error fault =>
          rw [hrest] at hset
          cases hset
        | ok set => exact ih hrest
      · split at hset
        next hwarn =>
          refine ⟨hslash "warn" (by decide) (beq_iff_eq.1 hwarn), ?_⟩
          cases hrest : flags raw rest with
          | error fault =>
            rw [hrest] at hset
            cases hset
          | ok set => exact ih hrest
        · split at hset
          next hempty =>
            exact ⟨hslash "" (by decide) (String.isEmpty_iff.1 hempty), ih hset⟩
          · cases hset
  intro hmem
  rw [← Text.mem_flatten_splitAt (p := (· == ',')) (by decide), List.mem_flatten] at hmem
  obtain ⟨word, hword, hslash⟩ := hmem
  exact hwords _ h word hword hslash

/-- The entry of a text without its flags. -/
def ofText (raw : String) (text : List Char) (set : Bool × Bool) :
    Except Directive.Fault IncludeEntry :=
  let (package, path) := match cutPackage? text with
    | some (name, path) => (some (String.ofList (Text.trimBoth name)), Text.trimBoth path)
    | none => (none, text)
  if path.isEmpty then .error (.emptyPath raw)
  else .ok ⟨String.ofList path, package, set.1, set.2⟩

theorem parse_eq (raw : String) : parse raw =
    match cutFlags? (Text.trimBoth raw.toList) with
    | some (text, words) => flags raw (Text.splitAt (· == ',') words) >>= ofText raw text
    | none => ofText raw (Text.trimBoth raw.toList) (false, false) := by
  have htext (text : List Char) (set : Bool × Bool) : ofText raw text set = (do
      let (package, path) := match cutPackage? text with
        | some (name, path) => (some (String.ofList (Text.trimBoth name)), Text.trimBoth path)
        | none => (none, text)
      if path.isEmpty then throw (.emptyPath raw)
      return ⟨String.ofList path, package, set.1, set.2⟩) := by
    unfold ofText
    dsimp only
    split <;> rfl
  unfold parse
  dsimp only
  cases cutFlags? (Text.trimBoth raw.toList) with
  | none => exact (htext _ _).symm
  | some cut =>
    dsimp only
    cases flags raw (Text.splitAt (· == ',') cut.2) with
    | error fault => rfl
    | ok set => exact (htext cut.1 set).symm

theorem ofText_ok {raw : String} {text : List Char} {set : Bool × Bool} {entry : IncludeEntry}
    {package : String} (h : ofText raw text set = .ok entry)
    (hpackage : entry.package = some package) :
    entry.optional = set.1 ∧ entry.path ≠ "" ∧ ∃ name path, cutPackage? text = some (name, path) ∧
      package = String.ofList (Text.trimBoth name) ∧
      entry.path = String.ofList (Text.trimBoth path) := by
  unfold ofText at h
  cases hcut : cutPackage? text with
  | none =>
    rw [hcut] at h
    dsimp only at h
    split at h
    · cases h
    · cases h
      cases hpackage
  | some cut =>
    rw [hcut] at h
    dsimp only at h
    split at h
    · cases h
    next hnonempty =>
      cases h
      refine ⟨rfl, fun hempty => hnonempty ?_, cut.1, cut.2, rfl, ?_, rfl⟩
      · rw [List.isEmpty_iff]
        exact String.ofList_eq_empty_iff.1 hempty
      · exact (Option.some.inj hpackage).symm

/-- An optional entry of a package is read from the text that frames its path. -/
theorem framed_of_parse {raw : String} {entry : IncludeEntry} {package : String}
    (hparse : parse raw = .ok entry) (hpackage : entry.package = some package)
    (hoptional : entry.optional = true) : Framed raw entry package := by
  obtain ⟨before, after, hwhole, hbefore, hafter, -⟩ := Text.trimBoth_spec raw.toList
  rw [parse_eq] at hparse
  cases hflags : cutFlags? (Text.trimBoth raw.toList) with
  | none =>
    rw [hflags] at hparse
    have hnot := (ofText_ok hparse hpackage).1
    rw [hoptional] at hnot
    cases hnot
  | some cut =>
    obtain ⟨text, words⟩ := cut
    rw [hflags] at hparse
    dsimp only at hparse
    cases hset : flags raw (Text.splitAt (· == ',') words) with
    | error fault =>
      rw [hset] at hparse
      cases hparse
    | ok set =>
      rw [hset] at hparse
      obtain ⟨-, hpath, name, path, hcut, rfl, hentry⟩ := ofText_ok hparse hpackage
      obtain ⟨sep, htrimmed, hsep, hbracket, -, hlast⟩ := cutFlags?_shape hflags
      obtain ⟨rfl, -, -, hparen, hnonempty⟩ := cutPackage?_shape hcut
      obtain ⟨gap, rest, hread, hgap, hrest, htight⟩ := Text.trimBoth_spec path
      -- The text ends in no white space, so none is trimmed off the end of the path.
      have hend : rest = [] := by
        rcases List.eq_nil_or_concat rest with hnil | ⟨front, c, hconcat⟩
        · exact hnil
        · have hc : c ∈ rest := hconcat ▸ by simp
          have hshape : '(' :: name ++ ')' :: path =
              ('(' :: name ++ ')' :: (gap ++ Text.trimBoth path ++ front)) ++ [c] := by
            conv_lhs => rw [hread, hconcat]
            simp
          have hblank := hlast c (by rw [hshape, List.getLast?_concat]; rfl)
          rw [hrest c hc] at hblank
          cases hblank
      rw [hend, List.append_nil] at hread
      have hlist : entry.path.toList = Text.trimBoth path := by rw [hentry, String.toList_ofList]
      refine ⟨⟨before ++ '(' :: name ++ ')' :: gap, sep ++ '[' :: words ++ ']' :: after,
        ?_, ?_, ?_⟩,
        ?_, ?_⟩
      · rw [← hlist] at hread
        rw [hwhole, htrimmed, hread]
        simp
      · exact ⟨before, name, gap, rfl, hbefore, hgap, by rw [String.toList_ofList], hparen⟩
      · refine ⟨⟨sep, words, after, rfl, hsep, hafter, hbracket⟩, ?_⟩
        simp [hsep.notMem (c := '/') rfl, hafter.notMem (c := '/') rfl, slash_notMem_flags hset]
      · rw [ne_eq, String.toList_eq_nil_iff]
        exact hpath
      · rw [hlist]
        exact htight

/-! ## Entries taken for paths -/

/-- If the first piece of a path stands for something, it is a part like the others. -/
theorem parts_of_pieces {p : FilePath} {first : List Char} {rest : List (List Char)}
    (hpieces : p.pieces = first :: rest) (hbusy : FilePath.isIdle first = false) :
    p.parts = FilePath.part first :: FilePath.innerParts rest := by
  unfold FilePath.parts
  split
  next hnil => rw [hpieces] at hnil; cases hnil
  next hempty =>
    rw [hpieces] at hempty
    rw [(List.cons.inj hempty).1] at hbusy
    cases hbusy
  next hempty =>
    rw [hpieces] at hempty
    rw [(List.cons.inj hempty).1] at hbusy
    cases hbusy
  next hdot =>
    rw [hpieces] at hdot
    rw [(List.cons.inj hdot).1] at hbusy
    cases hbusy
  next hfirst =>
    rw [hpieces] at hfirst
    obtain ⟨rfl, rfl⟩ := List.cons.inj hfirst
    rfl

/-- A piece with a character other than a dot stands for something. -/
theorem busy_of_mem {piece : List Char} {c : Char} (hc : c ∈ piece) (hdot : c ≠ '.') :
    FilePath.isIdle piece = false := by
  rw [FilePath.isIdle, Bool.or_eq_false_iff, List.isEmpty_eq_false_iff, beq_eq_false_iff_ne]
  constructor
  · exact List.ne_nil_of_mem hc
  · rintro rfl
    exact hdot (List.mem_singleton.1 hc)

/-- The first piece of an entry with a package holds the parenthesis. -/
theorem Framed.first {raw : String} {entry : IncludeEntry} {package : String}
    (h : Framed raw entry package) : ∃ first rest, (FilePath.mk raw).pieces = first :: rest ∧
      (FilePath.mk raw).parts = FilePath.part first :: FilePath.innerParts rest := by
  obtain ⟨head, tail, hraw, ⟨a, name, b, rfl, ha, -, -, -⟩, -⟩ := h.shape
  have hslash : '/' ∉ a ++ ['('] := by simp [ha.notMem (c := '/') rfl]
  obtain ⟨piece, pieces, hrest⟩ := List.exists_cons_of_ne_nil
    (FilePath.pieces_ne_nil ⟨String.ofList (name ++ ')' :: b ++ entry.path.toList ++ tail)⟩)
  rw [FilePath.pieces, String.toList_ofList] at hrest
  have hsplit := Text.splitAt_append hslash hrest
  have hread : raw.toList =
      (a ++ ['(']) ++ (name ++ ')' :: b ++ entry.path.toList ++ tail) := by
    rw [hraw]
    simp
  rw [← hread] at hsplit
  exact ⟨_, _, hsplit, parts_of_pieces hsplit (busy_of_mem (c := '(') (by simp) (by decide))⟩

theorem suffix_intercalate (sep last : List Char) (front : List (List Char)) :
    last <:+ sep.intercalate (front ++ [last]) := by
  induction front with
  | nil => simp
  | cons x xs ih =>
    cases hxs : xs ++ [last] with
    | nil => simp at hxs
    | cons y ys =>
      rw [hxs] at ih
      rw [List.cons_append, hxs, List.intercalate_cons_cons]
      exact ih.trans (List.suffix_append _ _)

/-- The pieces of an entry are those of its path, the first behind the head and the last before the
tail. -/
theorem split_framed (path : List Char) {head tail : List Char} (hhead : '/' ∉ head)
    (htail : '/' ∉ tail) :
    (Text.splitAt (· == '/') path = [path] ∧
      Text.splitAt (· == '/') (head ++ path ++ tail) = [head ++ path ++ tail]) ∨
    ∃ first inner last, Text.splitAt (· == '/') path = first :: (inner ++ [last]) ∧
      Text.splitAt (· == '/') (head ++ path ++ tail) =
        (head ++ first) :: (inner ++ [last ++ tail]) ∧
      first <+: path ∧ last <:+ path := by
  have hpath : ['/'].intercalate (Text.splitAt (· == '/') path) = path := by
    rw [Text.splitAt_eq_splitOnP]
    exact List.intercalate_splitOn '/'
  have hnonempty : Text.splitAt (· == '/') path ≠ [] := by
    rw [Text.splitAt_eq_splitOnP]
    exact List.splitOnP_ne_nil _ _
  obtain ⟨first, others, hsplit⟩ := List.exists_cons_of_ne_nil hnonempty
  rw [List.append_assoc]
  rcases List.eq_nil_or_concat others with rfl | ⟨inner, last, rfl⟩
  · rw [hsplit, List.intercalate_singleton] at hpath
    subst hpath
    refine .inl ⟨hsplit, Text.splitAt_append hhead ?_⟩
    exact Text.splitAt_append_right [] htail hsplit
  · rw [List.concat_eq_append] at hsplit
    refine .inr ⟨first, inner, last, hsplit, Text.splitAt_append hhead ?_, ?_, ?_⟩
    · exact Text.splitAt_append_right (first :: inner) htail hsplit
    · rw [← hpath, hsplit]
      cases inner <;> simp
    · rw [← hpath, hsplit, ← List.cons_append]
      exact suffix_intercalate _ _ _

/-- The characters at the ends of a piece of a path that has no white space at its ends. -/
theorem head_of_front {first path : List Char} (h : Tight path) (hfirst : first <+: path) :
    ∀ c ∈ first.head?, Text.isBlank c = false := by
  intro c hc
  obtain ⟨rest, rfl⟩ := hfirst
  refine h.head c ?_
  rw [List.head?_append, Option.mem_def.1 hc]
  rfl

theorem last_of_suffix {last path : List Char} (h : Tight path) (hlast : last <:+ path) :
    ∀ c ∈ last.getLast?, Text.isBlank c = false := by
  intro c hc
  obtain ⟨front, rfl⟩ := hlast
  refine h.last c ?_
  rw [List.getLast?_append, Option.mem_def.1 hc]
  rfl

theorem respelled_of_pieces {p q : FilePath} {first last : List Char}
    {inner inner' : List (List Char)} (hp : p.pieces = first :: (inner ++ [last]))
    (hq : q.pieces = first :: (inner' ++ [last]))
    (hinner : FilePath.innerParts inner = FilePath.innerParts inner') : p.Respelled q where
  inner := by
    rw [hp, hq, ← List.singleton_append, ← List.singleton_append (l := inner' ++ [last])]
    simp only [FilePath.innerParts_append, hinner]
  last := by
    rw [hp, hq, ← List.cons_append, ← List.cons_append, List.getLast?_concat, List.getLast?_concat]
  absolute := by
    have hmore {p : FilePath} {inner : List (List Char)}
        (hp : p.pieces = first :: (inner ++ [last])) : p.isAbsolute = true ↔ first = [] := by
      rw [FilePath.isAbsolute_iff, hp]
      cases inner <;> simp
    rw [Bool.eq_iff_iff, hmore hp, hmore hq]

theorem Tail.busy {tail : List Char} (h : Tail tail) (last : List Char) :
    FilePath.isIdle (last ++ tail) = false := by
  obtain ⟨a, flags, b, rfl, -⟩ := h.shape
  exact busy_of_mem (c := '[') (by simp) (by decide)

theorem Tail.innerParts {tail : List Char} (h : Tail tail) (inner : List (List Char))
    (last : List Char) : FilePath.innerParts (inner ++ [last ++ tail]) =
      FilePath.innerParts inner ++ [FilePath.part (last ++ tail)] := by
  rw [FilePath.innerParts_append, FilePath.innerParts_cons (h.busy last)]
  rfl

/-- Two entries that are the same when they are taken for paths name the same package. -/
theorem Framed.package_eq {raw raw' : String} {entry entry' : IncludeEntry}
    {package package' : String} (h : Framed raw entry package) (h' : Framed raw' entry' package')
    (hpackage : '/' ∉ package.toList) (hsame : (FilePath.mk raw).same ⟨raw'⟩ = true) :
    package' = package := by
  obtain ⟨head, tail, hraw, hhead, htail⟩ := h.shape
  obtain ⟨head', tail', hraw', hhead', -⟩ := h'.shape
  obtain ⟨first, rest, hpieces, hparts⟩ := h.first
  obtain ⟨first', rest', hpieces', hparts'⟩ := h'.first
  rw [FilePath.same, beq_iff_eq, hparts, hparts'] at hsame
  obtain rfl : first = first' := FilePath.part_injective (List.cons.inj hsame).1
  -- Both begin with the head of the first.
  have hbegins : ∃ more, raw'.toList = head ++ more := by
    obtain ⟨more, hmore⟩ : first <+: raw'.toList := by
      have hjoined : ['/'].intercalate (FilePath.mk raw').pieces = raw'.toList := by
        rw [FilePath.pieces, Text.splitAt_eq_splitOnP]
        exact List.intercalate_splitOn '/'
      rw [← hjoined, hpieces']
      cases rest' <;> simp
    rw [← hmore]
    rw [FilePath.pieces, hraw] at hpieces
    rcases split_framed entry.path.toList (hhead.slash hpackage) htail.slash with
      ⟨-, hsplit⟩ | ⟨f, inner, last, -, hsplit, -⟩
    · rw [hsplit] at hpieces
      rw [← (List.cons.inj hpieces).1]
      exact ⟨_, by rw [List.append_assoc, List.append_assoc]⟩
    · rw [hsplit] at hpieces
      rw [← (List.cons.inj hpieces).1]
      exact ⟨_, List.append_assoc _ _ _⟩
  obtain ⟨more, hmore⟩ := hbegins
  have hname := hhead.inHead more
  rw [← hmore, hraw', List.append_assoc, hhead'.inHead] at hname
  exact String.toList_inj.1 hname

/-- Two entries that are the same when they are taken for paths have paths in their package that are
spellings of one another, or are written alike. -/
theorem Framed.respelled {raw raw' : String} {entry entry' : IncludeEntry}
    {package : String} (h : Framed raw entry package) (h' : Framed raw' entry' package)
    (hpackage : '/' ∉ package.toList) (hsame : (FilePath.mk raw).same ⟨raw'⟩ = true) :
    raw = raw' ∨ FilePath.Respelled ⟨entry.path⟩ ⟨entry'.path⟩ := by
  obtain ⟨head, tail, hraw, hhead, htail⟩ := h.shape
  obtain ⟨head', tail', hraw', hhead', htail'⟩ := h'.shape
  obtain ⟨first, rest, hpieces, hparts⟩ := h.first
  obtain ⟨first', rest', hpieces', hparts'⟩ := h'.first
  rw [FilePath.same, beq_iff_eq, hparts, hparts'] at hsame
  obtain ⟨hpart, hrest⟩ := List.cons.inj hsame
  obtain rfl : first = first' := FilePath.part_injective hpart
  rw [FilePath.pieces, hraw] at hpieces
  rw [FilePath.pieces, hraw'] at hpieces'
  rcases split_framed entry.path.toList (hhead.slash hpackage) htail.slash with
    ⟨-, hsplit⟩ | ⟨f, inner, last, hpath, hsplit, hprefix, hsuffix⟩
  · rw [hsplit] at hpieces
    obtain ⟨hfirst, rfl⟩ := List.cons.inj hpieces
    rcases split_framed entry'.path.toList (hhead'.slash hpackage) htail'.slash with
      ⟨-, hsplit'⟩ | ⟨f', inner', last', -, hsplit', -⟩
    · rw [hsplit'] at hpieces'
      refine .inl (String.toList_inj.1 ?_)
      rw [hraw, hfirst, hraw', (List.cons.inj hpieces').1]
    · rw [hsplit'] at hpieces'
      rw [← (List.cons.inj hpieces').2, htail'.innerParts] at hrest
      simp [FilePath.innerParts] at hrest
  · rw [hsplit] at hpieces
    obtain ⟨hfirst, rfl⟩ := List.cons.inj hpieces
    rcases split_framed entry'.path.toList (hhead'.slash hpackage) htail'.slash with
      ⟨-, hsplit'⟩ | ⟨f', inner', last', hpath', hsplit', hprefix', hsuffix'⟩
    · rw [hsplit'] at hpieces'
      rw [← (List.cons.inj hpieces').2, htail.innerParts] at hrest
      simp [FilePath.innerParts] at hrest
    · rw [hsplit'] at hpieces'
      obtain ⟨hfirst', rfl⟩ := List.cons.inj hpieces'
      rw [htail.innerParts, htail'.innerParts] at hrest
      obtain ⟨hinner, hlast⟩ := List.append_inj' hrest rfl
      have hend : last ++ tail = last' ++ tail' :=
        FilePath.part_injective (List.cons.inj hlast).1
      have hf : f = f' := by
        rw [← hhead.behindHead (head_of_front h.tight hprefix), hfirst, ← hfirst',
          hhead'.behindHead (head_of_front h'.tight hprefix')]
      have hl : last = last' := by
        rw [← htail.beforeTail (last_of_suffix h.tight hsuffix), hend,
          htail'.beforeTail (last_of_suffix h'.tight hsuffix')]
      subst hf hl
      exact .inr (respelled_of_pieces hpath hpath' hinner)

end IncludeEntry

end LayeredConfig
