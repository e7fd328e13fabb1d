import LayeredConfig.Proofs.EntryText

/-!
# Entries of `_include` are read as they are written

An entry is written as a path, with its package in parentheses before it (`Target.text`) and flags
in brackets behind it (`flagList`). The flags are the last group in brackets, for there are none
within it, and the package is a group in parentheses at the start; whatever other brackets and
parentheses the path has belong to it. So what is read is what was written (`reads_as_written`).

This holds of an entry without flags only if nothing at its end looks like flags, and flags may
begin before the path does: the brackets of the package `a[b` and of the path `c]` are taken for a
group (`brackets_are_taken_for_flags`).
-/

namespace LayeredConfig

open Text (Blank Tight)

/-! ## Trimming and splitting -/

namespace Text

/-- White space around a text that has none at its ends is trimmed off. -/
theorem Tight.trimBoth_append {s a b : List Char} (h : Tight s) (hs : s ≠ []) (ha : Blank a)
    (hb : Blank b) : trimBoth (a ++ s ++ b) = s := by
  have hstart : trimStart (a ++ s ++ b) = s ++ b := by
    rw [trimStart, List.append_assoc]
    refine ha.dropWhile_append fun c hc => h.head c ?_
    rwa [List.head?_append_of_ne_nil _ hs] at hc
  rw [trimBoth, hstart, trimEnd, List.reverse_append, hb.reverse.dropWhile_append,
    List.reverse_reverse]
  intro c hc
  rw [List.head?_reverse] at hc
  exact h.last c hc

/-- What is written of words with commas between them is a comma or in a word. -/
theorem mem_intercalate {words : List (List Char)} {c : Char} (h : c ∈ [','].intercalate words) :
    c = ',' ∨ ∃ word ∈ words, c ∈ word := by
  induction words with
  | nil => cases h
  | cons word rest ih =>
    cases rest with
    | nil =>
      rw [List.intercalate_singleton] at h
      exact .inr ⟨word, List.mem_singleton_self _, h⟩
    | cons next others =>
      rw [List.intercalate_cons_cons, List.append_assoc, List.mem_append, List.mem_append,
        List.mem_singleton] at h
      rcases h with h | h | h
      · exact .inr ⟨word, List.mem_cons_self, h⟩
      · exact .inl h
      · exact (ih h).imp_right fun ⟨word, hword, hc⟩ => ⟨word, List.mem_cons_of_mem _ hword, hc⟩

/-- Words without commas, written with commas between them, are the pieces of the text. -/
theorem splitAt_intercalate {words : List (List Char)} (hwords : words ≠ [])
    (hcomma : ∀ word ∈ words, ',' ∉ word) :
    splitAt (· == ',') ([','].intercalate words) = words := by
  rw [splitAt_eq_splitOnP]
  exact List.splitOn_intercalate _ hcomma hwords

end Text

namespace IncludeEntry

/-! ## What is written -/

/-- What an entry names: a path, and perhaps the package it belongs to. -/
structure Target where
  package : Option String
  path : String

namespace Target

/-- The path behind its package. -/
def text (t : Target) : List Char :=
  match t.package with
  | some name => '(' :: name.toList ++ ')' :: t.path.toList
  | none => t.path.toList

/-- A path that can be written as an entry, and a package that can stand in parentheses before it. A
path without a package does not begin as one that has a package. -/
structure Writable (t : Target) : Prop where
  nonempty : t.path ≠ ""
  line : '\n' ∉ t.path.toList
  tight : Tight t.path.toList
  package : ∀ name ∈ t.package,
    ¬ Blank name.toList ∧ '\n' ∉ name.toList ∧ '(' ∉ name.toList ∧ ')' ∉ name.toList
  plain : t.package = none → ∀ name path, t.path.toList = '(' :: name ++ ')' :: path →
    name = [] ∨ '(' ∈ name ∨ ')' ∈ name ∨ path = []

/-- The entry that names it, with its flags. -/
def entry (t : Target) (optional warn : Bool) : IncludeEntry :=
  ⟨t.path, t.package.map Text.trimmed, optional, warn⟩

end Target

/-- Flags in brackets, with commas between them. -/
def flagList (words : List (List Char)) : List Char := '[' :: [','].intercalate words ++ [']']

/-- The flag that a word stands for. -/
def flagOf (word : List Char) : String := Text.lowered (String.ofList (Text.trimBoth word))

/-- The flags that an entry can have; no flag is one of them. -/
def knownFlags : List String := ["", "optional", "warn"]

/-- The text ends with a group in brackets. -/
def EndsInGroup (s : List Char) : Prop :=
  ∃ front inside, s = front ++ '[' :: inside ++ [']'] ∧ '[' ∉ inside ∧ ']' ∉ inside

/-! ## The group of flags -/

/-- The flags are cut off from what stands before them, and white space between is dropped. -/
theorem cutFlags?_group {text between inside : List Char} (htext : '\n' ∉ text)
    (hlast : ∀ c ∈ text.getLast?, Text.isBlank c = false) (hbetween : Blank between)
    (hopen : '[' ∉ inside) (hclose : ']' ∉ inside) :
    cutFlags? (text ++ between ++ '[' :: inside ++ [']']) = some (text, inside) := by
  have hreverse : (text ++ between ++ '[' :: inside ++ [']']).reverse =
      ']' :: (inside.reverse ++ '[' :: (between.reverse ++ text.reverse)) := by
    simp
  have hinside : ∀ c ∈ inside.reverse, (c != '[' && c != ']') = true := fun c hc => by
    rw [List.mem_reverse] at hc
    rw [Bool.and_eq_true, bne_iff_ne, bne_iff_ne]
    exact ⟨fun h => hopen (h ▸ hc), fun h => hclose (h ▸ hc)⟩
  have hlead : (between.reverse ++ text.reverse).dropWhile Text.isBlank = text.reverse :=
    hbetween.reverse.dropWhile_append fun c hc => hlast c (by rwa [List.head?_reverse] at hc)
  have hcontent : (inside.reverse ++ '[' :: (between.reverse ++ text.reverse)).takeWhile
      (fun c => c != '[' && c != ']') = inside.reverse := by
    rw [List.takeWhile_append_of_pos hinside, List.takeWhile_cons_of_neg (by simp), List.append_nil]
  simp only [cutFlags?, hreverse, hcontent, List.drop_left, hlead, List.reverse_reverse]
  rw [if_neg (by simpa using htext)]

/-- Nothing is cut off from a text that does not end with a group in brackets. -/
theorem cutFlags?_eq_none {s : List Char} (h : ¬ EndsInGroup s) : cutFlags? s = none := by
  rw [Option.eq_none_iff_forall_ne_some]
  rintro ⟨text, words⟩ hcut
  obtain ⟨sep, hshape, -, hopen, hclose, -⟩ := cutFlags?_shape hcut
  exact h ⟨text ++ sep, words, hshape, hopen, hclose⟩

/-- The pieces of what stands in the brackets are the words, or no word at all. -/
theorem flags_intercalate {raw : String} {words : List (List Char)}
    (hcomma : ∀ word ∈ words, ',' ∉ word) :
    flags raw (Text.splitAt (· == ',') ([','].intercalate words)) = flags raw words := by
  by_cases hwords : words = []
  · subst hwords
    rfl
  · rw [Text.splitAt_intercalate hwords hcomma]

/-- The flag of a word adds to those of the words behind it, if it is known. -/
theorem flags_cons (raw : String) (word : List Char) (rest : List (List Char)) :
    flags raw (word :: rest) =
      if flagOf word ∈ knownFlags then
        (flags raw rest).map fun set =>
          ((flagOf word == "optional" || flagOf word == "warn") || set.1,
            flagOf word == "warn" || set.2)
      else .error (.unknownFlag (flagOf word) raw) := by
  have hflag : Text.lowered (String.ofList (Text.trimBoth word)) = flagOf word := rfl
  simp only [flags, hflag]
  generalize flagOf word = flag
  by_cases hoptional : flag = "optional"
  · subst hoptional
    cases flags raw rest <;> rfl
  by_cases hwarn : flag = "warn"
  · subst hwarn
    cases flags raw rest <;> rfl
  rw [if_neg (by simpa using hoptional), if_neg (by simpa using hwarn)]
  by_cases hempty : flag = ""
  · subst hempty
    cases flags raw rest <;> rfl
  rw [if_neg (by simpa using hempty), if_neg (by simp [knownFlags, hoptional, hwarn, hempty])]

/-- Flags can be read exactly when all are known, and then say which of them are there. -/
theorem flags_eq_ok_iff {raw : String} {words : List (List Char)} {set : Bool × Bool} :
    flags raw words = .ok set ↔ (∀ word ∈ words, flagOf word ∈ knownFlags) ∧
      set = (words.any fun word => flagOf word == "optional" || flagOf word == "warn",
        words.any fun word => flagOf word == "warn") := by
  induction words generalizing set with
  | nil => simp [flags, eq_comm]
  | cons word rest ih =>
    rw [flags_cons, List.forall_mem_cons, List.any_cons, List.any_cons]
    by_cases hword : flagOf word ∈ knownFlags
    · rw [if_pos hword]
      cases hrest : flags raw rest with
      | error fault =>
        refine ⟨nofun, fun h => ?_⟩
        cases hrest.symm.trans (ih.2 ⟨h.1.2, rfl⟩)
      | ok set' =>
        obtain ⟨hknown, rfl⟩ := ih.1 hrest
        exact ⟨fun h => by cases h; exact ⟨⟨hword, hknown⟩, rfl⟩, fun h => h.2 ▸ rfl⟩
    · rw [if_neg hword]
      exact ⟨nofun, fun h => absurd h.1.1 hword⟩

/-! ## The package -/

/-- The package is cut off from the path behind it. -/
theorem cutPackage?_group {name path : List Char} (hname : name ≠ []) (hopen : '(' ∉ name)
    (hclose : ')' ∉ name) (hpath : path ≠ []) (hline : '\n' ∉ path) :
    cutPackage? ('(' :: name ++ ')' :: path) = some (name, path) := by
  have hinside : ∀ c ∈ name, (c != '(' && c != ')') = true := fun c hc => by
    rw [Bool.and_eq_true, bne_iff_ne, bne_iff_ne]
    exact ⟨fun h => hopen (h ▸ hc), fun h => hclose (h ▸ hc)⟩
  have hcontent : (name ++ ')' :: path).takeWhile (fun c => c != '(' && c != ')') = name := by
    rw [List.takeWhile_append_of_pos hinside, List.takeWhile_cons_of_neg (by simp), List.append_nil]
  simp only [cutPackage?, List.cons_append, hcontent, List.drop_left]
  rw [if_neg (by simp [hname, hpath, hline])]

/-- What is read of the text that names something, with flags that have been read. -/
theorem ofText_target {t : Target} (h : t.Writable) (raw : String) (set : Bool × Bool) :
    ofText raw t.text set = .ok (t.entry set.1 set.2) := by
  have hpath : t.path.toList ≠ [] := by simpa using h.nonempty
  obtain ⟨package, path⟩ := t
  cases package with
  | some name =>
    obtain ⟨hblank, -, hopen, hclose⟩ := h.package name rfl
    have hname : name.toList ≠ [] := by
      intro hnil
      rw [hnil] at hblank
      exact hblank nofun
    have hcut : cutPackage? (Target.text ⟨some name, path⟩) = some (name.toList, path.toList) :=
      cutPackage?_group hname hopen hclose hpath h.line
    rw [ofText, hcut]
    dsimp only
    rw [h.tight.trimBoth_eq, if_neg (by simpa using hpath), String.ofList_toList]
    rfl
  | none =>
    have hcut : cutPackage? (Target.text ⟨none, path⟩) = none := by
      rw [Option.eq_none_iff_forall_ne_some]
      rintro ⟨name, rest⟩ hcut
      obtain ⟨hshape, hname, hopen, hclose, hrest⟩ := cutPackage?_shape hcut
      rcases h.plain rfl name rest hshape with hnil | hmem | hmem | hnil
      · exact hname hnil
      · exact hopen hmem
      · exact hclose hmem
      · exact hrest hnil
    rw [ofText, hcut]
    dsimp only [Target.text]
    rw [if_neg (by simpa using hpath), String.ofList_toList]
    rfl

/-! ## Whole entries -/

namespace Target

variable {t : Target}

theorem Writable.path_ne_nil (h : t.Writable) : t.path.toList ≠ [] := by simpa using h.nonempty

theorem Writable.line_text (h : t.Writable) : '\n' ∉ t.text := by
  have hpath := h.line
  rw [text]
  split
  next name hname =>
    obtain ⟨-, hline, -, -⟩ := h.package name hname
    simp [hline, hpath]
  · exact hpath

theorem Writable.tight_text (h : t.Writable) : Tight t.text := by
  rw [text]
  split
  next name _ =>
    constructor
    · rintro _ ⟨⟩
      rfl
    · intro c hc
      refine h.tight.last c ?_
      have hshape : '(' :: name.toList ++ ')' :: t.path.toList =
          ('(' :: name.toList ++ [')']) ++ t.path.toList := by simp
      rwa [hshape, List.getLast?_append_of_ne_nil _ h.path_ne_nil] at hc
  · exact h.tight

theorem Writable.text_ne_nil (h : t.Writable) : t.text ≠ [] := by
  rw [text]
  split
  · exact List.cons_ne_nil _ _
  · exact h.path_ne_nil

end Target

section Entries

variable {t : Target} {before between after : List Char} {words : List (List Char)}

/-- An entry with flags is what it names, with its flags if they can be read. -/
theorem parse_flagged (h : t.Writable) (hbefore : Blank before) (hbetween : Blank between)
    (hafter : Blank after) (hwords : ∀ word ∈ words, ',' ∉ word ∧ '[' ∉ word ∧ ']' ∉ word)
    {raw : String} (hraw : raw.toList = before ++ t.text ++ between ++ flagList words ++ after) :
    parse raw = (flags raw words).map fun set => t.entry set.1 set.2 := by
  -- The brackets keep the text from ending with white space.
  have htight : Tight (t.text ++ between ++ flagList words) := by
    constructor
    · intro c hc
      rw [List.append_assoc, List.head?_append_of_ne_nil _ h.text_ne_nil] at hc
      exact h.tight_text.head c hc
    · intro c hc
      rw [flagList, ← List.append_assoc, List.getLast?_concat] at hc
      cases hc
      rfl
  have hnonempty : t.text ++ between ++ flagList words ≠ [] := by simp [h.text_ne_nil]
  have htrimmed : Text.trimBoth raw.toList = t.text ++ between ++ flagList words := by
    rw [hraw, ← htight.trimBoth_append hnonempty hbefore hafter]
    simp only [List.append_assoc]
  have houtside {c : Char} (hc : c ≠ ',') (hnone : ∀ word ∈ words, c ∉ word) :
      c ∉ [','].intercalate words := fun hmem =>
    (Text.mem_intercalate hmem).elim hc fun ⟨word, hword, hin⟩ => hnone word hword hin
  have hcut : cutFlags? (t.text ++ between ++ flagList words) =
      some (t.text, [','].intercalate words) := by
    have hgroup := cutFlags?_group h.line_text h.tight_text.last hbetween
      (houtside (c := '[') (by decide) fun word hword => (hwords word hword).2.1)
      (houtside (c := ']') (by decide) fun word hword => (hwords word hword).2.2)
    rw [← hgroup, flagList]
    simp only [List.append_assoc, List.cons_append]
  rw [parse_eq, htrimmed, hcut]
  dsimp only
  rw [flags_intercalate fun word hword => (hwords word hword).1]
  cases flags raw words with
  | error fault => rfl
  | ok set => exact ofText_target h raw set

/-- An entry without flags is what it names. -/
theorem parse_unflagged (h : t.Writable) (hbefore : Blank before) (hafter : Blank after)
    (hend : ¬ EndsInGroup t.text) {raw : String} (hraw : raw.toList = before ++ t.text ++ after) :
    parse raw = .ok (t.entry false false) := by
  have htrimmed : Text.trimBoth raw.toList = t.text := by
    rw [hraw, h.tight_text.trimBoth_append h.text_ne_nil hbefore hafter]
  rw [parse_eq, htrimmed, cutFlags?_eq_none hend]
  exact ofText_target h raw (false, false)

/-- An entry is read as it is written. With flags it can be read exactly when they are known, and
then has those that are there, where a warning makes it optional as well. Without flags it can be
read, and has none, unless it ends with a group in brackets all the same. -/
theorem reads_as_written (h : t.Writable) (before after : List Char) (hbefore : Blank before)
    (hafter : Blank after) :
    (∀ between words raw, Blank between → (∀ word ∈ words, ',' ∉ word ∧ '[' ∉ word ∧ ']' ∉ word) →
      raw.toList = before ++ t.text ++ between ++ flagList words ++ after →
      ((∃ entry, parse raw = .ok entry) ↔ ∀ word ∈ words, flagOf word ∈ knownFlags) ∧
      ∀ entry, parse raw = .ok entry → entry.path = t.path ∧
        entry.package = t.package.map Text.trimmed ∧
        (entry.warn = true ↔ ∃ word ∈ words, flagOf word = "warn") ∧
        (entry.optional = true ↔
          ∃ word ∈ words, flagOf word = "optional" ∨ flagOf word = "warn")) ∧
    (¬ EndsInGroup t.text → ∀ raw, raw.toList = before ++ t.text ++ after →
      parse raw = .ok ⟨t.path, t.package.map Text.trimmed, false, false⟩) := by
  refine ⟨fun between words raw hbetween hwords hraw => ?_, fun hend raw hraw =>
    parse_unflagged h hbefore hafter hend hraw⟩
  rw [parse_flagged h hbefore hbetween hafter hwords hraw]
  cases hset : flags raw words with
  | error fault =>
    refine ⟨⟨nofun, fun hknown => ?_⟩, nofun⟩
    cases hset.symm.trans (flags_eq_ok_iff.2 ⟨hknown, rfl⟩)
  | ok set =>
    obtain ⟨hknown, rfl⟩ := flags_eq_ok_iff.1 hset
    refine ⟨⟨fun _ => hknown, fun _ => ⟨_, rfl⟩⟩, fun entry hentry => ?_⟩
    cases hentry
    exact ⟨rfl, rfl, by simp [Target.entry], by simp [Target.entry]⟩

/-- A path with brackets and parentheses of its own, in a package whose name has brackets. -/
def bracketed : Target := ⟨some " a[0] ", "d (1)/[x]y"⟩

theorem bracketed_reads :
    parse "\t( a[0] )d (1)/[x]y [ Optional,,WARN ]\n" =
        .ok ⟨"d (1)/[x]y", some "a[0]", true, true⟩ ∧
      parse "( a[0] )d (1)/[x]y " = .ok ⟨"d (1)/[x]y", some "a[0]", false, false⟩ := by
  have htight : Tight bracketed.path.toList := ⟨by rintro c ⟨⟩; decide, by rintro c ⟨⟩; decide⟩
  have hwritable : bracketed.Writable := ⟨by decide, by decide, htight, by decide, nofun⟩
  have hend : ¬ EndsInGroup bracketed.text := by
    rintro ⟨front, inside, hshape, -⟩
    have hlast := congrArg List.getLast? hshape
    rw [List.getLast?_concat] at hlast
    exact absurd hlast (by decide)
  have hpackage : bracketed.package.map Text.trimmed = some "a[0]" := by decide
  constructor
  · obtain ⟨hknown, hread⟩ := (reads_as_written hwritable ['\t'] ['\n'] (by decide)
      (by decide)).1 [' '] [" Optional".toList, [], "WARN ".toList]
      "\t( a[0] )d (1)/[x]y [ Optional,,WARN ]\n" (by decide) (by decide) (by decide)
    obtain ⟨⟨path, package, optional, warn⟩, hentry⟩ := hknown.2 (by decide)
    obtain ⟨rfl, rfl, hwarn, hoptional⟩ := hread _ hentry
    obtain rfl : warn = true := hwarn.2 ⟨"WARN ".toList, by decide, by decide⟩
    obtain rfl : optional = true := hoptional.2 ⟨"WARN ".toList, by decide, by decide⟩
    rw [hentry, hpackage]
    rfl
  · rw [(reads_as_written hwritable [] [' '] (by decide) (by decide)).2 hend
      "( a[0] )d (1)/[x]y " (by decide), hpackage]
    rfl

/-- Brackets that begin in the package and end in the path are taken for flags, though the path does
not end with a group. -/
theorem brackets_are_taken_for_flags :
    Target.Writable ⟨some "a[b", "c]"⟩ ∧ ¬ EndsInGroup "c]".toList ∧
      parse "(a[b)c]" = .error (.unknownFlag "b)c" "(a[b)c]") := by
  have htight : Tight "c]".toList := ⟨by rintro c ⟨⟩; decide, by rintro c ⟨⟩; decide⟩
  refine ⟨⟨by decide, by decide, htight, by decide, nofun⟩, ?_, by decide⟩
  rintro ⟨front, inside, hshape, -⟩
  have hopen : '[' ∈ "c]".toList := by rw [hshape]; simp
  exact absurd hopen (by decide)

end Entries

end IncludeEntry

end LayeredConfig
