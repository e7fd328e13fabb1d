import Mathlib.Data.List.Chain
import LayeredConfig.Glob.Pattern

/-!
# What a pattern stands for

`Spells p s` says of a pattern and a text that the text can be cut into what the tokens of the
pattern stand for. Matching decides it (`isMatch_iff`) for every pattern that is read from a text.

Matching tries the rest of a pattern behind ever more of the text and stops early once the text is
too short. That no match is missed by this is the second half of `Decides`, by induction on the
pattern. It needs that whole directories begin at a slash, so that what is left of a text after a
later start is tried after an earlier one too (`Ordered`).
-/

namespace LayeredConfig.Glob.Pattern

variable {p rest : Pattern} {s u : List Char} {everywhere start : Bool}

/-- The text is made of what the tokens stand for. Whole directories end with a slash or with the
text. -/
inductive Spells : Pattern → List Char → Prop
  | nil : Spells [] []
  | one {token : Token} {c : Char} {p : Pattern} {s : List Char}
      (htakes : Token.takes c token = true) (h : Spells p s) : Spells (token :: p) (c :: s)
  | text {p : Pattern} {s : List Char} (taken : List Char) (h : Spells p s) :
      Spells (.anyText :: p) (taken ++ s)
  | directories {p : Pattern} {s : List Char} (taken : List Char)
      (hslash : taken = [] ∨ s = [] ∨ taken.getLast? = some '/') (h : Spells p s) :
      Spells (.anyDirectories :: p) (taken ++ s)

/-- Whole directories stand at the beginning, after a slash or after others. -/
def Ordered (p : Pattern) : Prop :=
  p.IsChain fun a b => b = .anyDirectories → a = .char '/' ∨ a = .anyDirectories

/-! ## Where the rest of a pattern is tried -/

/-- The rest of a pattern is tried on what is left of the text. -/
def Tried (everywhere start : Bool) (s u : List Char) : Prop :=
  ∃ taken, s = taken ++ u ∧ (u = [] ∨ (taken = [] ∧ start = true) ∨
    (taken ≠ [] ∧ (everywhere = true ∨ taken.getLast? = some '/')))

theorem Tried.cons {c : Char} {u cs : List Char} (h : Tried everywhere start (c :: cs) u) :
    (u = c :: cs ∧ start = true) ∨ Tried everywhere (everywhere || c == '/') cs u := by
  obtain ⟨taken, hs, h⟩ := h
  cases taken with
  | nil =>
    obtain rfl : c :: cs = u := hs
    rcases h with h | ⟨-, h⟩ | ⟨h, -⟩
    · cases h
    · exact .inl ⟨rfl, h⟩
    · exact absurd rfl h
  | cons d more =>
    obtain ⟨rfl, rfl⟩ := List.cons.inj hs
    refine .inr ⟨more, rfl, ?_⟩
    rcases h with h | ⟨h, -⟩ | ⟨-, h⟩
    · exact .inl h
    · cases h
    · cases more with
      | nil =>
        refine .inr (.inl ⟨rfl, ?_⟩)
        simpa using h
      | cons d more => exact .inr (.inr ⟨by simp, by simpa using h⟩)

/-- The outcome is that of the first try that does not differ, and of the last if all do. -/
theorem seek_spec (rest : List Char → Outcome) (everywhere start : Bool) (s : List Char) :
    ∃ u, Tried everywhere start s u ∧ rest u = seek everywhere rest start s ∧
      (rest u = .differs → u = []) ∧
      ∀ v, Tried everywhere start s v → u.length < v.length → rest v = .differs := by
  induction s generalizing start with
  | nil =>
    refine ⟨[], ⟨[], rfl, .inl rfl⟩, rfl, fun _ => rfl, ?_⟩
    rintro v ⟨taken, hs, -⟩ hlength
    simp [(List.append_eq_nil_iff.1 hs.symm).2] at hlength
  | cons c cs ih =>
    obtain ⟨u, ⟨taken, hs, htried⟩, hrest, hlast, hbefore⟩ := ih (everywhere || c == '/')
    have hlater : Tried everywhere start (c :: cs) u := by
      refine ⟨c :: taken, congrArg (c :: ·) hs, htried.imp_right fun h => .inr ⟨by simp, ?_⟩⟩
      rcases h with ⟨rfl, h⟩ | ⟨hne, h⟩
      · simpa using h
      · simpa [List.getLast?_cons_of_ne_nil hne] using h
    have hall : start = false ∨ rest (c :: cs) = .differs →
        seek everywhere rest start (c :: cs) = seek everywhere rest (everywhere || c == '/') cs ∧
        ∀ v, Tried everywhere start (c :: cs) v → u.length < v.length → rest v = .differs := by
      intro hfirst
      have hskip : (if start = true then rest (c :: cs) else .differs) = .differs := by
        rcases hfirst with h | h
        · simp [h]
        · simp [h]
      refine ⟨by rw [seek, hskip], fun v hv hlength => ?_⟩
      rcases hv.cons with ⟨rfl, hstart⟩ | hv
      · exact hfirst.resolve_left (by simp [hstart])
      · exact hbefore v hv hlength
    by_cases hfirst : start = false ∨ rest (c :: cs) = .differs
    · obtain ⟨hseek, hdiffer⟩ := hall hfirst
      exact ⟨u, hlater, hrest.trans hseek.symm, hlast, hdiffer⟩
    · obtain ⟨hstart, hne⟩ := not_or.1 hfirst
      rw [Bool.not_eq_false] at hstart
      refine ⟨c :: cs, ⟨[], rfl, .inr (.inl ⟨rfl, hstart⟩)⟩, ?_, fun h => absurd h hne, ?_⟩
      · rw [seek, if_pos hstart]
        cases houtcome : rest (c :: cs) with
        | differs => exact absurd houtcome hne
        | agrees => rfl
        | tooShort => rfl
      · rintro v ⟨taken, hs, -⟩ hlength
        have := congrArg List.length hs
        simp at this hlength
        omega

/-- What is tried on a text is tried on a part of the text that it is left of. -/
theorem Tried.of_append {before v : List Char} {everywhere' : Bool}
    (h : Tried everywhere true (before ++ v) u) (hlength : u.length ≤ v.length)
    (heverywhere : everywhere = true → everywhere' = true) : Tried everywhere' true v u := by
  obtain ⟨taken, hs, h⟩ := h
  obtain ⟨more, rfl, rfl⟩ | ⟨more, rfl, rfl⟩ := List.append_eq_append_iff.1 hs
  · refine ⟨more, rfl, ?_⟩
    by_cases hmore : more = []
    · exact .inr (.inl ⟨hmore, rfl⟩)
    · rcases h with h | ⟨h, -⟩ | ⟨-, h⟩
      · exact .inl h
      · exact absurd (List.append_eq_nil_iff.1 h).2 hmore
      · rw [List.getLast?_append_of_ne_nil _ hmore] at h
        exact .inr (.inr ⟨hmore, h.imp_left heverywhere⟩)
  · obtain rfl : more = [] := by
      rw [List.length_append] at hlength
      exact List.eq_nil_of_length_eq_zero (by omega)
    exact ⟨[], rfl, .inr (.inl ⟨rfl, rfl⟩)⟩

/-! ## Matching -/

/-- A token that stands for a single character is compared with the first one. -/
theorem compare_one {token : Token} (htext : token ≠ .anyText)
    (hdirectories : token ≠ .anyDirectories) (s : List Char) :
    compare (token :: rest) s = match s with
      | [] => .tooShort
      | c :: cs => if Token.takes c token then compare rest cs else .differs := by
  cases token with
  | anyText => exact absurd rfl htext
  | anyDirectories => exact absurd rfl hdirectories
  | char _ | anyChar | within _ | except _ => rfl

/-- Matching finds that the pattern stands for a text, and ends early only if it stands for nothing
that is left of it. -/
structure Decides (p : Pattern) : Prop where
  agrees : ∀ s, Spells p s → compare p s = .agrees
  tooShort : ∀ s u, compare p s = .tooShort →
    Tried (p.head? != some .anyDirectories) true s u → ¬ Spells p u

/-- If the rest of a pattern is decided, it is found where it is tried. -/
theorem Decides.seek_agrees (h : Decides rest)
    (hrest : everywhere = true → (rest.head? != some .anyDirectories) = true)
    (htried : Tried everywhere true s u) (hspells : Spells rest u) :
    seek everywhere (compare rest) true s = .agrees := by
  obtain ⟨v, ⟨before, rfl, -⟩, hseek, hlast, hdiffer⟩ :=
    seek_spec (compare rest) everywhere true s
  have hagrees := h.agrees u hspells
  have hlength : u.length ≤ v.length := by
    by_contra hlonger
    rw [hdiffer u htried (not_le.1 hlonger)] at hagrees
    cases hagrees
  rw [← hseek]
  cases houtcome : compare rest v with
  | agrees => rfl
  | differs =>
    obtain rfl := hlast houtcome
    obtain rfl : u = [] := List.eq_nil_of_length_eq_zero (Nat.le_zero.1 hlength)
    rw [houtcome] at hagrees
    cases hagrees
  | tooShort => exact absurd hspells (h.tooShort v u houtcome (htried.of_append hlength hrest))

theorem Decides.text (h : Decides rest) (hrest : (rest.head? != some .anyDirectories) = true) :
    Decides (.anyText :: rest) := by
  have hfound : ∀ {s u : List Char} (taken : List Char), s = taken ++ u → Spells rest u →
      compare (.anyText :: rest) s = .agrees := by
    rintro s u taken rfl hspells
    refine h.seek_agrees (fun _ => hrest) ⟨taken, rfl, ?_⟩ hspells
    by_cases htaken : taken = []
    · exact .inr (.inl ⟨htaken, rfl⟩)
    · exact .inr (.inr ⟨htaken, .inl rfl⟩)
  refine ⟨fun s hspells => ?_, ?_⟩
  · cases hspells with
    | one htakes => cases htakes
    | text taken hspells => exact hfound taken rfl hspells
  · rintro s u hshort ⟨before, rfl, -⟩ hspells
    cases hspells with
    | one htakes => cases htakes
    | text taken hspells =>
      rw [hfound (before ++ taken) (List.append_assoc ..).symm hspells] at hshort
      cases hshort

theorem Decides.directories (h : Decides rest) : Decides (.anyDirectories :: rest) := by
  have hfound : ∀ {s u : List Char} (taken : List Char), s = taken ++ u →
      (taken = [] ∨ u = [] ∨ taken.getLast? = some '/') → Spells rest u →
      compare (.anyDirectories :: rest) s = .agrees := by
    rintro s u taken rfl hslash hspells
    refine h.seek_agrees nofun ⟨taken, rfl, ?_⟩ hspells
    by_cases htaken : taken = []
    · exact .inr (.inl ⟨htaken, rfl⟩)
    · exact (hslash.resolve_left htaken).imp_right fun h => .inr ⟨htaken, .inr h⟩
  refine ⟨fun s hspells => ?_, ?_⟩
  · cases hspells with
    | one htakes => cases htakes
    | directories taken hslash hspells => exact hfound taken rfl hslash hspells
  · rintro s u hshort ⟨before, rfl, hbefore⟩ hspells
    cases hspells with
    | one htakes => cases htakes
    | @directories _ v taken hslash hspells =>
      have hall : before ++ taken = [] ∨ v = [] ∨ (before ++ taken).getLast? = some '/' := by
        by_cases htaken : taken = []
        · subst htaken
          rw [List.append_nil]
          rcases hbefore with h | ⟨h, -⟩ | ⟨-, h⟩
          · exact .inr (.inl h)
          · exact .inl h
          · exact .inr (.inr (h.resolve_left (by simp)))
        · rw [List.getLast?_append_of_ne_nil _ htaken]
          exact .inr (hslash.resolve_left htaken)
      rw [hfound (before ++ taken) (List.append_assoc ..).symm hall hspells] at hshort
      cases hshort

/-- A token that stands for a single character. -/
theorem Decides.one {token : Token} (h : Decides rest) (htext : token ≠ .anyText)
    (hdirectories : token ≠ .anyDirectories)
    (hslash : token = .char '/' ∨ (rest.head? != some .anyDirectories) = true) :
    Decides (token :: rest) := by
  have hcut : ∀ {s}, Spells (token :: rest) s →
      ∃ c cs, s = c :: cs ∧ Token.takes c token = true ∧ Spells rest cs := by
    intro s hspells
    cases hspells with
    | one htakes hspells => exact ⟨_, _, rfl, htakes, hspells⟩
    | text => exact absurd rfl htext
    | directories => exact absurd rfl hdirectories
  refine ⟨fun s hspells => ?_, ?_⟩
  · obtain ⟨c, cs, rfl, htakes, hspells⟩ := hcut hspells
    rw [compare_one htext hdirectories]
    exact (if_pos htakes).trans (h.agrees cs hspells)
  · rintro s u hshort ⟨before, rfl, -⟩ hspells
    obtain ⟨c, cs, rfl, htakes, hspells⟩ := hcut hspells
    rw [compare_one htext hdirectories] at hshort
    cases before with
    | nil =>
      exact h.tooShort cs cs ((if_pos htakes).symm.trans hshort)
        ⟨[], rfl, .inr (.inl ⟨rfl, rfl⟩)⟩ hspells
    | cons d more =>
      by_cases hd : Token.takes d token = true
      · refine h.tooShort _ cs ((if_pos hd).symm.trans hshort) ⟨more ++ [c], ?_, ?_⟩ hspells
        · exact List.append_cons more c cs
        · refine .inr (.inr ⟨by simp, hslash.symm.imp_right fun hslash => ?_⟩)
          rw [hslash] at htakes
          rw [List.getLast?_concat, beq_iff_eq.1 htakes]
      · cases (if_neg hd).symm.trans hshort

theorem decides_of_ordered (hp : p.Ordered) : Decides p := by
  induction p with
  | nil =>
    refine ⟨fun s h => by cases h; rfl, fun s u h _ => ?_⟩
    rw [compare] at h
    split at h <;> cases h
  | cons token rest ih =>
    have hrest : Decides rest := ih hp.tail
    have hnext : token = .char '/' ∨ token = .anyDirectories ∨
        (rest.head? != some .anyDirectories) = true := by
      cases rest with
      | nil => exact .inr (.inr rfl)
      | cons next more =>
        by_cases hdirectories : next = .anyDirectories
        · exact ((List.isChain_cons_cons.1 hp).1 hdirectories).imp_right .inl
        · exact .inr (.inr (by simpa using hdirectories))
    by_cases hdirectories : token = .anyDirectories
    · rw [hdirectories]
      exact hrest.directories
    · by_cases htext : token = .anyText
      · subst htext
        exact hrest.text ((hnext.resolve_left nofun).resolve_left nofun)
      · exact hrest.one htext hdirectories (hnext.imp_right fun h => h.resolve_left hdirectories)

/-- What matching finds is there. -/
theorem spells_of_compare (h : compare p s = .agrees) : Spells p s := by
  induction p generalizing s with
  | nil =>
    cases s with
    | nil => exact .nil
    | cons c cs => cases h
  | cons token rest ih =>
    by_cases htext : token = .anyText
    · subst htext
      obtain ⟨u, ⟨taken, rfl, -⟩, hseek, -⟩ := seek_spec (compare rest) true true s
      exact .text taken (ih (hseek.trans h))
    · by_cases hdirectories : token = .anyDirectories
      · subst hdirectories
        obtain ⟨u, ⟨taken, rfl, htried⟩, hseek, -⟩ := seek_spec (compare rest) false true s
        refine .directories taken ?_ (ih (hseek.trans h))
        rcases htried with h | ⟨h, -⟩ | ⟨-, h⟩
        · exact .inr (.inl h)
        · exact .inl h
        · exact .inr (.inr (h.resolve_left nofun))
      · rw [compare_one htext hdirectories] at h
        cases s with
        | nil => cases h
        | cons c cs =>
          dsimp only at h
          split at h
          next htakes => exact .one htakes (ih h)
          · cases h

/-- A pattern matches a text if it stands for it, whatever was tried before. -/
theorem isMatch_iff (hp : p.Ordered) (text : String) :
    p.isMatch text = true ↔ Spells p text.toList := by
  rw [isMatch, beq_iff_eq]
  exact ⟨spells_of_compare, (decides_of_ordered hp).agrees _⟩

end LayeredConfig.Glob.Pattern
