import LayeredConfig.Glob.Walk
import LayeredConfig.Proofs.Contract
import LayeredConfig.Proofs.Glob.Spelling

/-!
# A pattern and its components

A pattern is read as a whole to match paths, and component by component to be expanded. Both
readings agree: if every component can be read, the pattern is made of the components with slashes
between them (`reads_pieces`). `Reads` is the grammar of patterns.
-/

namespace LayeredConfig.Glob.Pattern

variable {before before' : Option Char} {s more : List Char} {p q c : Pattern} {position : Nat}

/-! ## The grammar -/

/-- There is nothing before, or a slash. -/
def AtStart (before : Option Char) : Prop := before.all (· == '/') = true

/-- The text stands for the pattern, behind a character. -/
inductive Reads : Option Char → List Char → Pattern → Prop
  | nil {before : Option Char} : Reads before [] []
  | anyChar {before : Option Char} {rest : List Char} {p : Pattern} (h : Reads (some '?') rest p) :
      Reads before ('?' :: rest) (.anyChar :: p)
  | lastDirectories {before : Option Char} (hstart : AtStart before) :
      Reads before ['*', '*'] [.anyDirectories]
  | directories {before : Option Char} {rest : List Char} {p : Pattern} (hstart : AtStart before)
      (h : Reads (some '/') rest p) :
      Reads before ('*' :: '*' :: '/' :: rest) (.anyDirectories :: p)
  | anyText {before : Option Char} {rest : List Char} {p : Pattern}
      (hone : ∀ more, rest ≠ '*' :: more) (h : Reads (some '*') rest p) :
      Reads before ('*' :: rest) (.anyText :: p)
  | except {before : Option Char} {rest content : List Char} {taken : Nat} {p : Pattern}
      (hbracket : bracket? rest = some (content, taken))
      (h : Reads (some ']') (rest.drop taken) p) :
      Reads before ('[' :: '!' :: rest) (.except (ranges content) :: p)
  | within {before : Option Char} {rest content : List Char} {taken : Nat} {p : Pattern}
      (hplain : ∀ more, rest ≠ '!' :: more) (hbracket : bracket? rest = some (content, taken))
      (h : Reads (some ']') (rest.drop taken) p) :
      Reads before ('[' :: rest) (.within (ranges content) :: p)
  | char {before : Option Char} {c : Char} {rest : List Char} {p : Pattern}
      (hc : FilePath.isWildcard c = false) (h : Reads (some c) rest p) :
      Reads before (c :: rest) (.char c :: p)

/-- What is read is in the grammar. -/
theorem reads_of_read (h : read position before s = .ok p) : Reads before s p := by
  induction hlength : s.length using Nat.strong_induction_on generalizing position before s p with
  | _ n ih =>
  subst hlength
  have hmore : ∀ {position : Nat} {c : Char} {rest : List Char} {q : Pattern},
      rest.length < s.length → read position (some c) rest = .ok q → Reads (some c) rest q :=
    fun hless h => ih _ hless h rfl
  unfold read at h
  split at h
  · cases h
    exact .nil
  · obtain ⟨q, hq, h⟩ := except_bind_ok h
    cases h
    exact .anyChar (hmore (by simp) hq)
  · cases h
  · split at h
    next hstart =>
      split at h
      · cases h
        exact .lastDirectories hstart
      · obtain ⟨q, hq, h⟩ := except_bind_ok h
        cases h
        exact .directories hstart (hmore (by grind) hq)
      · cases h
    · cases h
  next rest _ hone =>
    obtain ⟨q, hq, h⟩ := except_bind_ok h
    cases h
    exact .anyText hone (hmore (by simp) hq)
  next rest =>
    split at h
    next content taken hbracket =>
      obtain ⟨q, hq, h⟩ := except_bind_ok h
      cases h
      exact .except hbracket (hmore (by grind) hq)
    · cases h
  next rest hplain =>
    split at h
    next content taken hbracket =>
      obtain ⟨q, hq, h⟩ := except_bind_ok h
      cases h
      exact .within hplain hbracket (hmore (by grind) hq)
    · cases h
  next c rest hany _ _ htext _ hclass =>
    obtain ⟨q, hq, h⟩ := except_bind_ok h
    cases h
    have hc : FilePath.isWildcard c = false := by
      simp only [FilePath.isWildcard, Bool.or_eq_false_iff, beq_eq_false_iff_ne]
      exact ⟨⟨htext, hany⟩, hclass⟩
    exact .char hc (hmore (by simp) hq)

namespace Reads

/-- Whole directories stand where they may, and at the beginning only behind a slash. -/
theorem ordered (h : Reads before s p) :
    p.Ordered ∧ (p.head? = some .anyDirectories → AtStart before) := by
  have hcons : ∀ {c : Char} {token : Token} {q : Pattern},
      (q.Ordered ∧ (q.head? = some .anyDirectories → AtStart (some c))) →
      (c = '/' → token = .char '/' ∨ token = .anyDirectories) → Ordered (token :: q) := by
    rintro c token q ⟨hq, hhead⟩ htoken
    refine List.isChain_cons.2 ⟨fun next hnext hdirectories => htoken ?_, hq⟩
    rw [hdirectories] at hnext
    simpa [AtStart] using hhead hnext
  induction h with
  | nil => exact ⟨.nil, nofun⟩
  | anyChar h ih => exact ⟨hcons ih nofun, nofun⟩
  | lastDirectories hstart => exact ⟨.singleton _, fun _ => hstart⟩
  | directories hstart h ih => exact ⟨hcons ih fun _ => .inr rfl, fun _ => hstart⟩
  | anyText hone h ih => exact ⟨hcons ih nofun, nofun⟩
  | except hbracket h ih => exact ⟨hcons ih nofun, nofun⟩
  | within hplain hbracket h ih => exact ⟨hcons ih nofun, nofun⟩
  | char hc h ih => exact ⟨hcons ih fun hslash => .inl (by rw [hslash]), nofun⟩

/-- A pattern without wildcards stands for its text. -/
theorem eq_of_literal (h : Reads before s p) {name : List Char} (hname : literal? p = some name) :
    name = s := by
  induction h generalizing name with
  | nil => exact (Option.some.inj hname).symm
  | char hc h ih =>
    obtain ⟨rest, hrest, rfl⟩ := Option.map_eq_some_iff.1 hname
    rw [ih hrest]
  | anyChar => cases hname
  | lastDirectories => cases hname
  | directories => cases hname
  | anyText => cases hname
  | except => cases hname
  | within => cases hname

/-- A text without wildcards is read as it is. -/
theorem literal_of_plain (h : Reads before s p) (hs : s.any FilePath.isWildcard = false) :
    literal? p = some s := by
  induction h with
  | nil => rfl
  | char hc h ih =>
    rw [List.any_cons, Bool.or_eq_false_iff] at hs
    rw [literal?, ih hs.2]
    rfl
  | anyChar => cases hs
  | lastDirectories => cases hs
  | directories => cases hs
  | anyText => cases hs
  | except => cases hs
  | within => cases hs

/-- Between slashes, whole directories stand alone. -/
theorem eq_of_recursive (h : Reads before s p) (hs : '/' ∉ s) (hp : .anyDirectories ∈ p) :
    p = [.anyDirectories] ∧ AtStart before := by
  have hno : ∀ {c : Char} {rest : List Char} {token : Token} {q : Pattern},
      ('/' ∉ rest → .anyDirectories ∈ q → q = [.anyDirectories] ∧ AtStart (some c)) →
      '/' ∉ rest → c ≠ '/' → token ≠ .anyDirectories → .anyDirectories ∉ token :: q := by
    intro c rest token q ih hrest hc htoken hmem
    have hq := (List.mem_cons.1 hmem).resolve_left htoken.symm
    exact hc (by simpa [AtStart] using (ih hrest hq).2)
  induction h with
  | nil => cases hp
  | lastDirectories hstart => exact ⟨rfl, hstart⟩
  | directories => exact absurd (by simp) hs
  | anyChar h ih =>
    exact absurd hp (hno ih (List.not_mem_of_not_mem_cons hs) (by decide) (by decide))
  | anyText hone h ih =>
    exact absurd hp (hno ih (List.not_mem_of_not_mem_cons hs) (by decide) (by decide))
  | char hc h ih =>
    refine absurd hp (hno ih (List.not_mem_of_not_mem_cons hs) ?_ (by simp))
    rintro rfl
    exact hs List.mem_cons_self
  | except hbracket h ih =>
    refine absurd hp (hno ih (fun hmem => hs ?_) (by decide) (by simp))
    exact List.mem_cons_of_mem _ (List.mem_cons_of_mem _ (List.mem_of_mem_drop hmem))
  | within hplain hbracket h ih =>
    refine absurd hp (hno ih (fun hmem => hs ?_) (by decide) (by simp))
    exact List.mem_cons_of_mem _ (List.mem_of_mem_drop hmem)

end Reads

/-! ## Components put together -/

/-- A component and what follows behind a slash. Whole directories bring their slash with them. -/
def glue (c q : Pattern) : Pattern :=
  if c.getLast? = some .anyDirectories then c ++ q else c ++ .char '/' :: q

/-- Components with slashes between them. -/
def glueAll : List Component → Pattern
  | [] => []
  | [c] => c
  | c :: rest => glue c (glueAll rest)

theorem glue_cons {token : Token} (htoken : token ≠ .anyDirectories) (c q : Pattern) :
    glue (token :: c) q = token :: glue c q := by
  unfold glue
  cases c with
  | nil => simp [htoken]
  | cons next rest =>
    rw [List.getLast?_cons_cons]
    split <;> rfl

/-- What stands between brackets is the same whatever follows. -/
theorem bracket?_append {rest content : List Char} {taken : Nat}
    (h : bracket? rest = some (content, taken)) (more : List Char) :
    bracket? (rest ++ more) = some (content, taken) ∧
      (rest ++ more).drop taken = rest.drop taken ++ more := by
  cases rest with
  | nil => cases h
  | cons c rest =>
    unfold bracket? at h ⊢
    dsimp only [List.cons_append] at h ⊢
    split at h
    next hclosed =>
      cases h
      have hwhile : (rest ++ more).takeWhile (· != ']') = rest.takeWhile (· != ']') := by
        rw [List.takeWhile_append, if_neg (by omega)]
      rw [hwhile, if_pos (by simp; omega)]
      refine ⟨rfl, ?_⟩
      rw [← List.cons_append, List.drop_append_of_le_length (by simp; omega)]
    · cases h

section Inversion

variable {rest content : List Char} {taken : Nat} {ch : Char}

theorem Reads.anyText_inv (h : Reads before ('*' :: rest) p) (hone : ∀ more, rest ≠ '*' :: more) :
    ∃ q, Reads (some '*') rest q ∧ p = .anyText :: q := by
  cases h with
  | anyText _ h => exact ⟨_, h, rfl⟩
  | lastDirectories => exact absurd rfl (hone _)
  | directories => exact absurd rfl (hone _)
  | char hc => cases hc

theorem Reads.except_inv (h : Reads before ('[' :: '!' :: rest) p)
    (hbracket : bracket? rest = some (content, taken)) :
    ∃ q, Reads (some ']') (rest.drop taken) q ∧ p = .except (ranges content) :: q := by
  cases h with
  | except hbracket' h =>
    cases hbracket.symm.trans hbracket'
    exact ⟨_, h, rfl⟩
  | within hplain => exact absurd rfl (hplain _)
  | char hc => cases hc

theorem Reads.within_inv (h : Reads before ('[' :: rest) p) (hplain : ∀ more, rest ≠ '!' :: more)
    (hbracket : bracket? rest = some (content, taken)) :
    ∃ q, Reads (some ']') (rest.drop taken) q ∧ p = .within (ranges content) :: q := by
  cases h with
  | within _ hbracket' h =>
    cases hbracket.symm.trans hbracket'
    exact ⟨_, h, rfl⟩
  | except => exact absurd rfl (hplain _)
  | char hc => cases hc

theorem Reads.char_inv (h : Reads before (ch :: rest) p) (hc : FilePath.isWildcard ch = false) :
    ∃ q, Reads (some ch) rest q ∧ p = .char ch :: q := by
  cases h with
  | char _ h => exact ⟨_, h, rfl⟩
  | anyChar => cases hc
  | lastDirectories => cases hc
  | directories => cases hc
  | anyText => cases hc
  | except => cases hc
  | within => cases hc

end Inversion

/-- The pattern of a component and of what follows it: nothing, or a slash and more. -/
inductive Continues (c : Pattern) : List Char → Pattern → Prop
  | ends : Continues c [] c
  | slash {more : List Char} {q : Pattern} (h : Reads (some '/') more q) :
      Continues c ('/' :: more) (glue c q)

theorem Continues.cons {token : Token} {tail : List Char} (htoken : token ≠ .anyDirectories)
    (h : Continues c tail p) : Continues (token :: c) tail (token :: p) := by
  cases h with
  | ends => exact .ends
  | slash h =>
    rw [← glue_cons htoken]
    exact .slash h

/-- A text that is read by itself is read so with a slash and more behind it. -/
theorem Reads.append (h : Reads before s c) (hs : '/' ∉ s) {tail : List Char}
    (hall : Reads before' (s ++ tail) p) (htail : AtStart tail.head?) : Continues c tail p := by
  -- What does not begin with a character other than a slash does not so with more behind it.
  have hother : ∀ {x : Char} {rest : List Char}, x ≠ '/' → (∀ more, rest ≠ x :: more) →
      ∀ more, rest ++ tail ≠ x :: more := by
    rintro x (_ | ⟨next, rest⟩) hx hrest more heq
    · rw [List.nil_append] at heq
      rw [heq] at htail
      exact hx (beq_iff_eq.1 htail)
    · exact hrest rest (by rw [(List.cons.inj heq).1])
  induction h generalizing before' p with
  | nil =>
    cases hall with
    | nil => exact .ends
    | char _ hq =>
      obtain rfl := beq_iff_eq.1 htail
      exact .slash hq
    | anyChar => cases htail
    | lastDirectories => cases htail
    | directories => cases htail
    | anyText => cases htail
    | except => cases htail
    | within => cases htail
  | anyChar h ih =>
    cases hall with
    | anyChar hall => exact (ih (List.not_mem_of_not_mem_cons hs) hall).cons nofun
    | char hc hall => cases hc
  | lastDirectories hstart =>
    cases hall with
    | lastDirectories => exact .ends
    | directories _ hq => exact .slash hq
    | anyText hone => exact absurd rfl (hone _)
    | char hc => cases hc
  | directories => exact absurd (by simp) hs
  | anyText hone h ih =>
    obtain ⟨q, hq, rfl⟩ := hall.anyText_inv (hother (by decide) hone)
    exact (ih (List.not_mem_of_not_mem_cons hs) hq).cons nofun
  | except hbracket h ih =>
    obtain ⟨hmore, hdrop⟩ := bracket?_append hbracket tail
    obtain ⟨q, hq, rfl⟩ := hall.except_inv hmore
    refine (ih (fun hmem => hs ?_) (hdrop ▸ hq)).cons nofun
    exact List.mem_cons_of_mem _ (List.mem_cons_of_mem _ (List.mem_of_mem_drop hmem))
  | within hplain hbracket h ih =>
    obtain ⟨hmore, hdrop⟩ := bracket?_append hbracket tail
    obtain ⟨q, hq, rfl⟩ := hall.within_inv (hother (by decide) hplain) hmore
    refine (ih (fun hmem => hs ?_) (hdrop ▸ hq)).cons nofun
    exact List.mem_cons_of_mem _ (List.mem_of_mem_drop hmem)
  | char hc h ih =>
    obtain ⟨q, hq, rfl⟩ := hall.char_inv hc
    exact (ih (List.not_mem_of_not_mem_cons hs) hq).cons nofun

/-- A pattern is read as its pieces are, with slashes between them. -/
theorem eq_glueAll {pieces : List (List Char)} {cs : List Component}
    (hcs : List.Forall₂ (Reads none) pieces cs) (hpieces : ∀ piece ∈ pieces, '/' ∉ piece)
    (hall : Reads before (['/'].intercalate pieces) p) : p = glueAll cs := by
  induction hcs generalizing before p with
  | nil =>
    cases hall
    rfl
  | @cons piece c pieces cs hc hcs ih =>
    obtain ⟨hpiece, hpieces⟩ := List.forall_mem_cons.1 hpieces
    cases hcs with
    | nil =>
      have hall : Reads before (piece ++ []) p := by simpa using hall
      cases hc.append hpiece hall rfl
      rfl
    | @cons next _ pieces =>
      have hall : Reads before (piece ++ '/' :: ['/'].intercalate (next :: pieces)) p := hall
      cases hc.append hpiece hall rfl with
      | slash hq =>
        rw [ih hpieces hq]
        rfl

end LayeredConfig.Glob.Pattern
