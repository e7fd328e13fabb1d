import LayeredConfig.Proofs.Alike
import LayeredConfig.Proofs.Includers
import LayeredConfig.Proofs.Inclusion.Room
import LayeredConfig.Proofs.Memory
import Mathlib.Data.List.Find

/-!
# A loader alongside one without a cache

A loader is compared with one that has no cache and works in a world of its own. The two worlds need
not have the same files; they have to agree on what the second loader asks about. `Mimics x y` says
that the first loader's computation `y` ends as the second one's, `x`, does, unless `x` fails with
an error that is excused. Ledgers and warnings are left out of the comparison, and there may be more
room for nested directives on the side of `y`.

Whether a world is fit for a load may depend on what the cache will still be asked for: an entry
that is never asked for again need not be right. So the terms of a comparison (`Terms`) say which
worlds are fit for a list of questions, and a computation uses up those that it asks.

What makes a whole load mimic one without a cache is collected in `Serves`: the worlds agree on the
files that are looked for and read, what the cache answers is what the request has without a cache,
and worlds in which such a result has been kept are fit for the questions left. Then it does
(`mimics_loadFile`).
-/

namespace LayeredConfig

variable {α β γ δ κ : Type}

/-! ## Computations side by side -/

/-- The terms on which a loader is compared with one without a cache. -/
structure Terms (κ : Type) where
  /-- The world of the loader without a cache, up to what is remembered. -/
  world : World
  /-- The worlds of the other loader that are fit for some questions to the cache. -/
  Fit : List κ → World → Prop
  /-- The entries of `_include` that may be met. -/
  Met : Meeting → Prop
  /-- The errors of the loader without a cache that the other one may do without. -/
  Excused : Error → Prop
  /-- What the cache is asked for a file that is included. -/
  ask : FilePath → List κ

/-- What the cache is asked for the file that is found for an entry. -/
def Terms.asked (T : Terms κ) (m : Meeting) : List κ := m.found.toList.flatMap T.ask

/-- A file that is found for an entry that may be met. -/
def Terms.Finds (T : Terms κ) (file : FilePath) : Prop :=
  file.IsNormal ∧ ∃ m, T.Met m ∧ m.found = some file

/-- The first computation meets only what may be met, and begins in a world kin to that of the
terms; the second begins in a world that is fit for `pre`, for all that is asked for the entries
met, and for any questions more. Then the second ends as the first does, unless this fails with an
error that is excused: with the same error, or with a result that is related to the first one's and
in a world that is fit for `post` and these questions. -/
def Terms.Mimics (T : Terms κ) (pre : List κ) (x : Telling α) (y : ExceptT Error InWorld β)
    (post : α → List κ) (Q : α → β → Prop) : Prop :=
  ∀ ⦃u v more⦄, Kin T.world u → T.Fit (pre ++ (x.meets u).flatMap T.asked ++ more) v →
    (∀ m ∈ x.meets u, T.Met m) →
    (∀ a u', outcome x.run u = (.ok a, u') → Kin T.world u' ∧
      ∃ b v', outcome y v = (.ok b, v') ∧ Q a b ∧ T.Fit (post a ++ more) v') ∧
    ∀ e u', outcome x.run u = (.error e, u') → T.Excused e ∨ ∃ v', outcome y v = (.error e, v')

theorem Blind.kin {x : ExceptT Error InWorld α} (h : Blind x) {w w' : World} {r : Except Error α}
    (hrun : outcome x w = (r, w')) : Kin w w' := by
  obtain ⟨warned, read, -, hgrown, -⟩ := h (Kin.refl w)
  rw [hrun] at hgrown
  exact hgrown.toKin

/-- Whether a world is fit does not depend on what is remembered. A world that is fit for some
questions is fit for fewer, in any order. -/
structure Terms.Lawful (T : Terms κ) : Prop where
  unnoted : ∀ l, Unnoted (T.Fit l)
  fewer : ∀ l l' v, l.Subperm l' → T.Fit l' v → T.Fit l v
  unbounded : ∀ e : Error, e.IsUnbounded → T.Excused e

namespace Terms.Mimics

variable {T : Terms κ} {pre mid : List κ} {x : Telling α} {y : ExceptT Error InWorld β}
  {post : α → List κ} {Q Q' : α → β → Prop}

theorem bind {f : α → Telling γ} {g : β → ExceptT Error InWorld δ} {last : γ → List κ}
    {R : γ → δ → Prop} (hx : T.Mimics pre x y post Q)
    (hf : ∀ a b, Q a b → T.Mimics (post a) (f a) (g b) last R) :
    T.Mimics pre (x >>= f) (y >>= g) last R := by
  intro u v more hu hv hmeets
  have hfirst : ∀ m ∈ x.meets u, T.Met m := fun m hm => hmeets m (List.mem_append_left _ hm)
  have hrest : ∀ m ∈ Telling.after x.run (fun a => (f a).meets) u, T.Met m :=
    fun m hm => hmeets m (List.mem_append_right _ hm)
  have hsplit : pre ++ ((x >>= f).meets u).flatMap T.asked ++ more =
      pre ++ (x.meets u).flatMap T.asked ++
        ((Telling.after x.run (fun a => (f a).meets) u).flatMap T.asked ++ more) := by
    change pre ++ (x.meets u ++ Telling.after x.run (fun a => (f a).meets) u).flatMap T.asked ++
      more = _
    simp only [List.flatMap_append, List.append_assoc]
  rw [hsplit] at hv
  obtain ⟨hok, herror⟩ := hx hu hv hfirst
  rw [Telling.run_bind, outcome_bind]
  rcases hrun : outcome x.run u with ⟨e | a, u₁⟩
  · refine ⟨(fun _ _ heq => by cases heq), fun e' u' heq => ?_⟩
    cases heq
    exact (herror e u₁ hrun).imp_right fun ⟨v', hy⟩ => ⟨v', outcome_bind_of_error hy g⟩
  · obtain ⟨hu₁, b, v₁, hy, hQ, hv₁⟩ := hok a u₁ hrun
    rw [Telling.after_of_ok hrun] at hrest hv₁
    rw [outcome_bind_of_ok hy]
    rw [← List.append_assoc] at hv₁
    exact hf a b hQ hu₁ hv₁ hrest

/-- What else will be asked for later is left alone. -/
theorem frame (hT : T.Lawful) (h : T.Mimics pre x y post Q) (later : List κ) :
    T.Mimics (pre ++ later) x y (fun a => post a ++ later) Q := by
  intro u v more hu hv hmeets
  have hmove : (pre ++ (x.meets u).flatMap T.asked ++ (later ++ more)).Perm
      (pre ++ later ++ (x.meets u).flatMap T.asked ++ more) := by
    simp only [List.append_assoc]
    refine List.Perm.append_left pre ?_
    rw [← List.append_assoc, ← List.append_assoc]
    exact List.perm_append_comm.append_right more
  obtain ⟨hok, herror⟩ := h hu (hT.fewer _ _ v hmove.subperm hv) hmeets
  refine ⟨fun a u' hrun => ?_, herror⟩
  obtain ⟨hu', b, v', hy, hab, hv'⟩ := hok a u' hrun
  exact ⟨hu', b, v', hy, hab, by rwa [List.append_assoc]⟩

/-- A result of the first computation is one that it has in a world kin to that of the terms. -/
theorem attained (h : T.Mimics pre x y post Q) : T.Mimics pre x y post fun a b =>
    Q a b ∧ ∃ u u', Kin T.world u ∧ outcome x.run u = (.ok a, u') := by
  intro u v more hu hv hmeets
  obtain ⟨hok, herror⟩ := h hu hv hmeets
  refine ⟨fun a u' hrun => ?_, herror⟩
  obtain ⟨hu', b, v', hy, hab, hv'⟩ := hok a u' hrun
  exact ⟨hu', b, v', hy, ⟨hab, u, u', hu, hrun⟩, hv'⟩

theorem pure {a : α} {b : β} (h : Q a b) : T.Mimics [] (pure a) (pure b) (fun _ => []) Q := by
  intro u v more hu hv _
  refine ⟨fun a' u' heq => ?_, fun _ _ heq => by cases heq⟩
  cases heq
  exact ⟨hu, b, v, rfl, h, by simpa [Pure.pure, Telling.quiet] using hv⟩

theorem of_run (h : T.Mimics pre x y post Q) {run : ExceptT Error InWorld α} (hrun : x.run = run) :
    T.Mimics pre ⟨run, x.meets⟩ y post Q := hrun ▸ h

/-- A question to which both worlds have an answer. -/
theorem asks {x : ExceptT Error InWorld α} {f : World → α} {g : World → β}
    (hx : ∀ w, outcome x w = (.ok (f w), w)) (hy : ∀ w, outcome y w = (.ok (g w), w))
    (h : ∀ u v l, Kin T.world u → T.Fit l v → Q (f u) (g v)) :
    T.Mimics pre (Telling.quiet x) y (fun _ => pre) Q := by
  intro u v more hu hv _
  refine ⟨fun a u' hrun => ?_, fun e u' hrun => ?_⟩
  · cases (hx u).symm.trans hrun
    exact ⟨hu, g v, v, hy v, h u v _ hu hv, by simpa [Telling.quiet] using hv⟩
  · cases (hx u).symm.trans hrun

/-- Both fail in all worlds with the same error. -/
theorem fails {x : ExceptT Error InWorld α} {e : Error} (hx : ∀ w, outcome x w = (.error e, w))
    (hy : ∀ w, outcome y w = (.error e, w)) : T.Mimics pre (Telling.quiet x) y post Q := by
  refine fun u v more hu hv _ => ⟨fun a u' hrun => ?_, fun e' u' hrun => ?_⟩
  · cases (hx u).symm.trans hrun
  · cases (hx u).symm.trans hrun
    exact .inr ⟨v, hy v⟩

/-- Where the first computation fails with an error that is excused, nothing is asked of the
second. -/
theorem of_throw {e : Error} (h : T.Excused e) :
    T.Mimics pre (Telling.quiet (MonadExcept.throw e)) y post Q := by
  refine fun u v more hu hv _ => ⟨(fun _ _ heq => by cases heq), fun e' u' heq => ?_⟩
  cases heq
  exact .inl h

/-- Computations that only take notes. -/
theorem note (hT : T.Lawful) {x : ExceptT Error InWorld α} {y : ExceptT Error InWorld β}
    (hx : Blind x) (hxnotes : ∀ {R}, Noting R → Leaves R x)
    (hy : ∀ {R}, Noting R → Leaves R y) :
    T.Mimics pre (Telling.quiet x) y (fun _ => pre) fun _ _ => True := by
  intro u v more hu hv _
  obtain ⟨a, u₁, hrun, -⟩ := hxnotes (Unnoted.noting (SameFiles.unnoted T.world)) u
  obtain ⟨b, v₁, hends, -, hkept⟩ := hy (hT.unnoted _).noting v
  refine ⟨fun a' u' hrun' => ?_, fun e u' hrun' => ?_⟩
  · exact ⟨hu.trans (hx.kin hrun'), b, v₁, hends, trivial,
      by simpa [Telling.quiet] using hkept hv⟩
  · cases hrun.symm.trans hrun'

section Ends

variable {u u' v : World} (h : T.Mimics pre x y post Q) (hu : Kin T.world u)
  (hv : T.Fit (pre ++ (x.meets u).flatMap T.asked) v) (hmeets : ∀ m ∈ x.meets u, T.Met m)
include h hu hv hmeets

theorem of_ok {a : α} (hrun : outcome x.run u = (.ok a, u')) :
    ∃ b v', outcome y v = (.ok b, v') ∧ Q a b ∧ T.Fit (post a) v' := by
  rw [← List.append_nil (pre ++ _)] at hv
  obtain ⟨-, b, v', hy, hab, hv'⟩ := (h hu hv hmeets).1 a u' hrun
  exact ⟨b, v', hy, hab, by rwa [List.append_nil] at hv'⟩

theorem of_error {e : Error} (hrun : outcome x.run u = (.error e, u')) :
    T.Excused e ∨ ∃ v', outcome y v = (.error e, v') := by
  rw [← List.append_nil (pre ++ _)] at hv
  exact (h hu hv hmeets).2 e u' hrun

end Ends

end Terms.Mimics

/-- The second outcome has the same tree as the first or is the same error, unless the first is an
error that is excused. -/
structure SameEnd (E : Error → Prop) (r r' : Except Error (Tree × Ledger)) : Prop where
  tree : ∀ t l, r = .ok (t, l) → ∃ l', r' = .ok (t, l')
  error : ∀ e, r = .error e → E e ∨ r' = .error e

/-- Outcomes that end as a third one does, which is not unbounded, end the same. -/
theorem SameEnd.of_bounded {E : Error → Prop} {r r₁ r₂ : Except Error (Tree × Ledger)}
    (h₁ : SameEnd Error.IsUnbounded r r₁) (h₂ : SameEnd (fun e => E e ∨ e.IsUnbounded) r r₂)
    (hbounded : ∀ e, r = .error e → ¬ e.IsUnbounded) : SameEnd E r₁ r₂ := by
  cases r with
  | ok result =>
    obtain ⟨l₁, rfl⟩ := h₁.tree _ _ rfl
    obtain ⟨l₂, rfl⟩ := h₂.tree _ _ rfl
    refine ⟨fun t l heq => ?_, (fun e heq => by cases heq)⟩
    cases heq
    exact ⟨l₂, rfl⟩
  | error e =>
    have hnot := hbounded e rfl
    obtain rfl := (h₁.error e rfl).resolve_left hnot
    refine ⟨(fun t l heq => by cases heq), fun e' heq => ?_⟩
    cases heq
    exact (h₂.error e rfl).imp_left fun hor => hor.resolve_right hnot

theorem Terms.Mimics.sameEnd {T : Terms κ} {pre : List κ} {x : Telling (Tree × Ledger)}
    {y : ExceptT Error InWorld (Tree × Ledger)} {post : Tree × Ledger → List κ} {u v : World}
    (h : T.Mimics pre x y post fun a b => b.1 = a.1) (hu : Kin T.world u)
    (hv : T.Fit (pre ++ (x.meets u).flatMap T.asked) v) (hmeets : ∀ m ∈ x.meets u, T.Met m) :
    SameEnd T.Excused (outcome x.run u).1 (outcome y v).1 where
  tree t l hrun := by
    obtain ⟨⟨_, l'⟩, v', hy, rfl, -⟩ := h.of_ok hu hv hmeets (Prod.ext hrun rfl)
    exact ⟨l', by rw [hy]⟩
  error e hrun :=
    (h.of_error hu hv hmeets (Prod.ext hrun rfl)).imp_right fun ⟨v', hy⟩ => by rw [hy]

/-! ## Resolutions -/

namespace Scope

open Terms (Mimics Lawful)

/-- Results with the same value, and sources that are the same. -/
def SameStep (a b : α × Progress) : Prop := b.1 = a.1 ∧ b.2.sources = a.2.sources

/-- Begun with the same sources, the second step mimics the first. -/
def MimicsStep (T : Terms κ) (pre : List κ) (x y : Relating α) : Prop :=
  ∀ p q, q.sources = p.sources →
    T.Mimics pre (x.run p) (y.plain.run q) (fun _ => []) SameStep

section Steps

variable {T : Terms κ}

theorem MimicsStep.bind {pre : List κ} {x y : Relating α} {f g : α → Relating β}
    (hx : MimicsStep T pre x y) (hf : ∀ a, MimicsStep T [] (f a) (g a)) :
    MimicsStep T pre (x >>= f) (y >>= g) := by
  intro p q hpq
  refine (hx p q hpq).bind fun r r' hr => ?_
  obtain ⟨a, p₁⟩ := r
  obtain ⟨b, q₁⟩ := r'
  obtain ⟨rfl, hsources⟩ := hr
  exact hf b p₁ q₁ hsources

theorem MimicsStep.still {x : Resolving InWorld α} (hx : Still x) :
    MimicsStep T [] (Relating.quiet x) (Relating.quiet x) := by
  rintro ⟨_, l⟩ ⟨sources, l'⟩ rfl
  rcases hx sources with ⟨a, sources', hends⟩ | ⟨e, hends⟩
  · exact .asks (hends l) (hends l') fun _ _ _ _ _ => ⟨rfl, rfl⟩
  · exact .fails (hends l) (hends l')

variable {c : Scope InWorld} {s : Settings}
  {load : FilePath → List FilePath → String → ExceptT Error InWorld (Tree × Ledger)} {extra : Nat}
  {heard : FilePath → List FilePath → String → World → List Meeting}
  (hT : T.Lawful) (hdirectory : ∀ l v, T.Fit l v → v.directory = T.world.directory)
  (hplaces : ∀ l v, T.Fit l v → ∀ entry,
    s.places v c.owner entry = c.settings.places T.world c.owner entry)
  (hfiles : ∀ l v, T.Fit l v → ∀ m, T.Met m → ∀ p ∈ m.searched,
    v.hasFile p = T.world.hasFile p)
include hT hdirectory hplaces hfiles

/-- A search ends in the same way, and what is found is found for an entry that may be met. -/
theorem mimics_find (raw : String) (entry : IncludeEntry) (location : String) {p q : Progress}
    (hpq : q.sources = p.sources) : T.Mimics [] ((c.tellFind raw entry location).run p)
      (((c.told s load extra).find raw entry location).run q)
      (fun a => a.1.toList.flatMap T.ask) fun a b =>
        SameStep a b ∧ ∀ file, a.1 = some file → T.Finds file := by
  intro u v more hu hv hmeets
  have hmet : T.Met (c.settings.meeting u c.owner raw entry) :=
    hmeets _ (List.mem_singleton_self _)
  have hsearched : (c.told s load extra).settings.places v (c.told s load extra).owner entry =
      c.settings.places u c.owner entry :=
    (hplaces _ v hv entry).trans (hu.toSameFiles.places_eq c.owner entry).symm
  have hfirst : (c.settings.places u c.owner entry).find? v.hasFile =
      (c.settings.places u c.owner entry).find? u.hasFile :=
    List.find?_congr fun p hp => by
      rw [hfiles _ v hv _ hmet p hp, hu.toSameFiles.hasFile_eq]
  have hnormal : v.directory = u.directory := (hdirectory _ v hv).trans hu.directory.symm
  have hfound : (c.settings.meeting u c.owner raw entry).found =
      ((c.settings.places u c.owner entry).find? u.hasFile).map
        (FilePath.normalize u.directory) := rfl
  replace hv : T.Fit ((c.settings.meeting u c.owner raw entry).found.toList.flatMap T.ask ++ more)
      v := by
    have hmeets : ((c.tellFind raw entry location).run p).meets u =
        [c.settings.meeting u c.owner raw entry] := rfl
    rw [hmeets, List.flatMap_singleton] at hv
    exact hv
  obtain ⟨l, warnings, hends⟩ := c.find_ends raw entry location p u
  obtain ⟨l', warnings', hends'⟩ := (c.told s load extra).find_ends raw entry location q v
  have hunfound : (c.told s load extra).unfound v raw entry = c.unfound u raw entry := by
    rw [unfound, hsearched]
    rfl
  rw [hsearched, hfirst, hunfound, hnormal] at hends'
  change (∀ a u', outcome ((c.find raw entry location).run p) u = (.ok a, u') → _) ∧
    ∀ e u', outcome ((c.find raw entry location).run p) u = (.error e, u') → _
  cases hplace : (c.settings.places u c.owner entry).find? u.hasFile with
  | some place =>
    rw [hplace] at hends hends' hfound
    rw [hfound] at hv
    refine ⟨fun a u' hrun => ?_, fun e u' hrun => ?_⟩
    · cases hends.symm.trans hrun
      refine ⟨hu, _, v, hends', ⟨⟨rfl, hpq⟩, fun file hfile => ?_⟩, hv⟩
      cases hfile
      exact ⟨FilePath.isNormal_normalize _ _, _, hmet, hfound⟩
    · cases hends.symm.trans hrun
  | none =>
    rw [hplace] at hends hends' hfound
    rw [hfound] at hv
    dsimp only at hends hends'
    split at hends
    next hoptional =>
      rw [if_pos hoptional] at hends'
      refine ⟨fun a u' hrun => ?_, fun e u' hrun => ?_⟩
      · cases hends.symm.trans hrun
        refine ⟨hu.trans ?_, _, _, hends', ⟨⟨rfl, hpq⟩, fun file hfile => by cases hfile⟩,
          hnormal ▸ (hT.unnoted _).warned hv warnings'⟩
        exact { toSameFiles := ⟨rfl, rfl, rfl⟩, asked := rfl, git := fun _ _ => rfl }
      · cases hends.symm.trans hrun
    next hoptional =>
      rw [if_neg hoptional] at hends'
      refine ⟨fun a u' hrun => ?_, fun e u' hrun => ?_⟩
      · cases hends.symm.trans hrun
      · cases hends.symm.trans hrun
        exact .inr ⟨v, hends'⟩

omit hT hdirectory hplaces hfiles in
theorem mimics_include {pre : List κ} {file : FilePath} {location : String}
    (hload : T.Mimics pre ⟨c.load file c.chain location, heard file c.chain location⟩
      (load file c.chain location) (fun _ => []) fun a b => b.1 = a.1)
    (f : Flattening) (merged : Tree) :
    MimicsStep T pre (c.tellInclude heard f location merged file)
      ((c.told s load extra).tellInclude unheard f location merged file) := by
  intro p q hpq u v more hu hv hmeets
  obtain ⟨hok, herror⟩ := hload hu hv hmeets
  have hx : outcome (((c.tellInclude heard f location merged file).run p).run) u = _ :=
    includeFile_run f location merged file p u
  have hy : outcome (((c.told s load extra).tellInclude unheard f location merged
      file).plain.run q) v = _ := includeFile_run f location merged file q v
  by_cases hchain : c.chain.contains file = true
  · rw [if_pos hchain] at hx
    rw [if_pos (show (c.told s load extra).chain.contains file = true from hchain)] at hy
    refine ⟨fun a u' hrun => ?_, fun e u' hrun => ?_⟩
    · cases hx.symm.trans hrun
    · cases hx.symm.trans hrun
      exact .inr ⟨v, hy⟩
  · rw [if_neg hchain] at hx
    rw [if_neg (show ¬ (c.told s load extra).chain.contains file = true from hchain)] at hy
    dsimp only [told] at hy
    rcases hrun : outcome (c.load file c.chain location) u with ⟨e | r, u₁⟩
    · rw [hrun] at hx
      refine ⟨fun a u' hrun' => ?_, fun e' u' hrun' => ?_⟩
      · cases hx.symm.trans hrun'
      · cases hx.symm.trans hrun'
        refine (herror e u₁ hrun).imp_right fun ⟨v', hends⟩ => ⟨v', ?_⟩
        rw [hends] at hy
        exact hy
    · obtain ⟨hu₁, r', v₁, hends, hsame, hv₁⟩ := hok r u₁ hrun
      rw [hrun] at hx
      rw [hends] at hy
      dsimp only at hx hy hsame
      rw [hsame] at hy
      cases hmapping : r.1.isMapping with
      | true =>
        rw [if_pos hmapping] at hx hy
        refine ⟨fun a u' hrun' => ?_, fun e' u' hrun' => ?_⟩
        · cases hx.symm.trans hrun'
          exact ⟨hu₁, _, v₁, hy, ⟨rfl, hpq⟩, hv₁⟩
        · cases hx.symm.trans hrun'
      | false =>
        rw [if_neg (by rw [hmapping]; simp)] at hx hy
        refine ⟨fun a u' hrun' => ?_, fun e' u' hrun' => ?_⟩
        · cases hx.symm.trans hrun'
        · cases hx.symm.trans hrun'
          exact .inr ⟨v₁, hy⟩

section Including

variable (hload : ∀ file, T.Finds file → ∀ location,
  T.Mimics (T.ask file) ⟨c.load file c.chain location, heard file c.chain location⟩
    (load file c.chain location) (fun _ => []) fun a b => b.1 = a.1)
include hload

theorem mimics_all (f : Flattening) (location : String) (merged : Tree) (raws : List String) :
    MimicsStep T [] (c.tellAll heard f location merged raws)
      ((c.told s load extra).tellAll unheard f location merged raws) := by
  induction raws generalizing merged with
  | nil => exact MimicsStep.still (Still.pure merged)
  | cons raw rest ih =>
    unfold tellAll
    refine MimicsStep.bind (MimicsStep.still (Still.orFail _)) fun entry p q hpq => ?_
    refine (mimics_find hT hdirectory hplaces hfiles raw entry location hpq).bind
      fun r r' hr => ?_
    obtain ⟨found, p₁⟩ := r
    obtain ⟨found', q₁⟩ := r'
    obtain ⟨⟨rfl, hsources⟩, hmet⟩ := hr
    cases found' with
    | none => exact ih merged p₁ q₁ hsources
    | some file =>
      dsimp only
      rw [Option.toList_some, List.flatMap_singleton]
      exact MimicsStep.bind (mimics_include (hload file (hmet file rfl) location) f merged) ih p₁ q₁
        hsources

/-- A resolution mimics another if the loads of the files that are found do. It may have more
room. -/
theorem mimics_document (location : String) (position : Position) (document : Tree)
    {p q : Progress} (hpq : q.sources = p.sources) :
    T.Mimics [] ((c.tellDocument heard location position document).run p)
      (((c.told s load extra).resolveDocument location position document).run q) (fun _ => [])
      SameStep := by
  have hparallel : c.Parallel heard s load extra unheard fun {_} x y => MimicsStep T [] x y := {
    bind := fun hx hf => hx.bind hf
    still := fun hx => .still hx
    all := mimics_all hT hdirectory hplaces hfiles hload
    spent := fun _ location y p q _ => .of_throw (hT.unbounded _ ⟨_, _, rfl⟩) }
  have hplain := hparallel.document location position document p q hpq
  rwa [tellDocument_plain] at hplain

end Including

end Steps

end Scope

/-! ## Loads -/

namespace Settings

open Terms (Mimics)

/-- The settings without the cache. -/
def uncached (s : Settings) : Settings := { s with cache := none }

variable {s : Settings} {w₀ : World} {T : Terms κ} {A : Request → Prop}
  {queries : Request → List κ}

theorem storeFor?_uncached (keys : Option (List String)) : s.uncached.storeFor? keys = none :=
  storeFor?_eq_none (.inl rfl)

/-- Without a cache, the request has the tree in a world kin to `w₀`. -/
def Has (s : Settings) (w₀ : World) (request : Request) (t : Tree) : Prop :=
  ∃ budget u l u', Kin w₀ u ∧ outcome (s.uncached.loadFile budget request) u = (.ok (t, l), u')

/-- Without a cache, the request has no other tree in worlds kin to `w₀`, and only errors in `E`. -/
def HasOnly (s : Settings) (w₀ : World) (E : Error → Prop) (request : Request) (t : Tree) : Prop :=
  ∀ budget u, Kin w₀ u → match (outcome (s.uncached.loadFile budget request) u).1 with
    | .ok result => result.1 = t
    | .error e => E e

/-- In another world, all that loads of requests in `A` ask about is as it is in `w₀`, if only
entries are met that may be. There are at least as many files. -/
structure Agrees (s : Settings) (w₀ : World) (Met : Meeting → Prop) (A : Request → Prop)
    (v : World) : Prop where
  directory : v.directory = w₀.directory
  size : w₀.nodes.length ≤ v.nodes.length
  places : ∀ owner entry, s.places v owner entry = s.places w₀ owner entry
  files : ∀ m, Met m → ∀ p ∈ m.searched, v.hasFile p = w₀.hasFile p
  document : ∀ r, A r → (v.document r.path).1 = (w₀.document r.path).1

/-- A loader serves requests in `A`, for each of which the cache is asked `queries`: fit worlds
agree with that of the terms, the cache answers with what the request has without a cache, and what
the request has may be kept. -/
structure Serves (s : Settings) (T : Terms κ) (A : Request → Prop)
    (queries : Request → List κ) : Prop extends T.Lawful where
  agrees : ∀ l v, T.Fit l v → s.Agrees T.world T.Met A v
  included : ∀ r, A r → ∀ file, T.Finds file → ∀ location,
    let r' := s.includedRequest r.pathField file r.chain location
    A r' ∧ queries r' = T.ask file
  answered : ∀ r, A r → ∀ l v, T.Fit (queries r ++ l) v → ∃ hit v',
    outcome (cached (s.storeFor? r.cacheKeys) [r.path]) v = (.ok hit, v') ∧
      T.Fit (queries r ++ l) v' ∧
      ∀ result ∈ hit, s.HasOnly T.world T.Excused r result.1
  kept : ∀ r, A r → ∀ l v, T.Fit (queries r ++ l) v → ∀ t ledger what, s.Has T.world r t →
    ∃ ledger' v', outcome (keep (s.storeFor? r.cacheKeys) [r.path] what t ledger) v =
      (.ok (t, ledger'), v') ∧ T.Fit l v'

/-- What is asked when a file is loaded. -/
def loadRequest (s : Settings) (w : World) (path : FilePath) (o : LoadOptions) : Request :=
  o.request (FilePath.normalize w.directory path) (s.loadKeys? o)

/-- Load a file that the cache has no result for. -/
def loadAnew (s : Settings) (budget : Nat) (request : Request) :
    ExceptT Error InWorld (Tree × Ledger) := do
  match ← Host.document request.path with
  | none => throw (.unreadable request.path)
  | some document =>
    let ledger ← Ledger.empty.add request.path
    let (tree, consulted) ← s.resolveFor
      (fun path chain location =>
        s.loadFile budget (s.includedRequest request.pathField path chain location))
      request document
    keep (s.storeFor? request.cacheKeys) [request.path] request.path.text
      (withPath request.pathField request.path tree) (ledger.update consulted)

theorem loadFile_run_of_miss {budget : Nat} {request : Request} {v v' : World}
    (h : outcome (cached (s.storeFor? request.cacheKeys) [request.path]) v = (.ok none, v')) :
    outcome (s.loadFile (budget + 1) request) v = outcome (s.loadAnew budget request) v' :=
  outcome_bind_of_ok h _

theorem loadFile_run_of_hit {budget : Nat} {request : Request} {hit : Tree × Ledger} {v v' : World}
    (h : outcome (cached (s.storeFor? request.cacheKeys) [request.path]) v = (.ok (some hit), v')) :
    outcome (s.loadFile (budget + 1) request) v = (.ok hit, v') :=
  outcome_bind_of_ok h _

/-- What a document is resolved to is what the request for it has. -/
theorem has_of_resolved {budget : Nat} {request : Request} {document tree : Tree} {l : Ledger}
    {u u' : World} (hdocument : (w₀.document request.path).1 = some document) (hu : Kin w₀ u)
    (hresolved : outcome (s.uncached.resolveFor (fun path chain location =>
        s.uncached.loadFile budget
          (s.uncached.includedRequest request.pathField path chain location))
      request document) u = (.ok (tree, l), u')) :
    s.Has w₀ request (withPath request.pathField request.path tree) := by
  have hread : Kin w₀ (w₀.document request.path).2 := (Grown.read w₀ request.path).toKin
  obtain ⟨added, w₁, hadd, -⟩ :=
    leaves_add (SameFiles.unnoted w₀).noting .empty request.path (w₀.document request.path).2
  have hw₁ : Kin w₀ w₁ := hread.trans ((blind_add .empty request.path).kin hadd)
  have hblind : Blind (s.uncached.resolveFor (fun path chain location =>
      s.uncached.loadFile budget (s.uncached.includedRequest request.pathField path chain location))
    request document) := blind_resolveFor (fun _ _ => blind_loadFile rfl budget _) document
  obtain ⟨_, _, hsame, -⟩ := hblind (hu.symm.trans hw₁)
  rw [hresolved] at hsame
  rcases hagain : outcome (s.uncached.resolveFor (fun path chain location =>
      s.uncached.loadFile budget (s.uncached.includedRequest request.pathField path chain location))
    request document) w₁ with ⟨r, w₂⟩
  rw [hagain] at hsame
  cases hsame
  refine ⟨budget + 1, w₀, added.update l, w₂, .refl w₀, ?_⟩
  have hmiss : outcome (cached (s.uncached.storeFor? request.cacheKeys) [request.path]) w₀ =
      (.ok none, w₀) := by
    rw [storeFor?_uncached]
    rfl
  have hdocument' : outcome (Host.document request.path) w₀ =
      (.ok (some document), (w₀.document request.path).2) := by
    rw [← hdocument]
    rfl
  rw [loadFile_run_of_miss hmiss, loadAnew, outcome_bind_of_ok hdocument']
  dsimp only
  rw [outcome_bind_of_ok hadd, outcome_bind_of_ok hagain, storeFor?_uncached]
  rfl

section Serving

variable (h : s.Serves T A queries)
include h

theorem mimics_resolveFor {load load' : FilePath → List FilePath → String →
      ExceptT Error InWorld (Tree × Ledger)}
    {heard : FilePath → List FilePath → String → World → List Meeting} {request : Request}
    (hload : ∀ file, T.Finds file → ∀ location,
      T.Mimics (T.ask file)
        ⟨load file request.chain location, heard file request.chain location⟩
        (load' file request.chain location) (fun _ => []) fun a b => b.1 = a.1) (document : Tree) :
    T.Mimics [] (s.uncached.tellResolve load heard request document)
      (s.resolveFor load' request document) (fun _ => []) fun a b => b.1 = a.1 := by
  have hroom : T.Mimics [] (Telling.quiet nestingRoom)
      (nestingRoom : ExceptT Error InWorld Nat) (fun _ => []) (· ≤ ·) := by
    refine .asks (fun _ => rfl) (fun _ => rfl) fun u v l hu hv => Nat.mul_le_mul_left _ ?_
    have := (h.agrees l v hv).size
    rw [hu.nodes]
    omega
  unfold tellResolve resolveFor
  refine hroom.bind fun room room' hle => ?_
  obtain ⟨extra, rfl⟩ := Nat.exists_eq_add_of_le hle
  have hdocument : T.Mimics []
      (((s.uncached.scope load request room).tellDocument heard request.location request.position
        document).run ⟨request.sourcesWith document, Ledger.empty⟩)
      ((((s.uncached.scope load request room).told s load' extra).resolveDocument request.location
        request.position document).run ⟨request.sourcesWith document, Ledger.empty⟩)
      (fun _ => []) Scope.SameStep :=
    Scope.mimics_document h.toLawful (fun l v hv => (h.agrees l v hv).directory)
      (fun l v hv => (h.agrees l v hv).places _) (fun l v hv => (h.agrees l v hv).files)
      hload _ _ document rfl
  exact hdocument.bind fun r r' hr => .pure hr.1

/-- A loader that serves mimics one without a cache. It may go deeper. -/
theorem mimics_loadFile {budget budget' : Nat} (hle : budget ≤ budget') {request : Request}
    (hr : A request) : T.Mimics (queries request) (s.uncached.followFile [] budget request)
      (s.loadFile budget' request) (fun _ => []) fun a b => b.1 = a.1 := by
  induction budget generalizing budget' request with
  | zero => exact .of_throw (h.unbounded _ ⟨_, _, rfl⟩)
  | succ budget ih =>
    obtain ⟨budget', rfl⟩ : ∃ n, budget' = n + 1 := ⟨budget' - 1, by omega⟩
    intro u v more hu hv hmeets
    rw [List.append_assoc] at hv
    obtain ⟨hit, v₁, hcached, hv₁, hhit⟩ := h.answered request hr _ v hv
    cases hit with
    | some hit =>
      have honly := hhit hit rfl (budget + 1) u hu
      rw [loadFile_run_of_hit hcached, followFile_run]
      refine ⟨fun a u' hrun => ?_, fun e u' hrun => ?_⟩
      · rw [hrun] at honly
        refine ⟨hu.trans ((blind_loadFile rfl _ _).kin hrun), hit, v₁, rfl, honly.symm, ?_⟩
        refine h.fewer _ _ v₁ (List.Sublist.subperm ?_) hv₁
        exact (List.sublist_append_right _ _).trans (List.sublist_append_right _ _)
      · rw [hrun] at honly
        exact .inl honly
    | none =>
      rw [loadFile_run_of_miss hcached]
      suffices hanew : T.Mimics (queries request) (s.uncached.followFile [] (budget + 1) request)
          ((pure () : ExceptT Error InWorld Unit) >>= fun _ => s.loadAnew budget' request)
          (fun _ => []) fun a b => b.1 = a.1 by
        rw [← List.append_assoc] at hv₁
        exact hanew hu hv₁ hmeets
      have hmiss : T.Mimics (queries request)
          (s.uncached.followCached [] (s.uncached.storeFor? request.cacheKeys) [request.path])
          (pure () : ExceptT Error InWorld Unit) (fun _ => queries request)
          fun a _ => a = none := by
        rw [storeFor?_uncached]
        refine fun u v more hu hv _ => ⟨fun a u' hrun => ?_, fun _ _ hrun => by cases hrun⟩
        cases hrun
        have hnothing : (s.uncached.followCached [] none [request.path]).meets u = [] := rfl
        rw [hnothing, List.flatMap_nil, List.append_nil] at hv
        exact ⟨hu, (), v, rfl, rfl, hv⟩
      have hread : T.Mimics (queries request) (Telling.quiet (Host.document request.path))
          (Host.document request.path : ExceptT Error InWorld _) (fun _ => queries request)
          fun a b => b = a ∧ (T.world.document request.path).1 = a := by
        refine fun u v more hu hv _ => ⟨fun a u' hrun => ?_, fun _ _ hrun => by cases hrun⟩
        cases hrun
        have hsame : (u.document request.path).1 = (T.world.document request.path).1 :=
          hu.toSameFiles.document_eq request.path
        replace hv : T.Fit (queries request ++ more) v := by simpa [Telling.quiet] using hv
        exact ⟨hu.trans (Grown.read u request.path).toKin, _, _, rfl,
          ⟨((h.agrees _ v hv).document request hr).trans hsame.symm, hsame.symm⟩,
          (h.unnoted _).parsed hv _⟩
      unfold followFile loadAnew
      refine hmiss.bind fun hit _ hnone => ?_
      subst hnone
      refine hread.bind fun document document' hdocument => ?_
      obtain ⟨rfl, hdocument⟩ := hdocument
      cases document' with
      | none => exact .fails (fun _ => rfl) fun _ => rfl
      | some document =>
        refine (Mimics.note h.toLawful (blind_add .empty request.path)
          (leaves_add · .empty request.path) (leaves_add · .empty request.path)).bind
          fun added added' _ => ?_
        have hload : ∀ file, T.Finds file → ∀ location,
            T.Mimics (T.ask file)
              ⟨s.uncached.loadFile budget
                (s.uncached.includedRequest request.pathField file request.chain location),
              (s.uncached.followFile [] budget
                (s.uncached.includedRequest request.pathField file request.chain location)).meets⟩
              (s.loadFile budget'
                (s.includedRequest request.pathField file request.chain location))
              (fun _ => []) fun a b => b.1 = a.1 := by
          intro file hfound location
          obtain ⟨hasked, hqueries⟩ := h.included request hr file hfound location
          rw [← hqueries]
          exact (ih (by omega) hasked).of_run (followFile_run budget _)
        have hresolved : T.Mimics [] (s.uncached.tellResolve
              (fun path chain location => s.uncached.loadFile budget
                (s.uncached.includedRequest request.pathField path chain location))
              (fun path chain location => (s.uncached.followFile [] budget
                (s.uncached.includedRequest request.pathField path chain location)).meets)
              request document)
            (s.resolveFor
              (fun path chain location => s.loadFile budget'
                (s.includedRequest request.pathField path chain location))
              request document)
            (fun _ => []) fun a b => b.1 = a.1 := mimics_resolveFor h hload document
        refine (hresolved.attained.frame h.toLawful (queries request)).bind fun r r' hr' => ?_
        obtain ⟨tree, l⟩ := r
        obtain ⟨tree', l'⟩ := r'
        obtain ⟨rfl, u₁, u₂, hu₁, hresolved⟩ := hr'
        rw [tellResolve_run] at hresolved
        intro u v more hu hv _
        replace hv : T.Fit (queries request ++ more) v := by simpa [Telling.quiet] using hv
        obtain ⟨kept, v', hkeep, hv'⟩ := h.kept request hr more v hv _ (added'.update l')
          request.path.text (has_of_resolved hdocument hu₁ hresolved)
        rw [storeFor?_uncached]
        refine ⟨fun a u' hrun => ?_, fun _ _ hrun => by cases hrun⟩
        cases hrun
        exact ⟨hu, _, v', hkeep, rfl, hv'⟩

/-- Both normalize a path alike. -/
theorem mimics_normalize {pre : List κ} (path : FilePath) :
    T.Mimics pre (Telling.quiet (Host.normalize path))
      (Host.normalize path : ExceptT Error InWorld FilePath) (fun _ => pre)
      fun a b => b = a ∧ a = FilePath.normalize T.world.directory path :=
  .asks (fun _ => rfl) (fun _ => rfl) fun u v l hu hv => by
    rw [(h.agrees l v hv).directory, hu.directory]
    exact ⟨rfl, rfl⟩

/-- So many files may include one another, at least. -/
theorem mimics_fileBound {pre : List κ} : T.Mimics pre (Telling.quiet Host.fileBound)
    (Host.fileBound : ExceptT Error InWorld Nat) (fun _ => pre) (· ≤ ·) :=
  .asks (fun _ => rfl) (fun _ => rfl) fun u v l hu hv => by
    rw [hu.nodes]
    exact (h.agrees l v hv).size

theorem mimics_load {path : FilePath} {o : LoadOptions} (hr : A (s.loadRequest T.world path o)) :
    T.Mimics (queries (s.loadRequest T.world path o)) (s.uncached.followLoad [] path o)
      (s.load path o) (fun _ => []) fun a b => b.1 = a.1 := by
  unfold followLoad load
  refine (mimics_normalize h path).bind fun path path' hpath => ?_
  obtain ⟨rfl, rfl⟩ := hpath
  exact (mimics_fileBound h).bind fun _ _ hle => mimics_loadFile h (Nat.succ_le_succ hle) hr

theorem mimics_resolve {owner : FilePath} {o : LoadOptions}
    (hr : ∀ file, T.Finds file → ∀ chain location,
      let r := s.includedRequest o.pathField file chain location
      A r ∧ queries r = T.ask file) (document : Tree) :
    T.Mimics [] (s.uncached.followResolve [] document owner o) (s.resolve document owner o)
      (fun _ => []) fun a b => b.1 = a.1 := by
  unfold followResolve resolve
  refine (mimics_normalize h owner).bind fun owner owner' howner => ?_
  obtain ⟨rfl, -⟩ := howner
  refine (mimics_fileBound h).bind fun budget budget' hle => ?_
  refine mimics_resolveFor h (fun file hfound location => ?_) document
  obtain ⟨hasked, hqueries⟩ := hr file hfound [owner'] location
  rw [← hqueries]
  exact (mimics_loadFile h hle hasked).of_run (followFile_run budget _)

theorem mimics_section {o : NestedOptions} {file : FilePath}
    (hr : A (s.loadRequest T.world file o.forFile)) :
    T.Mimics (queries (s.loadRequest T.world file o.forFile)) (s.uncached.followSection [] o file)
      (s.loadSection o file) (fun _ => []) fun a b => b.1 = a.1 := by
  unfold followSection loadSection
  refine (mimics_load h hr).bind fun r r' hr' => ?_
  obtain ⟨tree, l⟩ := r
  obtain ⟨tree', l'⟩ := r'
  obtain rfl : tree' = tree := hr'
  dsimp only
  cases o.schema with
  | none => exact .pure rfl
  | some schema =>
    dsimp only
    cases schema.apply tree' with
    | ok tree => exact .pure rfl
    | error mismatch => exact .fails (fun _ => rfl) fun _ => rfl

theorem mimics_assembly {o : NestedOptions} {files : List FilePath}
    (hr : ∀ file ∈ files, A (s.loadRequest T.world file o.forFile)) (sections : List FileSection)
    (l l' : Ledger) :
    T.Mimics (files.flatMap fun file => queries (s.loadRequest T.world file o.forFile))
      (s.uncached.followAssembly [] o sections l files) (s.assembleFrom o sections l' files)
      (fun _ => []) fun a b => b.1 = a.1 := by
  induction files generalizing sections l l' with
  | nil => exact .pure rfl
  | cons file rest ih =>
    have hfile := (mimics_section h (hr file List.mem_cons_self)).frame h.toLawful
      (rest.flatMap fun file => queries (s.loadRequest T.world file o.forFile))
    unfold followAssembly assembleFrom
    refine hfile.bind fun r r' hsection => ?_
    obtain ⟨new, consulted⟩ := r
    obtain ⟨new', consulted'⟩ := r'
    obtain rfl : new' = new := hsection
    have hrest : T.Mimics (rest.flatMap fun file => queries (s.loadRequest T.world file o.forFile))
        (s.uncached.followAssembly [] o (putSection sections new') (l.update consulted) rest)
        (s.assembleFrom o (putSection sections new') (l'.update consulted') rest)
        (fun _ => []) fun a b => b.1 = a.1 :=
      ih (fun file hfile => hr file (List.mem_cons_of_mem _ hfile)) _ _ _
    dsimp only
    cases sections.find? (·.name == new'.name) with
    | none => exact hrest
    | some old =>
      exact (Mimics.note h.toLawful (blind_warn _) (leaves_warn · _) (leaves_warn · _)).bind
        fun _ _ _ => hrest

/-- A nested load that the cache has no result for ends as one without a cache. -/
theorem sameEnd_nested {o : NestedOptions} {files : List FilePath} {u v v' : World}
    (hu : Kin T.world u) (hdirectory : v.directory = T.world.directory)
    (hmiss : outcome (cached (s.storeFor? (s.nestedKeys? o))
      (files.map (FilePath.normalize T.world.directory))) v = (.ok none, v'))
    (hr : ∀ file ∈ files.map (FilePath.normalize T.world.directory),
      A (s.loadRequest T.world file o.forFile))
    (hfit : T.Fit ((files.map (FilePath.normalize T.world.directory)).flatMap
        (fun file => queries (s.loadRequest T.world file o.forFile)) ++
      ((s.uncached.followNested [] files o).meets u).flatMap T.asked) v')
    (hmeets : ∀ m ∈ (s.uncached.followNested [] files o).meets u, T.Met m) :
    SameEnd T.Excused (outcome (s.uncached.loadNested files o) u).1
      (outcome (s.loadNested files o) v).1 := by
  obtain ⟨normal, hnormal⟩ : ∃ l, l = files.map (FilePath.normalize T.world.directory) := ⟨_, rfl⟩
  rw [← hnormal] at hmiss hr hfit
  have hnormalized : outcome (files.mapM Host.normalize : ExceptT Error InWorld _) u =
      (.ok normal, u) := by
    rw [mapM_normalize_run, hu.directory, hnormal]
  have hnormalized' : outcome (files.mapM Host.normalize : ExceptT Error InWorld _) v =
      (.ok normal, v) := by
    rw [mapM_normalize_run, hdirectory, hnormal]
  obtain ⟨assembly, hassembly⟩ : ∃ x, x = s.uncached.followAssembly [] o [] Ledger.empty normal :=
    ⟨_, rfl⟩
  have hbare : outcome (s.uncached.loadNested files o) u =
      outcome (assembly.run >>= fun r => pure (sectionsTree r.1, r.2)) u := by
    rw [loadNested, outcome_bind_of_ok hnormalized, storeFor?_uncached, hassembly,
      followAssembly_run]
    rfl
  have hcached : outcome (s.loadNested files o) v = outcome (s.assemble o normal >>= fun r =>
      keep (s.storeFor? (s.nestedKeys? o)) normal
        ("nested load of " ++ toString normal.length ++ " file(s)") (sectionsTree r.1) r.2) v' := by
    rw [loadNested, outcome_bind_of_ok hnormalized', outcome_bind_of_ok hmiss]
  have htold : (s.uncached.followNested [] files o).meets u = assembly.meets u := by
    have hlast : Telling.after assembly.run (fun _ _ => []) u = [] := by
      unfold Telling.after
      split <;> rfl
    have hrest : (s.uncached.followNested [] files o).meets u =
        assembly.meets u ++ Telling.after assembly.run (fun _ _ => []) u := by
      rw [hassembly]
      exact (Telling.after_of_ok hnormalized _).trans rfl
    rw [hrest, hlast, List.append_nil]
  rw [htold] at hfit hmeets
  have hassembled := mimics_assembly h hr [] Ledger.empty Ledger.empty
  rw [← hassembly] at hassembled
  rw [hbare, hcached]
  rcases hrun : outcome assembly.run u with ⟨e | r, u'⟩
  · rw [outcome_bind_of_error hrun]
    refine ⟨(fun _ _ heq => by cases heq), fun e' heq => ?_⟩
    cases heq
    rcases hassembled.of_error hu hfit hmeets hrun with hexcused | ⟨w, hfails⟩
    · exact .inl hexcused
    · rw [assemble, outcome_bind_of_error hfails]
      exact .inr rfl
  · obtain ⟨r', w, hends, hsections, -⟩ := hassembled.of_ok hu hfit hmeets hrun
    obtain ⟨result, w', hkeep, -⟩ := leaves_keep sameTime_writing (s.storeFor? (s.nestedKeys? o))
      normal ("nested load of " ++ toString normal.length ++ " file(s)") (sectionsTree r'.1) r'.2 w
    rw [outcome_bind_of_ok hrun, assemble, outcome_bind_of_ok hends, hkeep]
    refine ⟨fun t l heq => ?_, (fun _ heq => by cases heq)⟩
    cases heq
    exact ⟨result.2, by rw [← hsections, ← keep_fst hkeep]⟩

end Serving

theorem Agrees.refl (s : Settings) (w : World) (Met : Meeting → Prop) (A : Request → Prop) :
    s.Agrees w Met A w := ⟨rfl, le_rfl, fun _ _ => rfl, fun _ _ _ _ => rfl, fun _ _ => rfl⟩

theorem Agrees.of_sameFiles {Met : Meeting → Prop} {w v : World} (h : s.Agrees w₀ Met A w)
    (hv : SameFiles w v) : s.Agrees w₀ Met A v where
  directory := hv.directory.trans h.directory
  size := by rw [hv.nodes]; exact h.size
  places owner entry := (hv.places_eq owner entry).trans (h.places owner entry)
  files m hm p hp := by rw [hv.hasFile_eq, h.files m hm p hp]
  document r hr := (hv.document_eq r.path).trans (h.document r hr)

/-- A loader without a cache may work in any world with the files of one, and has no questions. -/
def uncachedTerms (w₀ w : World) (Met : Meeting → Prop) : Terms Unit where
  world := w₀
  Fit _ := SameFiles w
  Met := Met
  Excused := Error.IsUnbounded
  ask _ := []

theorem serves_uncached {Met : Meeting → Prop} {w : World} (h : s.Agrees w₀ Met A w)
    (hincluded : ∀ r, A r → ∀ file, (uncachedTerms w₀ w Met).Finds file → ∀ location,
      A (s.includedRequest r.pathField file r.chain location)) :
    s.uncached.Serves (uncachedTerms w₀ w Met) A fun _ => [] where
  unnoted _ := SameFiles.unnoted w
  fewer _ _ _ _ hv := hv
  unbounded _ he := he
  agrees _ _ hv :=
    (show s.uncached.Agrees w₀ Met A w from ⟨h.1, h.2, h.3, h.4, h.5⟩).of_sameFiles hv
  included r hr file hfile location := ⟨hincluded r hr file hfile location, rfl⟩
  answered r _ l v hv := by
    refine ⟨none, v, ?_, hv, nofun⟩
    rw [storeFor?_uncached]
    rfl
  kept r _ l v hv t ledger what _ := by
    refine ⟨ledger, v, ?_, hv⟩
    rw [storeFor?_uncached]
    rfl

/-- A request that differs only in who includes the file and where has the same tree, unless it
fails because files include each other or the document is unbounded. -/
theorem Has.only {request request' : Request} {t : Tree} (h : s.Has w₀ request t)
    (hakin : request.Akin request') :
    s.HasOnly w₀ (fun e => e.IsCycle ∨ e.IsUnbounded) request' t := by
  obtain ⟨budget₀, u₀, l, u₀', hu₀, hrun₀⟩ := h
  intro budget u hu
  obtain ⟨_, _, hsame, -⟩ :=
    blind_loadFile (s := s.uncached) rfl budget₀ request (hu₀.symm.trans hu)
  rw [hrun₀] at hsame
  rcases hrun₁ : outcome (s.uncached.loadFile budget₀ request) u with ⟨r, u₁⟩
  rw [hrun₁] at hsame
  cases hsame
  rcases hrun : outcome (s.uncached.loadFile budget request') u with ⟨e | r, u₂⟩
  · by_cases hunbounded : e.IsUnbounded
    · exact .inr hunbounded
    · -- A load that may go as deep as both fails in the same way.
      have hserves : s.uncached.Serves (uncachedTerms w₀ w₀ fun _ => True) (fun _ => True)
          fun _ => [] :=
        serves_uncached (.refl s w₀ _ _) fun _ _ _ _ _ => trivial
      have hdeeper : (uncachedTerms w₀ w₀ _).Mimics [] (s.uncached.followFile [] budget request')
          (s.uncached.loadFile (max budget budget₀) request') (fun _ => []) fun a b => b.1 = a.1 :=
        mimics_loadFile hserves (Nat.le_max_left budget budget₀) trivial
      rw [← followFile_run] at hrun
      obtain ⟨u₃, hfails⟩ :=
        (hdeeper.of_error hu hu.toSameFiles (fun _ _ => trivial) hrun).resolve_left hunbounded
      exact .inl ((mirrored_akin (s := s.uncached) rfl (Nat.le_max_right budget budget₀)
        hakin).of_error hrun₁ hfails)
  · rcases Nat.le_total budget₀ budget with hle | hle
    · obtain ⟨heq, -⟩ := (mirrored_akin (s := s.uncached) rfl hle hakin).eq_of_ok hrun₁ hrun
      rw [← heq]
    · obtain ⟨heq, -⟩ := (mirrored_akin (s := s.uncached) rfl hle hakin.symm).eq_of_ok hrun hrun₁
      rw [heq]

end Settings

end LayeredConfig
