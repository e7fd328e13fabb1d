import LayeredConfig.Glob.Walk
import LayeredConfig.Proofs.Search

/-!
# Patterns are expanded without a trace

To expand a pattern, directories are listed and paths are looked at. It always has a result, and
nothing is changed by it (`asks_files`). `Reaches` says by what a path is found: each name on the
way to it is that of a component, one that a component matches, or one that any number of
directories stand for.
-/

namespace LayeredConfig

variable {α β : Type} {w : World}

/-- The computation, begun in the world, has a result in `Q` and leaves the world as it is. -/
def Asks (w : World) (x : ExceptT Error InWorld α) (Q : α → Prop) : Prop :=
  ∃ a, outcome x w = (.ok a, w) ∧ Q a

namespace Asks

variable {Q Q' : α → Prop} {x : ExceptT Error InWorld α}

theorem pure {a : α} (h : Q a) : Asks w (pure a) Q := ⟨a, outcome_pure a w, h⟩

theorem bind {R : β → Prop} {f : α → ExceptT Error InWorld β} (hx : Asks w x Q)
    (hf : ∀ a, Q a → Asks w (f a) R) : Asks w (x >>= f) R := by
  obtain ⟨a, hrun, ha⟩ := hx
  obtain ⟨b, hrun', hb⟩ := hf a ha
  exact ⟨b, (outcome_bind_of_ok hrun f).trans hrun', hb⟩

theorem mono (h : Asks w x Q) (hQ : ∀ a, Q a → Q' a) : Asks w x Q' :=
  h.imp fun a ha => ha.imp_right (hQ a)

/-- The answer to a question is what the world says. -/
theorem ask (f : World → α) :
    Asks w (liftM (do return f (← get) : InWorld α)) fun a => a = f w := ⟨f w, rfl, rfl⟩

/-- The result of a computation that only asks. -/
theorem related (h : Asks w x Q) {a : α} {w' : World} (hrun : outcome x w = (.ok a, w')) :
    w' = w ∧ Q a := by
  obtain ⟨b, hrun', hb⟩ := h
  cases hrun'.symm.trans hrun
  exact ⟨rfl, hb⟩

theorem leaves {R : World → World → Prop} (hR : Noting R) (h : ∀ w, Asks w x fun _ => True) :
    Leaves R x := fun w => by
  obtain ⟨a, hrun, -⟩ := h w
  exact ⟨a, w, hrun, hR.refl w⟩

theorem mapM {Q : β → Prop} {f : α → ExceptT Error InWorld β} {items : List α}
    (hf : ∀ a ∈ items, Asks w (f a) Q) : Asks w (items.mapM f) fun bs => ∀ b ∈ bs, Q b := by
  induction items with
  | nil => exact Asks.pure nofun
  | cons a rest ih =>
    obtain ⟨ha, hrest⟩ := List.forall_mem_cons.1 hf
    rw [List.mapM_cons]
    refine ha.bind fun b hb => (ih hrest).bind fun bs hbs => Asks.pure ?_
    exact List.forall_mem_cons.2 ⟨hb, hbs⟩

theorem filterM {p : α → ExceptT Error InWorld Bool} {keep : α → Bool}
    (hp : ∀ a, Asks w (p a) fun b => b = keep a) (items : List α) :
    Asks w (items.filterM p) fun kept => kept = items.filter keep := by
  have haux : ∀ before, Asks w (items.filterAuxM p before)
      fun kept => kept = (items.filter keep).reverse ++ before := by
    induction items with
    | nil => exact fun before => Asks.pure rfl
    | cons a rest ih =>
      intro before
      unfold List.filterAuxM
      refine (hp a).bind fun b hb => (ih _).mono fun kept hkept => ?_
      subst hb hkept
      cases hkeep : keep a <;> simp [hkeep]
  refine (haux []).bind fun kept hkept => Asks.pure ?_
  rw [hkept, List.append_nil, List.reverse_reverse]

end Asks

namespace Glob

/-- How the path is found from a directory by the components of a pattern. -/
inductive Reaches (w : World) : List Component → FilePath → FilePath → Prop
  | here {dir : FilePath} : Reaches w [] dir dir
  | literal {c : Component} {rest : List Component} {dir path : FilePath} {name : List Char}
      (hname : Pattern.literal? c = some name)
      (h : Reaches w rest (below dir (String.ofList name)) path) : Reaches w (c :: rest) dir path
  | named {c : Component} {rest : List Component} {dir path : FilePath} {name : String}
      {place : Place} (hname : name ∈ w.names place) (hmatch : Pattern.isMatch c name = true)
      (h : Reaches w rest (below dir name) path) : Reaches w (c :: rest) dir path
  | special {c : Component} {rest : List Component} {dir path : FilePath} {name : String}
      (hliteral : Pattern.literal? c = none) (hname : name ∈ specialNames c)
      (h : Reaches w rest (dir.join ⟨name⟩) path) : Reaches w (c :: rest) dir path
  /-- No directory stands for the component. -/
  | skip {c : Component} {rest : List Component} {dir path : FilePath}
      (hrecursive : Pattern.isRecursive c = true) (hmore : dropRecursive (c :: rest) ≠ [])
      (h : Reaches w (dropRecursive (c :: rest)) dir path) : Reaches w (c :: rest) dir path
  /-- A directory stands for the last components. -/
  | last {c : Component} {rest : List Component} {dir : FilePath} {name : String} {place : Place}
      (hrecursive : Pattern.isRecursive c = true) (hend : dropRecursive (c :: rest) = [])
      (hname : name ∈ w.names place) : Reaches w (c :: rest) dir (below dir name)
  /-- A directory stands for the component, and others below it may. -/
  | deeper {c : Component} {rest : List Component} {dir path : FilePath} {name : String}
      {place : Place} (hrecursive : Pattern.isRecursive c = true) (hname : name ∈ w.names place)
      (h : Reaches w (c :: dropRecursive (c :: rest)) (below dir name) path) :
      Reaches w (c :: rest) dir path

theorem asks_isFile (p : FilePath) : Asks w (Host.isFile p) fun b => b = w.hasFile p := by
  refine (Asks.ask _).bind fun status hstatus => Asks.pure ?_
  rw [hstatus, World.hasFile, Option.any_map]
  congr 1
  funext node
  cases node <;> rfl

theorem asks_isDirectory (p : FilePath) :
    Asks w (Host.isDirectory p) fun b => b = w.hasDirectory p := by
  refine (Asks.ask _).bind fun status hstatus => Asks.pure ?_
  rw [hstatus, World.hasDirectory, Option.any_map]
  congr 1
  funext node
  cases node <;> rfl

theorem asks_isPresent (p : FilePath) : Asks w (Host.isPresent p) fun _ => True :=
  (Asks.ask _).bind fun _ _ => Asks.pure trivial

/-- The children of a directory are under its names. -/
theorem asks_children (dir : FilePath) : Asks w (children dir)
    fun found => ∀ e ∈ found, e.2 = below dir e.1 ∧ ∃ place, e.1 ∈ w.names place := by
  refine (asks_isDirectory dir).bind fun there _ => ?_
  split
  · exact Asks.pure nofun
  · refine (Asks.ask _).bind fun names hnames => ?_
    split
    · exact Asks.pure nofun
    next names =>
      refine Asks.pure fun e he => ?_
      obtain ⟨name, hname, rfl⟩ := List.mem_map.1 he
      refine ⟨rfl, ?_⟩
      unfold World.listing at hnames
      split at hnames <;> cases hnames
      exact ⟨_, hname⟩

section Steps

variable {onward : List Component → FilePath → ExceptT Error InWorld (List FilePath)}
  (honward : ∀ cs path, Asks w (onward cs path) fun found => ∀ p ∈ found, Reaches w cs path p)
include honward

theorem asks_arrive (rest : List Component) (path : FilePath) :
    Asks w (arrive onward rest path) fun found => ∀ p ∈ found, Reaches w rest path p := by
  unfold arrive
  split
  next hrest =>
    rw [List.isEmpty_iff.1 hrest]
    exact Asks.pure (List.forall_mem_singleton.2 .here)
  · exact honward rest path

theorem asks_visit (cs : List Component) {dir : FilePath} {name : String} {place : Place}
    (hname : name ∈ w.names place) : Asks w (visit onward cs name (below dir name))
      fun found => ∀ p ∈ found, Reaches w cs dir p := by
  unfold visit
  extract_lets named
  have hnamed : ∀ cs, Asks w (named cs) fun found => ∀ p ∈ found, cs ≠ [] ∧ Reaches w cs dir p := by
    intro cs
    unfold named
    split
    · exact Asks.pure nofun
    · split
      next hmatch =>
        refine (asks_arrive honward _ _).mono fun found hfound p hp => ⟨by simp, ?_⟩
        exact .named hname hmatch (hfound p hp)
      · exact Asks.pure nofun
  cases cs with
  | nil => exact Asks.pure nofun
  | cons c rest =>
    dsimp only
    split
    next hrecursive =>
      have hskipped := hnamed (dropRecursive (c :: rest))
      refine (asks_isDirectory _).bind fun there _ => ?_
      split
      · refine (honward _ _).bind fun deeper hdeeper => ?_
        have hbelow : ∀ p ∈ deeper, Reaches w (c :: rest) dir p :=
          fun p hp => .deeper hrecursive hname (hdeeper p hp)
        split
        next hend =>
          refine Asks.pure (List.forall_mem_cons.2 ⟨?_, hbelow⟩)
          exact .last hrecursive (List.isEmpty_iff.1 hend) hname
        · refine hskipped.bind fun found hfound => Asks.pure fun p hp => ?_
          rcases List.mem_append.1 hp with hp | hp
          · exact hbelow p hp
          · exact .skip hrecursive (hfound p hp).1 (hfound p hp).2
      · exact hskipped.mono fun found hfound p hp =>
          .skip hrecursive (hfound p hp).1 (hfound p hp).2
    · exact (hnamed (c :: rest)).mono fun found hfound p hp => (hfound p hp).2

end Steps

theorem asks_expandUnder (levels : Nat) (cs : List Component) (path : FilePath) :
    Asks w (expandUnder levels cs path) fun found => ∀ p ∈ found, Reaches w cs path p := by
  induction levels generalizing cs path with
  | zero => exact Asks.pure nofun
  | succ levels ih =>
    cases cs with
    | nil => exact Asks.pure nofun
    | cons c rest =>
      unfold expandUnder
      split
      next name hname =>
        extract_lets name' _ onward
        have honward : ∀ there, Asks w (onward there)
            fun found => ∀ p ∈ found, Reaches w (c :: rest) path p := by
          intro there
          unfold onward
          split
          · exact (asks_arrive ih rest _).mono fun found hfound p hp =>
              .literal hname (hfound p hp)
          · exact Asks.pure nofun
        split
        · exact (asks_isDirectory path).bind fun there _ => honward there
        · exact (asks_isPresent _).bind fun there _ => honward there
      next hliteral =>
        refine (asks_children path).bind fun names hnames => ?_
        have hvisit : ∀ e ∈ names, Asks w (visit (expandUnder levels) (c :: rest) e.1 e.2)
            fun found => ∀ p ∈ found, Reaches w (c :: rest) path p := by
          intro e he
          obtain ⟨hpath, place, hname⟩ := hnames e he
          rw [hpath]
          exact asks_visit ih (c :: rest) hname
        refine (Asks.mapM hvisit).bind fun found hfound => ?_
        have hall : ∀ special : List (List FilePath),
            (∀ found ∈ special, ∀ p ∈ found, Reaches w (c :: rest) path p) →
            Asks w (pure (found ++ special).flatten)
              fun found => ∀ p ∈ found, Reaches w (c :: rest) path p := by
          intro special hspecial
          refine Asks.pure fun p hp => ?_
          obtain ⟨found', hmem, hp⟩ := List.mem_flatten.1 hp
          exact (List.mem_append.1 hmem).elim (fun h => hfound _ h p hp) fun h => hspecial _ h p hp
        refine (asks_isDirectory path).bind fun there _ => ?_
        dsimp only
        split
        · refine (Asks.mapM fun name hname => ?_).bind hall
          exact (asks_arrive ih rest _).mono fun found hfound p hp =>
            .special hliteral hname (hfound p hp)
        · exact (Asks.pure nofun).bind hall

/-- What is found by a pattern. -/
def Expands (w : World) (pattern : String) (path : FilePath) : Prop :=
  ∃ cs, parseComponents pattern = .ok cs ∧
    Reaches w cs ⟨if FilePath.isAbsolute ⟨pattern⟩ then "/" else "."⟩ path

theorem asks_expand (pattern : String) :
    Asks w (expand pattern : ExceptT Error InWorld (Except Fault (List FilePath)))
      fun found => ∀ paths, found = .ok paths → ∀ p ∈ paths, Expands w pattern p := by
  unfold expand
  split
  · exact Asks.pure nofun
  next cs hcs =>
    refine (asks_expandUnder _ cs _).bind fun paths hpaths => ?_
    split
    · refine (Asks.filterM asks_isDirectory paths).bind fun kept hkept => Asks.pure ?_
      rintro _ ⟨⟩ p hp
      rw [hkept] at hp
      exact ⟨cs, hcs, hpaths p ((List.mem_filter.1 hp).1)⟩
    · refine Asks.pure ?_
      rintro _ ⟨⟩ p hp
      exact ⟨cs, hcs, hpaths p hp⟩

/-- A pattern is expanded to files it leads to, and the world is left as it is. -/
theorem asks_files (pattern : String) :
    Asks w (files pattern : ExceptT Error InWorld (Except Fault (List FilePath)))
      fun found => ∀ paths, found = .ok paths →
        ∀ p ∈ paths, w.hasFile p = true ∧ Expands w pattern p := by
  refine (asks_expand pattern).bind fun found hfound => ?_
  split
  · exact Asks.pure nofun
  next paths =>
    refine (Asks.filterM asks_isFile paths).bind fun kept hkept => Asks.pure ?_
    rintro _ ⟨⟩ p hp
    rw [FilePath.sorted, List.mem_mergeSort, hkept] at hp
    exact ⟨(List.mem_filter.1 hp).2, hfound paths rfl p ((List.mem_filter.1 hp).1)⟩

theorem leaves_files {R : World → World → Prop} (hR : Noting R) (pattern : String) :
    Leaves R (files pattern : ExceptT Error InWorld (Except Fault (List FilePath))) :=
  Asks.leaves hR fun _ => (asks_files pattern).mono fun _ _ => trivial

end Glob

theorem Leaves.mapM {R : World → World → Prop} (hR : Noting R) {f : α → ExceptT Error InWorld β}
    (hf : ∀ a, Leaves R (f a)) (items : List α) : Leaves R (items.mapM f) := by
  induction items with
  | nil => exact Leaves.pure hR
  | cons a rest ih =>
    rw [List.mapM_cons]
    exact (hf a).bind hR fun _ => ih.bind hR fun _ => Leaves.pure hR

theorem leaves_collapse {R : World → World → Prop} (hR : Noting R) (l : Ledger)
    (patterns : List String) (directory : FilePath) (attributes : Named String) :
    Leaves R (l.collapse patterns directory attributes) := by
  refine (leaves_normalize hR directory).bind hR fun directory => ?_
  split
  · exact Leaves.pure hR
  · exact (leaves_track hR _ _ _ _).bind hR fun _ => Leaves.pure hR

end LayeredConfig
