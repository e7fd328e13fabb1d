import LayeredConfig.Command.Basic
import LayeredConfig.Proofs.Alike
import LayeredConfig.Proofs.Command.StandIns

/-!
# Commands without a cache

The environment has two variables for the cache of a command that loads files: one switches it off,
the other names its directory. When the first is set, there is no cache unless the other is set as
well, for then the directory stands in for the option `--cache-root`, which is stronger
(`cache_despite_variable`). Without a cache, no load changes a file.
-/

namespace LayeredConfig

open Arguments

namespace Command

/-- What a command that loads files says of settings. -/
def flags? : Command → Option LoaderFlags
  | .resolve _ _ _ _ flags => some flags
  | .nested _ _ _ _ _ flags => some flags
  | .deps _ _ flags => some flags
  | .entries _ _ => none
  | .clean _ _ => none
  | .completions _ => none

/-- The option for the directory of the cache is known by its name only. -/
theorem grammar_byName : grammar.ByName cacheRoot.name := by
  have hleaf : ∀ {options : List Parameter} {slot : Option Parameter},
      (∀ p ∈ options, p.name = cacheRoot.name → p.takesValue ∧ p.short = none) →
      (∀ p ∈ slot, p.name ≠ cacheRoot.name) → (Grammar.leaf options slot).ByName cacheRoot.name :=
    fun options slot => .intro options slot nofun nofun
  have hcache : cacheGrammar.ByName cacheRoot.name :=
    .intro (by decide) nofun (by decide) (List.forall_mem_cons.2 ⟨hleaf (by decide) nofun,
      List.forall_mem_cons.2 ⟨hleaf (by decide) nofun, nofun⟩⟩)
  refine .intro (by decide) nofun (by decide) ?_
  refine List.forall_mem_cons.2 ⟨hleaf (by decide) (by decide), ?_⟩
  refine List.forall_mem_cons.2 ⟨hleaf (by decide) (by decide), ?_⟩
  refine List.forall_mem_cons.2 ⟨hleaf (by decide) (by decide), ?_⟩
  refine List.forall_mem_cons.2 ⟨hcache, ?_⟩
  exact List.forall_mem_cons.2 ⟨hleaf (by decide) (by decide), nofun⟩

/-- A command that loads files is one of three, and says of settings what was given. -/
theorem flags_of_reading {r : Reading} {command : Command} {flags : LoaderFlags}
    (hcommand : ofReading? r = some command) (hflags : command.flags? = some flags) :
    (r.commands = ["resolve"] ∨ r.commands = ["nested"] ∨ r.commands = ["deps"]) ∧
      flags = flagsOf r := by
  unfold ofReading? at hcommand
  split at hcommand
  next hname =>
    cases hcommand
    cases hflags
    exact ⟨.inl hname, rfl⟩
  next hname =>
    cases hcommand
    cases hflags
    exact ⟨.inr (.inl hname), rfl⟩
  next hname =>
    cases hcommand
    cases hflags
    exact ⟨.inr (.inr hname), rfl⟩
  · cases hcommand
    cases hflags
  · cases hcommand
    cases hflags
  · obtain ⟨shell, -, rfl⟩ := Option.map_eq_some_iff.1 hcommand
    cases hflags
  · cases hcommand

/-- What the environment says of the directory of the cache. -/
theorem standIns_cacheRoot (env : Environment) {commands : List String}
    (h : commands = ["resolve"] ∨ commands = ["nested"] ∨ commands = ["deps"]) :
    grammar.standIns env cacheRoot.name commands = (env.get? Environment.cacheName).toList := by
  have hown : ∀ g : Grammar, g.options.filter (·.name == cacheRoot.name) = [cacheRoot] →
      g.standIns env cacheRoot.name [] = (env.get? Environment.cacheName).toList := by
    intro g hg
    rw [Grammar.standIns, Grammar.standIn?, hg, List.findSome?_singleton]
    rfl
  rcases h with rfl | rfl | rfl
  · exact hown resolveGrammar rfl
  · exact hown nestedGrammar rfl
  · exact hown depsGrammar rfl

end Command

namespace Invocation

open Command

variable {env : Environment} {arguments : List String} {i : Invocation} {flags : LoaderFlags}

/-- The directory of the cache in what is read is the one the environment names, if no argument
gives one. -/
theorem cacheRoot_of_read (hread : Invocation.read env arguments = .ok i)
    (hflags : i.command.flags? = some flags) (harguments : ¬ Mentions cacheRoot.name arguments) :
    flags.cacheRoot = (env.get? Environment.cacheName).map FilePath.mk := by
  obtain ⟨r, hgrammar, hread⟩ := except_bind_ok hread
  cases hcommand : Command.ofReading? r with
  | none =>
    rw [hcommand] at hread
    cases hread
  | some command =>
    rw [hcommand] at hread
    cases hread
    obtain ⟨hcommands, rfl⟩ := flags_of_reading hcommand hflags
    have hall := Grammar.all_of_read grammar_byName hgrammar harguments
    rw [standIns_cacheRoot env hcommands] at hall
    change (r.all cacheRoot.name).getLast?.map FilePath.mk = _
    rw [hall]
    cases env.get? Environment.cacheName <;> rfl

/-- With the variable that switches the cache off, there is a cache only if the other variable names
its directory; else no load changes a file. -/
theorem cache_of_switched_off (hoff : (env.get? Environment.noCacheName).isSome = true)
    (hread : Invocation.read env arguments = .ok i) (hflags : i.command.flags? = some flags)
    (harguments : ¬ Mentions cacheRoot.name arguments) :
    (flags.settings env).cache =
        (if flags.noCache then none else (env.get? Environment.cacheName).map FilePath.mk) ∧
      ((flags.noCache = true ∨ env.get? Environment.cacheName = none) → ∀ (task : Task) (w : World),
        SameFiles w (outcome ((flags.settings env).perform task) w).2) := by
  have hcache : (flags.settings env).cache =
      if flags.noCache then none else (env.get? Environment.cacheName).map FilePath.mk := by
    change (if flags.noCache then none else flags.cacheRoot.or
      (if (env.get? Environment.noCacheName).isSome then none else _)) = _
    rw [if_pos hoff, Option.or_none, cacheRoot_of_read hread hflags harguments]
  refine ⟨hcache, fun hnone task w => Settings.sameFiles_of_uncached ?_ task w⟩
  rw [hcache]
  rcases hnone with h | h
  · rw [if_pos h]
  · rw [h]
    exact ite_self _

theorem resolve_switched_off :
    Invocation.read [(Environment.noCacheName, "")] ["resolve", "root.yml"] =
      .ok ⟨warnLevel, .resolve ⟨"root.yml"⟩ [] none ⟨.yaml, none⟩ ⟨none, false, [], []⟩⟩ ∧
    ∀ (task : Task) (w : World), SameFiles w (outcome ((LoaderFlags.settings ⟨none, false, [], []⟩
      [(Environment.noCacheName, "")]).perform task) w).2 := by
  have hread : Invocation.read [(Environment.noCacheName, "")] ["resolve", "root.yml"] =
      .ok ⟨warnLevel, .resolve ⟨"root.yml"⟩ [] none ⟨.yaml, none⟩ ⟨none, false, [], []⟩⟩ := rfl
  exact ⟨hread, (cache_of_switched_off rfl hread rfl (by decide)).2 (.inr rfl)⟩

end Invocation

end LayeredConfig
