import LayeredConfig.Packages

/-!
# Settings

What a load is told beside its input: where included files are searched, where results are cached,
and where packages are found. Settings can be taken from environment variables.
-/

namespace LayeredConfig

/-- Names and values of environment variables. -/
abbrev Environment := List (String × String)

namespace Environment

/-- Where results are cached. -/
def cacheName : String := "RECIPE_CONFIG_CACHE"

/-- Results are not cached. -/
def noCacheName : String := "RECIPE_CONFIG_NO_CACHE"

/-- More directories for included files. -/
def includeName : String := "RECIPE_CONFIG_INCLUDE_PATH"

/-- Directories of packages. -/
def packageName : String := "RECIPE_CONFIG_PACKAGE_PATH"

/-- The value of a variable that is set. -/
def get? (env : Environment) (name : String) : Option String :=
  (env.find? (·.1 == name)).map Prod.snd

/-- The user's directory for caches. -/
def userCache? (env : Environment) : Option FilePath :=
  match (env.get? "XDG_CACHE_HOME").filter fun dir => FilePath.isAbsolute ⟨dir⟩ with
  | some dir => some ⟨dir⟩
  | none => ((env.get? "HOME").filter (!·.isEmpty)).map fun home => FilePath.join ⟨home⟩ ⟨".cache"⟩

/-- Where results are cached unless something else is said. -/
def defaultCache (env : Environment) : FilePath :=
  (env.userCache?.getD ⟨".recipe-config-cache"⟩).join ⟨"recipe-config"⟩

/-- The directories of a list with colons between them. -/
def directories (list : String) : List FilePath :=
  ((Text.splitAt (· == ':') list.toList).filter (!·.isEmpty)).map fun dir => ⟨String.ofList dir⟩

end Environment

/-- What a load is told beside its input. -/
structure Settings where
  /-- Where relative files are searched, after the directory of the file that includes them. -/
  includeRoots : List FilePath
  /-- Where results are cached, if they are. -/
  cache : Option FilePath
  packages : Packages
deriving DecidableEq, Repr

namespace Settings

/-- Search the working directory, cache nothing, know no packages. -/
def default : Settings := ⟨[⟨"."⟩], none, Packages.none⟩

/-- The settings environment variables ask for. -/
def ofEnvironment (env : Environment) : Settings :=
  let cache :=
    if (env.get? Environment.noCacheName).isSome then none
    else
      some (match (env.get? Environment.cacheName).filter (!·.isEmpty) with
        | some dir => ⟨dir⟩
        | none => env.defaultCache)
  let listed (name : String) : List FilePath :=
    ((env.get? name).map Environment.directories).getD []
  { includeRoots := default.includeRoots ++ listed Environment.includeName
    cache := cache
    packages := ⟨[], listed Environment.packageName⟩ }

end Settings

end LayeredConfig
