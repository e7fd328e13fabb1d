import LayeredConfig.Digest.Sha256
import LayeredConfig.Path.File

/-!
# Keys of the cache

The key of a result is a digest of the paths it was computed from and of the settings that matter
for it. A zero byte ends each path and each setting, and between the two lists stands a byte that no
text has, so that different requests never have the same material.
-/

namespace LayeredConfig.Cache

/-- The bytes of texts, each ended by a zero byte. -/
def listed (texts : List String) : ByteArray :=
  texts.foldl (fun bytes s => (bytes ++ s.toUTF8).push 0) ByteArray.empty

/-- The bytes that are digested. -/
def material (paths : List FilePath) (settings : List String) : ByteArray :=
  (listed (paths.map FilePath.text)).push 0xFF ++ listed settings

/-- The key of a request, its paths being taken from a working directory. -/
def key (directory : FilePath) (paths : List FilePath) (settings : List String) : String :=
  Sha256.hex (material (paths.map (FilePath.normalize directory)) settings)

end LayeredConfig.Cache
