import ErbTags.Sha256

/-!
# Cache keys

A compiled template is cached under a key made of the scope of the project, the identity of the
template (as a rule its path) and the fingerprint of its source. A changed source gives a new key,
so entries never have to be invalidated.
-/

namespace ErbTags

/-- The SHA-256 digest of the source, in hexadecimal. -/
def fingerprint (source : String) : String :=
  String.ofList (Sha256.hash source.toByteArray.data.toList).hex

theorem length_fingerprint (source : String) : (fingerprint source).toList.length = 64 := by
  rw [fingerprint, String.toList_ofList, Sha256.Digest.length_hex]

/-- The key of one version of one template. -/
structure CacheKey where
  /-- Keeps projects apart that share a cache. -/
  scope : String
  /-- Names the template. -/
  identity : String
  /-- The fingerprint of the source. -/
  fingerprint : String
deriving DecidableEq, Repr

namespace CacheKey

/-- The key of a source. -/
def ofSource (scope identity source : String) : CacheKey :=
  ⟨scope, identity, ErbTags.fingerprint source⟩

/-- The key as one text. Stores know keys by this text only. -/
def display (k : CacheKey) : String := k.scope ++ ":" ++ k.identity ++ ":" ++ k.fingerprint

end CacheKey

end ErbTags
