import ErbTags.Cache.Key
import ErbTags.Files.System

/-!
# Cache stores

A store keeps compiled templates under their keys. It is a record of operations in a monad, so that
one and the same compiler runs over a map in memory, over a directory of files, or over nothing.
Reading and writing may fail, and say why.
-/

namespace ErbTags

/-- What a directory store was doing when it failed to change its directory. -/
inductive CacheAction where
  /-- Making the directory. -/
  | createDirectory
  /-- Making a temporary file in it. -/
  | createTemporary
  /-- Writing the text to the temporary file. -/
  | writeTemporary
  /-- Moving the temporary file to its final name. -/
  | persist
  /-- Removing an entry. -/
  | remove
deriving DecidableEq, Repr

/-- Why a store fails. -/
inductive CacheFault where
  /-- An entry is there, but cannot be read. -/
  | unreadable (path : String) (fault : FileFault)
  /-- The store could not be changed. -/
  | unwritable (path : String) (action : CacheAction) (fault : FileFault)
deriving DecidableEq, Repr

/-- What a diagnostic says about a failed action. -/
def CacheAction.message : CacheAction → String
  | .createDirectory => "Failed to create cache dir: "
  | .createTemporary => "Failed to create temp file: "
  | .writeTemporary => "Failed to write temp file: "
  | .persist => "Failed to persist temp file: failed to persist temporary file: "
  | .remove => "Failed to remove: "

/-- What a diagnostic says about the fault. -/
def CacheFault.message : CacheFault → String
  | .unreadable path fault => "CACHE_READ_ERROR: " ++ path ++ ": " ++ fault.message
  | .unwritable path action fault =>
    "CACHE_WRITE_ERROR: " ++ path ++ ": " ++ action.message ++ fault.message

/-- The operations of a store. -/
structure Store (m : Type → Type) where
  /-- The compiled template under a key, if there is one. -/
  read : CacheKey → m (Except CacheFault (Option String))
  /-- Keeps a compiled template under a key, in place of one that may be there. -/
  write : CacheKey → String → m (Except CacheFault Unit)
  /-- Forgets all compiled templates. -/
  clear : m (Except CacheFault Unit)

/-- The store that keeps nothing. -/
def Store.none {m : Type → Type} [Monad m] : Store m where
  read _ := pure (.ok .none)
  write _ _ := pure (.ok ())
  clear := pure (.ok ())

end ErbTags
