import ErbTags.Cache.Store

/-!
# A store in a directory

One file for each compiled template, named by the fingerprint of its displayed key. A file is
written under a temporary name first and then moved to its own, so that it is there as a whole or
not at all. Files with other names may lie in the directory too. A file with the extension of an
entry is taken for one when the store is cleared, whatever its name; the others are left alone.
-/

namespace ErbTags

/-- A directory that holds compiled templates. It is made when the first one is written. -/
structure CacheDirectory where
  /-- The path of the directory. -/
  path : String
deriving DecidableEq, Repr

namespace CacheDirectory

/-- The extension of the files that hold compiled templates. -/
def entryExtension : String := "erb"

/-- The path of the file for a key. -/
def entryPath (c : CacheDirectory) (key : CacheKey) : String :=
  Path.join c.path (fingerprint key.display ++ "." ++ entryExtension)

variable {m : Type → Type} [Monad m] [FileSystem m]

/-- The paths of all files that hold compiled templates. -/
def entries (c : CacheDirectory) : m (List String) := do
  let names ← FileSystem.fileNames c.path
  return (names.filter (Path.extension? · = some entryExtension)).map (Path.join c.path)

/-- Removes files, up to the first that cannot be removed. -/
def removeAll : List String → m (Except CacheFault Unit)
  | [] => pure (.ok ())
  | path :: paths => do
    match ← FileSystem.removeFile path with
    | .ok () => removeAll paths
    | .error e => pure (.error (.unwritable path .remove e))

/-- Removes all files that hold compiled templates, and gives their number. -/
def clearEntries (c : CacheDirectory) : m (Except CacheFault Nat) := do
  let paths ← c.entries
  match ← removeAll paths with
  | .ok () => return .ok paths.length
  | .error e => return .error e

/-- The compiled template under a key. -/
def read (c : CacheDirectory) (key : CacheKey) : m (Except CacheFault (Option String)) := do
  match ← FileSystem.readText (c.entryPath key) with
  | .ok text => return .ok (some text)
  | .error .missing => return .ok none
  | .error e => return .error (.unreadable (c.entryPath key) e)

/-- Removes a temporary file that cannot be kept, and tells why. -/
def discardTemporary (temporary : String) (fault : CacheFault) : m (Except CacheFault Unit) := do
  discard (FileSystem.removeFile temporary)
  return .error fault

/-- Moves a temporary file to the place of an entry, or removes it if that fails. -/
def persist (temporary path : String) : m (Except CacheFault Unit) := do
  match ← FileSystem.rename temporary path with
  | .ok () => return .ok ()
  | .error e => discardTemporary temporary (.unwritable path .persist e)

/-- Keeps a compiled template under a key. -/
def write (c : CacheDirectory) (key : CacheKey) (text : String) : m (Except CacheFault Unit) := do
  match ← FileSystem.createDirectoryAll c.path with
  | .error e => return .error (.unwritable c.path .createDirectory e)
  | .ok () =>
    match ← FileSystem.createTemporary c.path with
    | .error e => return .error (.unwritable c.path .createTemporary e)
    | .ok temporary =>
      match ← FileSystem.writeText temporary text with
      | .error e => discardTemporary temporary (.unwritable c.path .writeTemporary e)
      | .ok () => persist temporary (c.entryPath key)

/-- The store that keeps everything in the directory. -/
def store (c : CacheDirectory) : Store m where
  read := c.read
  write := c.write
  clear := do
    match ← c.clearEntries with
    | .ok _ => return .ok ()
    | .error e => return .error e

end CacheDirectory

end ErbTags
