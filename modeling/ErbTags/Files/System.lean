import ErbTags.Files.Path

/-!
# Files

The operations on files that the library needs, as a class of monads. `ErbTags.Files.Disk` gives
them for a file tree held in memory, which is what is tested and reasoned about; the command line
gives them for real files.
-/

namespace ErbTags

/-- Why an operation on files fails. -/
inductive FileFault where
  /-- Nothing is there. -/
  | missing
  /-- Something is there already. -/
  | alreadyExists
  /-- A file stands where a directory is needed. -/
  | notDirectory
  /-- A directory stands where a file is needed. -/
  | isDirectory
  /-- The file is no UTF-8 text. -/
  | notText
  /-- The path or a name in it is too long. -/
  | nameTooLong
  /-- The path holds the character NUL. -/
  | nulInPath
  /-- Anything else, in the words of the system. -/
  | other (message : String)
deriving DecidableEq, Repr

/-- What a diagnostic says about the fault. -/
def FileFault.message : FileFault → String
  | .missing => "No such file or directory (os error 2)"
  | .alreadyExists => "File exists (os error 17)"
  | .notDirectory => "Not a directory (os error 20)"
  | .isDirectory => "Is a directory (os error 21)"
  | .notText => "stream did not contain valid UTF-8"
  | .nameTooLong => "File name too long (os error 36)"
  | .nulInPath => "file name contained an unexpected NUL byte"
  | .other message => message

/-- The greatest number of bytes of a name in a directory. -/
def maxNameSize : Nat := 255

/-- The greatest number of bytes of a path. -/
def maxPathSize : Nat := 4095

/-- What is wrong with a path as a text, wherever it leads. -/
def FileFault.ofPath? (path : String) : Option FileFault :=
  if '\x00' ∈ path.toList then some .nulInPath
  else if path = "" then some .missing
  else if maxPathSize < Text.byteSize path.toList then some .nameTooLong
  else none

/-- A monad with files. Paths are texts; relative ones are seen from the current directory. -/
class FileSystem (m : Type → Type) where
  /-- The absolute path of the current directory. -/
  currentDirectory : m String
  /-- Whether something is there. -/
  isPresent : String → m Bool
  /-- Whether a directory is there. -/
  isDirectory : String → m Bool
  /-- The text of a file. -/
  readText : String → m (Except FileFault String)
  /-- Makes a file with the given text, or replaces the text of a file. When this fails, a part of
  the text may have been written. -/
  writeText : String → String → m (Except FileFault Unit)
  /-- Makes a directory in a directory that is there. -/
  createDirectory : String → m (Except FileFault Unit)
  /-- The names of the files in a directory, but not of its directories. -/
  fileNames : String → m (List String)
  /-- Makes an empty file with an unused name in a directory, and gives its path. -/
  createTemporary : String → m (Except FileFault String)
  /-- Moves a file, in one step, over a file that may be there. -/
  rename : String → String → m (Except FileFault Unit)
  /-- Removes a file. -/
  removeFile : String → m (Except FileFault Unit)

namespace FileSystem

variable {m : Type → Type} [Monad m] [FileSystem m]

/-- Makes the first of a list of directories, each of which lies in the next, after those that are
missing. -/
def createDirectories : List String → m (Except FileFault Unit)
  | [] => pure (.ok ())
  | path :: outer => do
    match ← createDirectory path with
    | .ok () => pure (.ok ())
    | .error .missing =>
      match ← createDirectories outer with
      | .error e => pure (.error e)
      | .ok () =>
        match ← createDirectory path with
        | .ok () => pure (.ok ())
        | .error e => return if ← isDirectory path then .ok () else .error e
    | .error .alreadyExists =>
      return if ← isDirectory path then .ok () else .error .alreadyExists
    | .error e => pure (.error e)

/-- Makes a directory and those that it lies in, as far as they are missing. -/
def createDirectoryAll (path : String) : m (Except FileFault Unit) :=
  createDirectories (Path.ancestors path)

end FileSystem

end ErbTags
