import ErbTags.Entries
import ErbTags.Files.System

/-!
# A file tree in memory

A tree of directories and files, and a place in it that relative paths start from. Paths are
resolved one part after the other, as an operating system does: each part before the last has to
name a directory that is there, and `..` leads to the directory above.

Not everything is settled by the tree. Temporary files are given names, and the host of the disk may
be unable to fill a file or to move it. This is left open (`Host`): all that is known is that a
temporary file gets a name that nothing has in its directory.
-/

namespace ErbTags

/-- A file or a directory. -/
inductive Node where
  /-- A file with its bytes. -/
  | file (bytes : ByteArray)
  /-- A directory with its named entries. -/
  | directory (entries : List (String × Node))

/-- The names that lead from the root to a node. -/
abbrev Location := List String

namespace Node

/-- The entries of a directory; a file has none. -/
def entries : Node → List (String × Node)
  | .file _ => []
  | .directory es => es

/-- The node at a location. -/
def find? : Location → Node → Option Node
  | [], node => some node
  | name :: rest, node =>
    match node.entries.lookup name with
    | some child => child.find? rest
    | none => none

/-- The tree with a node put at a location. Directories that are missing on the way are made; a file
that is in the way stops it. -/
def put (new : Node) : Location → Node → Node
  | [], _ => new
  | _ :: _, .file bytes => .file bytes
  | name :: rest, .directory es =>
    .directory (Entries.set name (put new rest ((es.lookup name).getD (.directory []))) es)

/-- The tree without the node at a location. -/
def remove : Location → Node → Node
  | [], node => node
  | _ :: _, .file bytes => .file bytes
  | [name], .directory es => .directory (es.filter (·.1 ≠ name))
  | name :: rest, .directory es =>
    match es.lookup name with
    | some child => .directory (Entries.set name (child.remove rest) es)
    | none => .directory es

end Node

/-- A file tree, and the directory that relative paths start from. -/
structure Disk where
  /-- The root directory. -/
  root : Node
  /-- The current directory. -/
  here : Location

namespace Disk

/-- The node at a location. -/
def find? (d : Disk) (l : Location) : Option Node := d.root.find? l

/-- The disk with a node put at a location. -/
def put (d : Disk) (l : Location) (node : Node) : Disk := { d with root := Node.put node l d.root }

/-- The disk without the node at a location. -/
def remove (d : Disk) (l : Location) : Disk := { d with root := d.root.remove l }

/-- The names of the path, cut at its slashes. -/
def names (path : String) : List String := (Path.parts path.toList).map String.ofList

/-- Where a path starts. -/
def origin (d : Disk) (path : String) : Location := if Path.isAbsolute path then [] else d.here

/-- Follows names from a location. Each step needs a directory to start from, and a name that is not
too long. -/
def walk (d : Disk) : Location → List String → Except FileFault Location
  | l, [] => .ok l
  | l, name :: rest =>
    match d.find? l with
    | some (.directory es) =>
      if name = "" || name = "." then d.walk l rest
      else if name = ".." then d.walk l.dropLast rest
      else if maxNameSize < Text.byteSize name.toList then .error .nameTooLong
      else if (es.lookup name).isSome then d.walk (l ++ [name]) rest
      else .error .missing
    | some (.file _) => .error .notDirectory
    | none => .error .missing

/-- The location of something that is there. -/
def locate (d : Disk) (path : String) : Except FileFault Location :=
  match FileFault.ofPath? path with
  | some e => .error e
  | none => d.walk (d.origin path) (names path)

/-- What is at a path. -/
def node (d : Disk) (path : String) : Except FileFault Node := do
  let l ← d.locate path
  match d.find? l with
  | some node => .ok node
  | none => .error .missing

/-- The location that a path gives to something, whether it is there or not. All but the last name
have to lead to a directory. -/
def target (d : Disk) (path : String) : Except FileFault Location := do
  match FileFault.ofPath? path with
  | some e => .error e
  | none =>
    let trimmed := (names path).reverse.dropWhile (· = "")
    match trimmed with
    | [] => .ok (d.origin path)
    | name :: before =>
      let l ← d.walk (d.origin path) before.reverse
      match d.find? l with
      | some (.directory _) =>
        if name = "." then .ok l
        else if name = ".." then .ok l.dropLast
        else if maxNameSize < Text.byteSize name.toList then .error .nameTooLong
        else .ok (l ++ [name])
      | some (.file _) => .error .notDirectory
      | none => .error .missing

/-- The text of a file. -/
def readText (d : Disk) (path : String) : Except FileFault String := do
  match ← d.node path with
  | .directory _ => .error .isDirectory
  | .file bytes =>
    match String.fromUTF8? bytes with
    | some text => .ok text
    | none => .error .notText

/-- Makes or replaces a file. A path that ends in a slash names no file. -/
def writeBytes (d : Disk) (path : String) (bytes : ByteArray) : Except FileFault Disk := do
  let l ← d.target path
  if path.toList.getLast? = some '/' then .error .isDirectory
  else
    match d.find? l with
    | some (.directory _) => .error .isDirectory
    | _ => .ok (d.put l (.file bytes))

/-- Makes a directory. -/
def createDirectory (d : Disk) (path : String) : Except FileFault Disk := do
  let l ← d.target path
  match d.find? l with
  | some _ => .error .alreadyExists
  | none => .ok (d.put l (.directory []))

/-- Whether a directory is at a path. -/
def isDirectory (d : Disk) (path : String) : Bool :=
  match d.node path with
  | .ok (.directory _) => true
  | _ => false

/-- The names of the files in a directory. -/
def fileNames (d : Disk) (path : String) : List String :=
  match d.node path with
  | .ok (.directory es) =>
    es.filterMap fun
      | (name, .file _) => some name
      | (_, .directory _) => none
  | _ => []

/-- Moves a file over a file that may be there. -/
def rename (d : Disk) (source path : String) : Except FileFault Disk := do
  let old ← d.locate source
  let new ← d.target path
  match d.find? old, d.find? new with
  | none, _ => .error .missing
  | some _, some (.directory _) => .error .isDirectory
  | some node, _ => .ok ((d.remove old).put new node)

/-- Removes a file. -/
def removeFile (d : Disk) (path : String) : Except FileFault Disk := do
  let l ← d.locate path
  match d.find? l with
  | some (.file _) => .ok (d.remove l)
  | some (.directory _) => .error .isDirectory
  | none => .error .missing

/-- A name that something in a directory can have. -/
structure IsEntryName (name : String) : Prop where
  slash_notMem : '/' ∉ name.toList
  ne_empty : name ≠ ""
  ne_dot : name ≠ "."
  ne_dotDot : name ≠ ".."

instance (name : String) : Decidable (IsEntryName name) :=
  decidable_of_iff ('/' ∉ name.toList ∧ name ≠ "" ∧ name ≠ "." ∧ name ≠ "..")
    ⟨fun ⟨h₁, h₂, h₃, h₄⟩ => ⟨h₁, h₂, h₃, h₄⟩, fun ⟨h₁, h₂, h₃, h₄⟩ => ⟨h₁, h₂, h₃, h₄⟩⟩

end Disk

/-! ## What the tree does not settle -/

/-- The host of a disk: what it decides by itself when files are made, filled and moved. -/
class Host where
  /-- The name of a new temporary file in a directory, or why there can be none. -/
  temporaryName : Disk → String → Except FileFault String
  /-- The name can be that of an entry, and no entry of the directory has it. -/
  temporaryName_unused : ∀ {d : Disk} {path name : String} {es : List (String × Node)},
    d.node path = .ok (.directory es) → temporaryName d path = .ok name →
      Disk.IsEntryName name ∧ name ∉ es.map Prod.fst
  /-- What goes wrong when a text is written to a path, and the bytes that stand there by then. -/
  writeFault? : Disk → String → String → Option (FileFault × ByteArray)
  /-- What goes wrong when a file is moved. -/
  renameFault? : Disk → String → String → Option FileFault

/-- The first numbered name that is none of the given ones. -/
def Host.numberedName (names : List String) : Except FileFault String :=
  let numbered := (List.range (names.length + 1)).map fun n => ".tmp" ++ toString n
  match numbered.find? (fun name => Disk.IsEntryName name ∧ name ∉ names) with
  | some name => .ok name
  | none => .error .alreadyExists

theorem Host.numberedName_unused {names : List String} {name : String}
    (h : numberedName names = .ok name) : Disk.IsEntryName name ∧ name ∉ names := by
  unfold numberedName at h
  dsimp only at h
  split at h
  case h_1 found hfound =>
    cases h
    have hunused := List.find?_some hfound
    exact of_decide_eq_true hunused
  case h_2 => cases h

/-- A host that numbers temporary files, and on which nothing goes wrong. -/
instance numberingHost : Host where
  temporaryName d path :=
    match d.node path with
    | .ok (.directory es) => Host.numberedName (es.map Prod.fst)
    | _ => .error .missing
  temporaryName_unused hnode hname := by
    rw [hnode] at hname
    exact Host.numberedName_unused hname
  writeFault? _ _ _ := none
  renameFault? _ _ _ := none

namespace Disk

section Operations

variable [Host]

/-- Makes an empty file with an unused name in a directory. -/
def createTemporary (d : Disk) (directory : String) : Except FileFault (String × Disk) := do
  match ← d.node directory with
  | .file _ => .error .notDirectory
  | .directory _ =>
    let path := Path.join directory (← Host.temporaryName d directory)
    return (path, ← d.writeBytes path ByteArray.empty)

/-- Makes a file with a text or replaces its text, as far as the host is able to. -/
def writeText (d : Disk) (path text : String) : Except FileFault Unit × Disk :=
  match Host.writeFault? d path text with
  | none =>
    match d.writeBytes path text.toByteArray with
    | .ok d' => (.ok (), d')
    | .error e => (.error e, d)
  | some (fault, bytes) =>
    match d.writeBytes path bytes with
    | .ok d' => (.error fault, d')
    | .error e => (.error e, d)

/-- Runs a change of the disk that may fail; the disk stays as it is if it does. -/
def attempt (change : Disk → Except FileFault Disk) : StateM Disk (Except FileFault Unit) :=
  fun d =>
    match change d with
    | .ok d' => (.ok (), d')
    | .error e => (.error e, d)

instance : FileSystem (StateM Disk) where
  currentDirectory := fun d => ("/" ++ String.intercalate "/" d.here, d)
  isPresent path := fun d => ((d.node path).toBool, d)
  isDirectory path := fun d => (d.isDirectory path, d)
  readText path := fun d => (d.readText path, d)
  writeText path text := fun d => d.writeText path text
  createDirectory path := attempt (·.createDirectory path)
  fileNames path := fun d => (d.fileNames path, d)
  createTemporary directory := fun d =>
    match d.createTemporary directory with
    | .ok (path, d') => (.ok path, d')
    | .error e => (.error e, d)
  rename source path := fun d =>
    match Host.renameFault? d source path with
    | none => attempt (·.rename source path) d
    | some fault => (.error fault, d)
  removeFile path := attempt (·.removeFile path)

end Operations

/-! ## Running on a disk -/

section Run

variable {α β : Type}

theorem bind_apply (x : StateM Disk α) (f : α → StateM Disk β) (d : Disk) :
    (x >>= f) d = f (x d).1 (x d).2 := rfl

theorem pure_apply (a : α) (d : Disk) : (pure a : StateM Disk α) d = (a, d) := rfl

theorem readText_apply [Host] (path : String) (d : Disk) :
    (FileSystem.readText path : StateM Disk _) d = (d.readText path, d) := rfl

/-- An action that leaves the disk as it is gives the same answer each time. -/
theorem mapM_apply {f : α → StateM Disk β} {g : α → β} {d : Disk} (h : ∀ a, f a d = (g a, d))
    (l : List α) : l.mapM f d = (l.map g, d) := by
  induction l with
  | nil => rfl
  | cons a l ih => rw [List.mapM_cons, bind_apply, h, bind_apply, ih, pure_apply, List.map_cons]

end Run

end Disk

end ErbTags
