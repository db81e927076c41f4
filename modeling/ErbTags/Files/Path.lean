import ErbTags.Text

/-!
# Path texts

What can be said about a path from its text alone. A path is a list of parts with slashes between
them; empty parts and the part `.` mean nothing, except that a leading slash makes the path absolute
and a leading `.` is kept. Nothing here looks at files, and no `..` is resolved.
-/

namespace ErbTags.Path

/-- The text in parts, cut at each slash. -/
def parts : Text → List Text
  | [] => [[]]
  | c :: t =>
    if c = '/' then [] :: parts t
    else
      match parts t with
      | [] => [[c]]
      | p :: ps => (c :: p) :: ps

/-- The text of a list of parts. -/
def joinParts (ps : List Text) : Text := List.intercalate ['/'] ps

/-- Whether a part means nothing: it is empty or a dot. -/
def isVoid (p : Text) : Bool := p == [] || p == ['.']

/-- The start of a path that is not a part among others, the slash of an absolute path or a leading
dot, and the text after it. -/
def lead : Text → Text × Text
  | '/' :: t => (['/'], t)
  | ['.'] => (['.'], [])
  | '.' :: '/' :: t => (['.'], '/' :: t)
  | t => ([], t)

/-- The parts without the void ones at the end. -/
def trimParts (ps : List Text) : List Text := (ps.reverse.dropWhile isVoid).reverse

/-- Whether the path starts at the root. -/
def isAbsolute (path : String) : Bool := path.toList.head? == some '/'

/-- The path of `path` seen from `root`. -/
def join (root path : String) : String :=
  if isAbsolute path || root.toList.isEmpty then path
  else if root.toList.getLast? == some '/' then root ++ path
  else root ++ "/" ++ path

/-- The directory that holds what the path names. A path of one part lies in the empty path; the
root and the empty path lie nowhere. -/
def parent? (path : String) : Option String :=
  let (start, body) := lead path.toList
  match trimParts (parts body) with
  | [] => if start = ['.'] then some "" else none
  | ps => some (String.ofList (start ++ joinParts (trimParts ps.dropLast)))

/-- The paths that end before each part, the longest first, for parts with the last one first. -/
def ancestorsFrom (start : Text) : List Text → List String
  | [] => if start = ['.'] then ["."] else []
  | p :: ps =>
    if isVoid p then ancestorsFrom start ps
    else String.ofList (start ++ joinParts (p :: ps).reverse) :: ancestorsFrom start ps

/-- The path, the directory that holds it, the one that holds that, and so on; the root and the
empty path are left out. -/
def ancestors (path : String) : List String :=
  let (start, body) := lead path.toList
  match ancestorsFrom start (parts body).reverse with
  | [] => []
  | _ :: outer => path :: outer

/-- The parts after those of `wanted`, void parts aside; none if they differ. -/
def partsAfter? : List Text → List Text → Option (List Text)
  | [], ps => some ps
  | _ :: _, [] => none
  | w :: ws, p :: ps =>
    if isVoid p then partsAfter? (w :: ws) ps
    else if p = w then partsAfter? ws ps
    else none

/-- The path seen from `root`, if it starts with the parts of `root`. What is left keeps its
spelling. -/
def relativeTo? (root path : String) : Option String :=
  let (rootStart, rootBody) := lead root.toList
  let (start, body) := lead path.toList
  if rootStart = start then
    (partsAfter? ((parts rootBody).filter (!isVoid ·)) (parts body)).map fun ps =>
      String.ofList (joinParts (trimParts (ps.dropWhile isVoid)))
  else none

/-- The extension of a file name: what follows its last dot, unless nothing stands before it. -/
def extension? (name : String) : Option String :=
  let reversed := name.toList.reverse
  let after := reversed.takeWhile (· ≠ '.')
  match reversed.dropWhile (· ≠ '.') with
  | _ :: before =>
    if before.isEmpty || name = ".." then none else some (String.ofList after.reverse)
  | [] => none

end ErbTags.Path
