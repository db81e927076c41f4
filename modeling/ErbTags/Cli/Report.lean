import ErbTags.Cli.Json
import ErbTags.Files.System
import ErbTags.Transpile

/-!
# Reports on templates

What a check says about each template: it is in order, perhaps with values that could not be read,
or it has a structural error or cannot be read at all. Reports are printed as lines, with some words
in colours, or as JSON.
-/

namespace ErbTags.Cli

/-- The colours of printed words. -/
inductive Colour where
  | green
  | red
  | yellow
deriving DecidableEq, Repr

/-- How a word is printed in a colour. -/
abbrev Paint := Colour → String → String

/-- Without colours words are printed as they are. -/
def Paint.off : Paint := fun _ word => word

/-- A remark on a place of a template. -/
structure Remark where
  /-- Where it applies. -/
  position : Position
  /-- What it says. -/
  message : String
deriving DecidableEq, Repr

/-- The remark on a structural error. -/
def Remark.ofError (e : StructuralError) : Remark := ⟨e.position, e.message⟩

/-- The remark on a value that could not be read. -/
def Remark.ofWarning (w : Warning) : Remark := ⟨w.position, w.message⟩

/-- The remark on a file that cannot be read; it has no place in the text. -/
def Remark.ofFileFault (f : FileFault) : Remark := ⟨⟨0, 0⟩, "Failed to read: " ++ f.message⟩

/-- What a check says about one template. -/
structure Report where
  /-- The path of the template, as given. -/
  file : String
  /-- The remarks on a template in order, or what is wrong with the template. -/
  finding : Except Remark (List Remark)

namespace Report

/-- Whether the template is not in order. -/
def isFailure (r : Report) : Bool :=
  match r.finding with
  | .ok _ => false
  | .error _ => true

/-- The report on the outcome of turning a template into ERB. -/
def ofTranspilation (file : String) (t : Transpilation) : Report :=
  match t.result with
  | .ok r => ⟨file, .ok (r.warnings.map Remark.ofWarning)⟩
  | .error e => ⟨file, .error (Remark.ofError e)⟩

/-- The place of a remark in front of its message. -/
def place (r : Report) (remark : Remark) : String :=
  r.file ++ ":" ++ toString remark.position.line ++ ":" ++ toString remark.position.column ++ ": "

/-- The report in lines. -/
def lines (paint : Paint) (r : Report) : List String :=
  match r.finding with
  | .ok remarks =>
    (remarks.map fun w => r.place w ++ paint .yellow "warning:" ++ " " ++ w.message) ++
      [r.file ++ ": " ++ paint .green "ok"]
  | .error e => [r.place e ++ paint .red e.message]

/-- A remark as JSON. -/
def remarkJson (r : Remark) : Json :=
  .object [("column", .number r.position.column), ("line", .number r.position.line),
    ("message", .string r.message)]

/-- The report as JSON. -/
def json (r : Report) : Json :=
  match r.finding with
  | .ok remarks =>
    .object [("file", .string r.file), ("status", .string "ok"),
      ("warnings", .array (remarks.map remarkJson))]
  | .error e =>
    .object [("diagnostic", remarkJson e), ("file", .string r.file), ("status", .string "error")]

/-- All reports as JSON, with whether all templates are in order. -/
def jsonOfAll (reports : List Report) : Json :=
  .object [("files", .array (reports.map json)), ("ok", .boolean (!reports.any isFailure))]

end Report

end ErbTags.Cli
