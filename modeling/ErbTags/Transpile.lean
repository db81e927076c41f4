import ErbTags.Pass

/-!
# Templates to ERB

`transpile` turns a template with component tags into plain ERB. Text between the tags is copied as
it is. ERB code is text like any other, so that what looks like a tag inside of it is taken for one.
-/

namespace ErbTags

/-- A template turned into ERB. -/
structure Transpiled where
  /-- The ERB text. -/
  output : Text
  /-- Attribute values that could not be read, in the order of the template. -/
  warnings : List Warning
deriving DecidableEq, Repr

/-- The outcome of turning a template into ERB, with the log of the work. -/
structure Transpilation where
  /-- The ERB text, or the first structural error. -/
  result : Except StructuralError Transpiled
  /-- Records for the log. -/
  log : List LogRecord

/-- Turns a template into ERB, and keeps the log. -/
def transpileLogged (conventions : Conventions) (source : Text) : Transpilation :=
  let (segments, tail) := segments source
  let r := Pass.start.run conventions source segments
  let result := do
    let p ← r.result
    match p.nesting with
    | [] => .ok ⟨(p.emit tail).output.toText, r.warnings⟩
    | frame :: _ => .error (Pass.errorAt source .unclosedOpen frame.tag)
  ⟨result, r.log⟩

/-- Turns a template into ERB. -/
def transpile (conventions : Conventions) (source : Text) : Except StructuralError Transpiled :=
  (transpileLogged conventions source).result

end ErbTags
