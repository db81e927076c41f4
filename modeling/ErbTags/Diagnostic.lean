import ErbTags.Attribute
import ErbTags.Text.Position

/-!
# Diagnostics

What can be wrong with a template. A structural error stops the work: tags that do not match up
leave no sensible output. An attribute value that cannot be read does not: it counts as `true`, and
a warning says so. Both name the tag by its text and its place.
-/

namespace ErbTags

/-- How tags can fail to match up. -/
inductive StructuralFault where
  /-- A closing tag while no tag is open. -/
  | unmatchedClose
  /-- A tag that is still open at the end of the template. -/
  | unclosedOpen
  /-- A closing tag while tags are open, but none of its name. -/
  | noMatchingOpen
deriving DecidableEq, Repr

/-- A structural error of a template. -/
structure StructuralError where
  /-- What is wrong. -/
  fault : StructuralFault
  /-- The tag as written. -/
  tag : Text
  /-- The byte offset of the tag. -/
  offset : Nat
  /-- The line and column of the tag. -/
  position : Position
deriving DecidableEq, Repr

/-- An attribute value that counts as `true` because it could not be read. -/
structure Warning where
  /-- The tag as written. -/
  tag : Text
  /-- The line and column of the tag. -/
  position : Position
  /-- What is wrong with the value. -/
  fault : AttributeFault
deriving DecidableEq, Repr

/-- The first words of the message. -/
def StructuralFault.reason : StructuralFault → String
  | .unmatchedClose => "Unmatched closing tag"
  | .unclosedOpen => "Unclosed tag"
  | .noMatchingOpen => "No matching opening tag for"

/-- What a diagnostic says about the error. -/
def StructuralError.message (e : StructuralError) : String :=
  e.fault.reason ++ " " ++ String.ofList e.tag ++ " at line " ++ toString e.position.line ++
    ", column " ++ toString e.position.column

/-- What a diagnostic says about the warning, its place aside. -/
def Warning.message (w : Warning) : String := w.fault.message ++ " in " ++ String.ofList w.tag

end ErbTags
