import ErbTags.Conventions
import ErbTags.Fragment
import ErbTags.Tag

/-!
# Open tags

An opening tag starts a block that its closing tag ends. In between, a frame remembers what is
needed to end it: above all the place in the output where the block parameter goes, since whether
the block needs one is known only when it ends.

The open frames form a list, innermost first. A closing tag ends the innermost frame of its name,
wherever it stands in the list; frames opened later stay open.
-/

namespace ErbTags

/-- What a tag stands for. -/
inductive Role where
  /-- A component to render; whether the tag names its block variable. -/
  | component (named : Bool)
  /-- Content for a slot of what is behind the variable `receiver`. -/
  | slot (receiver name : Text)
deriving DecidableEq, Repr

/-- Whether the role is that of a component. -/
def Role.isComponent : Role → Bool
  | .component _ => true
  | .slot _ _ => false

/-- The generated call for a tag of the given name, up to its end. -/
def Role.call (conventions : Conventions) (name arguments : Text) : Role → Text
  | .component _ =>
    Fragment.renderCall (Name.renderIdentifier name conventions.componentSuffix) arguments
  | .slot receiver filled => Fragment.slotCall receiver filled arguments

/-- An opening tag that waits for its closing tag. -/
structure Frame where
  /-- The opening tag. -/
  tag : Tag
  /-- What it stands for. -/
  role : Role
  /-- The arguments of its call. -/
  arguments : Text
  /-- The variable of its block. -/
  blockVariable : Text
  /-- Whether some tag fills a slot of it. -/
  hasSlot : Bool
  /-- The byte offset in the output right after its block keyword. -/
  point : Nat
deriving DecidableEq, Repr

namespace Frame

/-- The name of its tag. -/
def name (f : Frame) : Text := f.tag.name

/-- Whether its block has to declare its variable: if a slot tag uses it, or if a component names it
on purpose. -/
def declares (f : Frame) : Bool :=
  match f.role with
  | .component named => f.hasSlot || named
  | .slot _ _ => f.hasSlot

/-- The frame, with a tag that fills a slot of it. -/
def withSlot (f : Frame) : Frame := { f with hasSlot := true }

/-- The frame after `size` bytes were inserted into the output at byte `offset`. -/
def shift (offset size : Nat) (f : Frame) : Frame :=
  if offset < f.point then { f with point := f.point + size } else f

/-- The frame in a few words, for the log. -/
def describe (f : Frame) : String :=
  let arguments := "(" ++ String.ofList f.arguments ++ ") as " ++ String.ofList f.blockVariable
  match f.role with
  | .component _ => "component " ++ String.ofList f.name ++ arguments
  | .slot receiver filled =>
    "slot " ++ String.ofList receiver ++ ".with_" ++ String.ofList filled ++ arguments

end Frame

/-- The open frames, innermost first. -/
abbrev Nesting := List Frame

namespace Nesting

/-- The frame whose slot a slot tag fills: the innermost one, as long as some component is open. -/
def slotParent? : Nesting → Option Frame
  | [] => none
  | f :: fs => if (f :: fs).any (·.role.isComponent) then some f else none

/-- The nesting with a slot of its innermost frame filled. -/
def fillSlot : Nesting → Nesting
  | [] => []
  | f :: fs => f.withSlot :: fs

/-- The innermost frame of the given name, and the nesting without it. -/
def take? (name : Text) : Nesting → Option (Frame × Nesting)
  | [] => none
  | f :: fs =>
    if f.name = name then some (f, fs)
    else (take? name fs).map fun (g, gs) => (g, f :: gs)

/-- The nesting after `size` bytes were inserted into the output at byte `offset`. -/
def shift (offset size : Nat) (fs : Nesting) : Nesting := fs.map (Frame.shift offset size)

end Nesting

end ErbTags
