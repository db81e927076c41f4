import ErbTags.Attribute.Reader
import ErbTags.Diagnostic
import ErbTags.Frame
import ErbTags.Log
import ErbTags.Output
import ErbTags.Tag.Scanner

/-!
# The pass over a template

A template is turned into ERB in one pass over its segments. The state of the pass is the output so
far and the open frames; beside it each step gives warnings and log records. A step copies the text
before a tag and then handles the tag:

* a component or slot tag becomes a call; an opening one also opens a block and a frame;
* a closing tag ends the innermost frame of its name. If the block of that frame turns out to need
  its variable, the parameter is inserted at the place that the frame remembers, and the places that
  other frames remember move along.
-/

namespace ErbTags

/-- The state of a pass. -/
structure Pass where
  /-- The output so far. -/
  output : Output
  /-- The open frames. -/
  nesting : Nesting

/-- What one step of a pass gives. -/
structure Step where
  /-- The state after the step. -/
  pass : Pass
  /-- Values that could not be read. -/
  warnings : List Warning
  /-- Records for the log. -/
  log : List LogRecord

namespace Pass

/-- The state before the first tag. -/
def start : Pass := ⟨.empty, []⟩

/-- The pass with text added to its output. -/
def emit (p : Pass) (t : Text) : Pass := { p with output := p.output.push t }

/-- The role of a component or slot tag, and the nesting once a slot that it fills is marked. -/
def roleOf (conventions : Conventions) (nesting : Nesting) (name : Text) (named : Bool) :
    Role × Nesting :=
  match Name.slotName name conventions.slotPrefix, nesting.slotParent? with
  | some slot, some parent => (.slot parent.blockVariable slot, nesting.fillSlot)
  | _, _ => (.component named, nesting)

/-- Opens a block for the call of an opening tag. -/
def openBlock (p : Pass) (tag : Tag) (role : Role) (call arguments blockVariable : Text) :
    Pass × LogRecord :=
  let output := (p.output.push call).push Fragment.blockKeyword
  let frame : Frame := ⟨tag, role, arguments, blockVariable, false, output.size⟩
  (⟨output.push Fragment.close, frame :: p.nesting⟩,
    ⟨.trace, .template, "open " ++ frame.describe ++ " at depth " ++ toString p.nesting.length⟩)

/-- Handles a component or slot tag. -/
def openTag (conventions : Conventions) (source : Text) (p : Pass) (tag : Tag) : Step :=
  let attributes := Attributes.read tag.attributes
  let warnings := attributes.faults.map fun fault =>
    (⟨tag.text, Text.position source tag.start, fault⟩ : Warning)
  let (role, nesting) := roleOf conventions p.nesting tag.name attributes.blockVariable.isSome
  let call := role.call conventions tag.name attributes.arguments
  if tag.kind = .selfClosing then
    ⟨⟨(p.output.push call).push Fragment.close, nesting⟩, warnings, attributes.log⟩
  else
    let blockVariable := attributes.blockVariable.getD (Name.snakeCase tag.name)
    let (p', opened) :=
      openBlock { p with nesting } tag role call attributes.arguments blockVariable
    ⟨p', warnings, attributes.log ++ [opened]⟩

/-- The error about a tag. -/
def errorAt (source : Text) (fault : StructuralFault) (tag : Tag) : StructuralError :=
  ⟨fault, tag.text, tag.start, Text.position source tag.start⟩

/-- Ends the block of a frame that was taken out of the nesting. -/
def closeBlock (p : Pass) (frame : Frame) : Pass :=
  if frame.declares then
    let parameter := Fragment.blockParameter frame.blockVariable
    let output := (p.output.insert? frame.point parameter).getD p.output
    ⟨output.push Fragment.endBlock, p.nesting.shift frame.point (Text.byteSize parameter)⟩
  else p.emit Fragment.endBlock

/-- Handles a closing tag. -/
def closeTag (source : Text) (p : Pass) (tag : Tag) : Except StructuralError Step :=
  match p.nesting.take? tag.name with
  | some (frame, nesting) =>
    .ok ⟨closeBlock { p with nesting } frame, [],
      [⟨.trace, .template, "close " ++ frame.describe ++ " at depth " ++ toString nesting.length⟩]⟩
  | none =>
    .error (errorAt source (if p.nesting = [] then .unmatchedClose else .noMatchingOpen) tag)

/-- Copies the text before a tag, then handles the tag. -/
def step (conventions : Conventions) (source : Text) (p : Pass) (segment : Segment) :
    Except StructuralError Step :=
  let p := p.emit segment.gap
  match segment.tag.kind with
  | .closing => closeTag source p segment.tag
  | .opening | .selfClosing => .ok (openTag conventions source p segment.tag)

end Pass

/-- What a pass over a number of segments gives. -/
structure Run where
  /-- The state at the end, or the error that stopped the pass. -/
  result : Except StructuralError Pass
  /-- Values that could not be read, in the order of the template. -/
  warnings : List Warning
  /-- Records for the log, in the order of the work. -/
  log : List LogRecord

/-- Goes over the segments, from the given state. -/
def Pass.run (conventions : Conventions) (source : Text) : Pass → List Segment → Run
  | p, [] => ⟨.ok p, [], []⟩
  | p, segment :: segments =>
    match p.step conventions source segment with
    | .error e => ⟨.error e, [], []⟩
    | .ok s =>
      let r := Pass.run conventions source s.pass segments
      ⟨r.result, s.warnings ++ r.warnings, s.log ++ r.log⟩

end ErbTags
