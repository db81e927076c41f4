import ErbTags.Text.Blank

/-!
# Control characters and sequences

A text that is shown in a terminal should not steer it. This file takes out of a text the control
characters, save the blank ones, and the sequences that start with an escape character:

* an escape character, some characters from space to `/`, and one more character;
* `ESC [` with parameters, up to a character from `@` to `~`;
* `ESC ]` with a command, up to a bell;
* `ESC P`, `ESC X`, `ESC ^` and `ESC _` with a string, up to a byte `9C`.

Another escape character starts a new sequence, and the characters CAN and SUB end any. A sequence
of the first two kinds is suspended by a blank control character such as a line break: what follows
is shown, and the sequence goes on with the next control character. A character beyond ASCII ends a
suspended sequence.
-/

namespace ErbTags.Text

/-- Whether the character is an ASCII control character. -/
def isControl (c : Char) : Bool := c.toNat < 0x20 || c.toNat == 0x7F

/-- Whether the character is one of the control characters that are blank. -/
def isBlankControl (c : Char) : Bool := isControl c && isBlank c

/-- Whether the character is shown where no sequence is open. -/
def isShown (c : Char) : Bool := !isControl c || isBlank c

/-- The sequence that is open at a place of a text. -/
inductive ControlSequence where
  /-- None is open. -/
  | closed
  /-- Right after an escape character. -/
  | escape
  /-- After an escape character and characters from space to `/`. -/
  | intermediate
  /-- In the parameters after `ESC [`. -/
  | parameters
  /-- In the command after `ESC ]`. -/
  | command
  /-- Right after `ESC P`. -/
  | device
  /-- In the parameters after `ESC P`. -/
  | deviceParameters
  /-- After `ESC P`, parameters and characters from space to `/`. -/
  | deviceIntermediate
  /-- In a string. -/
  | string
deriving DecidableEq, Repr

namespace ControlSequence

/-- Whether the character is ASCII and lies between two code points. -/
def within (first last : Nat) (c : Char) : Bool := first ≤ c.toNat && c.toNat ≤ last

/-- The sequence that is open after a character, if the character opens or ends none by itself. -/
def advance (s : ControlSequence) (c : Char) : ControlSequence :=
  match s with
  | closed => closed
  | escape =>
    if c = '[' then parameters
    else if c = ']' then command
    else if c = 'P' then device
    else if c = 'X' || c = '^' || c = '_' then string
    else if within 0x20 0x2F c then intermediate
    else if within 0x30 0x7E c then closed
    else escape
  | intermediate => if within 0x30 0x7E c then closed else intermediate
  | parameters => if within 0x40 0x7E c then closed else parameters
  | command => if c = '\x07' then closed else command
  | device =>
    if within 0x20 0x2F c then deviceIntermediate
    else if within 0x30 0x3F c then deviceParameters
    else if within 0x40 0x7E c then string
    else device
  | deviceParameters =>
    if within 0x20 0x2F c then deviceIntermediate
    else if within 0x3C 0x7E c then string
    else deviceParameters
  | deviceIntermediate => if within 0x30 0x7E c then string else deviceIntermediate
  | string => if (String.utf8EncodeChar c).contains 0x9C then closed else string

/-- The sequence that is open after a character. -/
def next (s : ControlSequence) (c : Char) : ControlSequence :=
  if c = '\x1b' then escape
  else if c = '\x18' || c = '\x1a' then closed
  else s.advance c

/-- Whether a blank control character suspends the sequence. -/
def canSuspend : ControlSequence → Bool
  | escape | intermediate | parameters => true
  | _ => false

end ControlSequence

/-- Where a text stands while control sequences are taken out of it. -/
structure ControlState where
  /-- The sequence that is open. -/
  sequence : ControlSequence
  /-- Whether it is suspended. -/
  suspended : Bool
deriving DecidableEq, Repr

namespace ControlState

/-- The state at the start of a text. -/
def initial : ControlState := ⟨.closed, false⟩

/-- Whether a character is shown, and the state after it. -/
def step (s : ControlState) (c : Char) : Bool × ControlState :=
  if s.suspended then
    if 0x80 ≤ c.toNat then (true, initial)
    else if isShown c then (true, s)
    else (false, ⟨s.sequence.next c, false⟩)
  else if s.sequence = .closed then (isShown c, ⟨s.sequence.next c, false⟩)
  else if s.sequence.canSuspend && isBlankControl c then (true, ⟨s.sequence, true⟩)
  else (false, ⟨s.sequence.next c, false⟩)

/-- The characters of a text that are shown. -/
def shown : ControlState → Text → Text
  | _, [] => []
  | s, c :: t =>
    match s.step c with
    | (true, s') => c :: s'.shown t
    | (false, s') => s'.shown t

end ControlState

/-- The text without control characters and control sequences. -/
def withoutControls (t : Text) : Text := ControlState.initial.shown t

end ErbTags.Text
