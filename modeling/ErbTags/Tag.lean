import ErbTags.Text

/-!
# Tags

A tag is kept with everything it is written with, so that its text can be put together again from
its parts (`Tag.text`) and its end follows from its start (`Tag.stop`).
-/

namespace ErbTags

/-- The three kinds of tags. -/
inductive TagKind where
  /-- An opening tag, such as `<Card>`. -/
  | opening
  /-- A tag without content, such as `<Card />`. -/
  | selfClosing
  /-- A closing tag, such as `</Card>`. -/
  | closing
deriving DecidableEq, Repr

/-- A tag in a template. -/
structure Tag where
  /-- Its kind. -/
  kind : TagKind
  /-- Its name, with all segments. -/
  name : Text
  /-- The text of its attributes, right after the name. -/
  attributes : Text
  /-- What stands between the attributes and the final `>`: the slash of a self-closing tag, with
  the blanks after it, or the blanks of a closing tag. -/
  tail : Text
  /-- The byte offset of its `<`. -/
  start : Nat
deriving DecidableEq, Repr

/-- What stands before the name. -/
def TagKind.opener : TagKind → Text
  | .closing => ['<', '/']
  | .opening | .selfClosing => ['<']

/-- The tag as it is written. -/
def Tag.text (tag : Tag) : Text :=
  tag.kind.opener ++ (tag.name ++ (tag.attributes ++ (tag.tail ++ ['>'])))

/-- The byte offset just past the `>`. -/
def Tag.stop (tag : Tag) : Nat := tag.start + Text.byteSize tag.text

end ErbTags
