import ErbTags.Text

/-!
# Lines and columns

Diagnostics name a place by its line and column. Both count from one; columns count bytes, and the
line feed belongs to the line that it ends. Offsets past the end of the text are places too: they
lie behind the last line.

Offsets and columns are words of 64 bits. Since columns count from one, the greatest offset has no
column on the first line: the count wraps around to zero there.
-/

namespace ErbTags

/-- A line and a column, both counted from one. -/
structure Position where
  /-- Number of line feeds before the place, plus one. -/
  line : Nat
  /-- Number of bytes since the last line feed before the place, plus one. -/
  column : Nat
deriving DecidableEq, Repr

namespace Text

/-- The greatest byte offset. -/
def maxOffset : Nat := UInt64.size - 1

/-- The position `n` bytes after `p`, when the text from `p` on is the given one. Inside the
text no column exceeds its size; past its end columns may wrap around. -/
def advance (p : Position) : Nat → Text → Position
  | n, [] => ⟨p.line, (p.column + n) % (maxOffset + 1)⟩
  | 0, _ :: _ => p
  | n + 1, c :: t =>
    if c = '\n' then advance ⟨p.line + 1, 1⟩ n t
    else if c.utf8Size ≤ n + 1 then
      advance ⟨p.line, p.column + c.utf8Size⟩ (n + 1 - c.utf8Size) t
    else ⟨p.line, p.column + (n + 1)⟩

/-- The position of a byte offset. -/
def position (t : Text) (offset : Nat) : Position := advance ⟨1, 1⟩ offset t

end Text

end ErbTags
