import ErbTags.Text

/-!
# Blank characters

Two classes of blank characters occur in the tag language. Between attributes only the five ASCII
blanks separate; where the ends of a text are trimmed, every character with the Unicode property
`White_Space` goes.
-/

namespace ErbTags.Text

/-- The ASCII characters that separate attributes: space, tab, line feed, form feed and carriage
return. A vertical tab is not among them. -/
def isBlank (c : Char) : Bool :=
  c == ' ' || c == '\t' || c == '\n' || c == '\x0c' || c == '\r'

/-- The ranges of code points with the Unicode property `White_Space`, in increasing order. -/
def whiteSpaceRanges : List (Nat × Nat) :=
  [(0x0009, 0x000D), (0x0020, 0x0020), (0x0085, 0x0085), (0x00A0, 0x00A0), (0x1680, 0x1680),
   (0x2000, 0x200A), (0x2028, 0x2029), (0x202F, 0x202F), (0x205F, 0x205F), (0x3000, 0x3000)]

/-- Whether the character has the Unicode property `White_Space`. -/
def isWhiteSpace (c : Char) : Bool :=
  whiteSpaceRanges.any fun (lo, hi) => lo ≤ c.toNat && c.toNat ≤ hi

/-- Every separator of attributes is white space. -/
theorem isWhiteSpace_of_isBlank {c : Char} (h : isBlank c = true) : isWhiteSpace c = true := by
  simp only [isBlank, Bool.or_eq_true, beq_iff_eq] at h
  rcases h with (((rfl | rfl) | rfl) | rfl) | rfl <;> decide

/-- Text without the white space at its end. -/
def trimEnd (t : Text) : Text := (t.reverse.dropWhile isWhiteSpace).reverse

/-- The white space at the end of a text. -/
def trailingSpace (t : Text) : Text := (t.reverse.takeWhile isWhiteSpace).reverse

theorem trimEnd_append_trailingSpace (t : Text) : trimEnd t ++ trailingSpace t = t := by
  rw [trimEnd, trailingSpace, ← List.reverse_append, List.takeWhile_append_dropWhile,
    List.reverse_reverse]

/-- Text without the white space at its two ends. -/
def trim (t : Text) : Text := trimEnd (t.dropWhile isWhiteSpace)

end ErbTags.Text
