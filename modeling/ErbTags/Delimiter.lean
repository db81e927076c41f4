import ErbTags.Text.Blank

/-!
# Delimiters

The automata that find the end of a quoted value, of a braced expression and of a tag. Each is made
for `Text.cut`: it has no next state at the character that ends the thing.

The end of a tag is found with the help of the other two. A quote or a brace opens a value only
right after an `=`, blanks aside, so a stray apostrophe between attributes does not swallow the text
that follows; inside a value the automaton of that value runs until it stops.
-/

namespace ErbTags.Delimiter

/-- Whether the character is one of the two quotes. -/
def isQuote (c : Char) : Bool := c == '"' || c == '\''

/-- Ends at the quote `q`. The state tells whether a backslash protects the next character. -/
def quote (q : Char) (escaped : Bool) (c : Char) : Option Bool :=
  if escaped then some false
  else if c = '\\' then some true
  else if c = q then none
  else some false

/-- Ends at the brace that closes an expression. The state counts the inner braces still open. -/
def brace (inner : Nat) (c : Char) : Option Nat :=
  if c = '{' then some (inner + 1)
  else if c = '}' then
    match inner with
    | 0 => none
    | n + 1 => some n
  else some inner

/-- Where the search for the end of a tag stands. -/
inductive Region where
  /-- Between values; whether an `=` stands before, with at most blanks after it. -/
  | plain (afterEquals : Bool)
  /-- Inside a value in the quotes `q`; whether a backslash protects the next character. -/
  | quoted (q : Char) (escaped : Bool)
  /-- Inside a braced value, with a number of inner braces still open. -/
  | braced (inner : Nat)
deriving DecidableEq, Repr

/-- Ends at the `>` that ends a tag: the first one outside all values. -/
def tagEnd : Region → Char → Option Region
  | .plain afterEquals, c =>
    if c = '>' then none
    else if c = '=' then some (.plain true)
    else if afterEquals && isQuote c then some (.quoted c false)
    else if afterEquals && c == '{' then some (.braced 0)
    else some (.plain (afterEquals && Text.isBlank c))
  | .quoted q escaped, c =>
    match quote q escaped c with
    | none => some (.plain false)
    | some escaped' => some (.quoted q escaped')
  | .braced inner, c =>
    match brace inner c with
    | none => some (.plain false)
    | some inner' => some (.braced inner')

/-- The text inside the quotes `q` and the text after the closing quote, for a text right after the
opening one. -/
def quoted? (q : Char) (t : Text) : Option (Text × Text) := Text.cut (quote q) false t

/-- The expression inside braces and the text after the closing brace, for a text right after the
opening one. -/
def braced? (t : Text) : Option (Text × Text) := Text.cut brace 0 t

/-- The text up to the `>` that ends a tag and the text after it, for a text right after the name
of the tag. -/
def tagEnd? (t : Text) : Option (Text × Text) := Text.cut tagEnd (.plain false) t

/-- The text up to the first `>` and the text after it. -/
def firstTagEnd? (t : Text) : Option (Text × Text) := Text.cutAt '>' t

/-! ## What the delimiters are -/

theorem eq_of_quote_eq_none {q c : Char} {escaped : Bool} (h : quote q escaped c = none) :
    c = q := by
  unfold quote at h
  split at h
  · simp at h
  · split at h
    · simp at h
    · split at h
      · assumption
      · simp at h

theorem eq_of_brace_eq_none {inner : Nat} {c : Char} (h : brace inner c = none) : c = '}' := by
  unfold brace at h
  split at h
  · simp at h
  · split at h
    · assumption
    · simp at h

theorem eq_of_tagEnd_eq_none {r : Region} {c : Char} (h : tagEnd r c = none) : c = '>' := by
  unfold tagEnd at h
  split at h
  · split at h
    · assumption
    · repeat' split at h
      all_goals simp at h
  · split at h <;> simp at h
  · split at h <;> simp at h

/-- A quoted value is followed by its closing quote. -/
theorem eq_append_of_quoted? {q : Char} {t body rest : Text} (h : quoted? q t = some (body, rest)) :
    t = body ++ q :: rest := by
  obtain ⟨_, c, hc, ht⟩ := Text.exists_of_cut h
  rw [ht, eq_of_quote_eq_none hc]

/-- A braced value is followed by its closing brace. -/
theorem eq_append_of_braced? {t body rest : Text} (h : braced? t = some (body, rest)) :
    t = body ++ '}' :: rest := by
  obtain ⟨_, c, hc, ht⟩ := Text.exists_of_cut h
  rw [ht, eq_of_brace_eq_none hc]

/-- The text of a tag is followed by a `>`. -/
theorem eq_append_of_tagEnd? {t inner rest : Text} (h : tagEnd? t = some (inner, rest)) :
    t = inner ++ '>' :: rest := by
  obtain ⟨_, c, hc, ht⟩ := Text.exists_of_cut h
  rw [ht, eq_of_tagEnd_eq_none hc]

theorem eq_append_of_firstTagEnd? {t inner rest : Text}
    (h : firstTagEnd? t = some (inner, rest)) : t = inner ++ '>' :: rest := by
  obtain ⟨_, c, hc, ht⟩ := Text.exists_of_cut h
  simp only [ite_eq_left_iff, reduceCtorEq, imp_false, Decidable.not_not] at hc
  rw [ht, hc]

end ErbTags.Delimiter
