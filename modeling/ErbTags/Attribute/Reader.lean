import ErbTags.Attribute
import ErbTags.Delimiter

/-!
# Reading attributes

The text between the name and the end of a tag is cut into pieces: keys with or without a value, and
characters that are skipped. The pieces lie side by side, so that together they are the text
(`text_pieces`), and what the attributes mean is read off them one by one (`Attributes.read`).

A value that lacks its closing quote or brace takes the whole rest of the text and is the last
piece. A value with neither quotes nor braces is dropped, and its key counts as set.
-/

namespace ErbTags.Attribute

open Text (isBlank)

/-- A value as it is written after an `=`. -/
inductive Written where
  /-- A string in the quotes `q`. -/
  | quoted (q : Char) (body : Text)
  /-- An expression in braces. -/
  | braced (body : Text)
  /-- Anything else up to the next blank; it may be empty. -/
  | bare (body : Text)
  /-- A string that lacks its closing quote. -/
  | openQuoted (q : Char) (body : Text)
  /-- An expression that lacks its closing brace. -/
  | openBraced (body : Text)
deriving DecidableEq, Repr

/-- A piece of the text between the name and the end of a tag. -/
inductive Piece where
  /-- A character that belongs to no key and no value. -/
  | filler (c : Char)
  /-- A key without an `=`. -/
  | flag (key : Text)
  /-- A key, blanks, an `=`, blanks, and a value. -/
  | assigned (key before after : Text) (value : Written)
deriving DecidableEq, Repr

/-- The value as written. -/
def Written.text : Written → Text
  | .quoted q body => q :: (body ++ [q])
  | .braced body => '{' :: (body ++ ['}'])
  | .bare body => body
  | .openQuoted q body => q :: body
  | .openBraced body => '{' :: body

/-- The piece as written. -/
def Piece.text : Piece → Text
  | .filler c => [c]
  | .flag key => key
  | .assigned key before after value => key ++ before ++ '=' :: (after ++ value.text)

/-! ## Cutting the text into pieces -/

/-- A character that a key may hold. -/
def isKeyChar (c : Char) : Bool := c.isAlphanum || c == '_' || c == '-'

/-- The value at the front of a text, and the text after it. -/
def readValue : Text → Written × Text
  | [] => (.bare [], [])
  | c :: t =>
    if Delimiter.isQuote c then
      match Delimiter.quoted? c t with
      | some (body, rest) => (.quoted c body, rest)
      | none => (.openQuoted c t, [])
    else if c = '{' then
      match Delimiter.braced? t with
      | some (body, rest) => (.braced body, rest)
      | none => (.openBraced t, [])
    else (.bare ((c :: t).takeWhile (!isBlank ·)), (c :: t).dropWhile (!isBlank ·))

/-- The blanks before an `=` and the text after it, if an `=` is what follows. -/
def assignment? (t : Text) : Option (Text × Text) :=
  match t.dropWhile isBlank with
  | '=' :: rest => some (t.takeWhile isBlank, rest)
  | _ => none

/-- The piece that starts with the given key, and the text after it. -/
def readKeyed (key t : Text) : Piece × Text :=
  match assignment? t with
  | none => (.flag key, t)
  | some (before, rest) =>
    (.assigned key before (rest.takeWhile isBlank) (readValue (rest.dropWhile isBlank)).1,
      (readValue (rest.dropWhile isBlank)).2)

/-- The piece at the front of the text `c :: t`, and the text after it. -/
def readPiece (c : Char) (t : Text) : Piece × Text :=
  if isKeyChar c then readKeyed ((c :: t).takeWhile isKeyChar) ((c :: t).dropWhile isKeyChar)
  else (.filler c, t)

theorem readValue_text (t : Text) : (readValue t).1.text ++ (readValue t).2 = t := by
  unfold readValue
  split
  · rfl
  · split
    · split
      · next h => simp [Written.text, Delimiter.eq_append_of_quoted? h]
      · simp [Written.text]
    · split
      · next hc =>
        split
        · next h => simp [Written.text, hc, Delimiter.eq_append_of_braced? h]
        · simp [Written.text, hc]
      · exact List.takeWhile_append_dropWhile

theorem eq_of_assignment? {t before rest : Text} (h : assignment? t = some (before, rest)) :
    t = before ++ '=' :: rest := by
  have ht := List.takeWhile_append_dropWhile (p := isBlank) (l := t)
  unfold assignment? at h
  split at h
  · next heq =>
    simp only [Option.some.injEq, Prod.mk.injEq] at h
    rw [← h.1, ← h.2, ← heq, ht]
  · simp at h

theorem readKeyed_text (key t : Text) :
    (readKeyed key t).1.text ++ (readKeyed key t).2 = key ++ t := by
  unfold readKeyed
  split
  · rfl
  · next before rest h =>
    have hr := List.takeWhile_append_dropWhile (p := isBlank) (l := rest)
    have hv := readValue_text (rest.dropWhile isBlank)
    simp only [Piece.text, List.append_assoc, List.cons_append, hv, hr]
    rw [← eq_of_assignment? h]

/-- Reading a piece loses nothing. -/
theorem readPiece_text (c : Char) (t : Text) :
    (readPiece c t).1.text ++ (readPiece c t).2 = c :: t := by
  unfold readPiece
  split
  · rw [readKeyed_text, List.takeWhile_append_dropWhile]
  · simp [Piece.text]

/-- A piece that starts with a key is at least as long as the key. -/
theorem length_le_readKeyed (key t : Text) : key.length ≤ (readKeyed key t).1.text.length := by
  unfold readKeyed
  split <;> simp only [Piece.text, List.length_append] <;> omega

/-- Reading a piece makes progress. -/
theorem length_readPiece_le (c : Char) (t : Text) : (readPiece c t).2.length ≤ t.length := by
  have h := congrArg List.length (readPiece_text c t)
  have hpos : 0 < (readPiece c t).1.text.length := by
    unfold readPiece
    split
    · next hc =>
      refine Nat.lt_of_lt_of_le ?_ (length_le_readKeyed _ _)
      rw [List.takeWhile_cons_of_pos hc]
      simp
    · simp [Piece.text]
  simp only [List.length_append, List.length_cons] at h
  omega

/-- The pieces of a text. -/
def pieces : Text → List Piece
  | [] => []
  | c :: t => (readPiece c t).1 :: pieces (readPiece c t).2
termination_by t => t.length
decreasing_by
  have := length_readPiece_le c t
  simp only [List.length_cons]
  omega

/-- The pieces together are the text. -/
theorem text_pieces (t : Text) : (pieces t).flatMap Piece.text = t := by
  fun_induction pieces t with
  | case1 => rfl
  | case2 c t ih => rw [List.flatMap_cons, ih, readPiece_text]

/-! ## What the pieces mean -/

/-- The key as a name of the host language: dashes become underscores. -/
def normalizeKey (key : Text) : Text := key.map fun c => if c = '-' then '_' else c

/-- The key whose string value names the block variable. -/
def aliasKey : Text := "as".toList

/-- The keyword argument that a piece stands for. A string under the alias key is none. -/
def Piece.entry? : Piece → Option AttributeEntry
  | .filler _ => none
  | .flag key => some ⟨normalizeKey key, .yes⟩
  | .assigned key _ _ value =>
    match value with
    | .quoted _ body =>
      if normalizeKey key = aliasKey then none else some ⟨normalizeKey key, .string body⟩
    | .braced body => some ⟨normalizeKey key, .expression body⟩
    | .bare _ | .openQuoted _ _ | .openBraced _ => some ⟨normalizeKey key, .yes⟩

/-- The block variable that a piece names: the trimmed string under the alias key, unless it is
blank. -/
def Piece.blockVariable? : Piece → Option Text
  | .assigned key _ _ (.quoted _ body) =>
    if normalizeKey key = aliasKey ∧ Text.trim body ≠ [] then some (Text.trim body) else none
  | _ => none

/-- The fault of a piece. -/
def Piece.fault? : Piece → Option AttributeFault
  | .assigned key _ _ (.openQuoted _ _) => some (.unterminated (normalizeKey key))
  | .assigned key _ _ (.openBraced _) => some (.unbalanced (normalizeKey key))
  | _ => none

end ErbTags.Attribute

namespace ErbTags

open Attribute in
/-- The attributes in the text between the name and the end of a tag. Of several names for the block
variable the last one counts. -/
def Attributes.read (t : Text) : Attributes where
  entries := (pieces t).filterMap Piece.entry?
  blockVariable := ((pieces t).filterMap Piece.blockVariable?).getLast?
  faults := (pieces t).filterMap Piece.fault?

end ErbTags
