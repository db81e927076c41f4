import ErbTags.Tag.Reader

/-!
# Finding tags

A tag ends at a `>`, so only the text up to the last `>` is searched. `Scanner.next` gives the first
tag at or after a byte offset; it is asked for one tag after the other, and keeps in its state
whether the search for the end of tags is exhausted. `segments` does the same for a whole template
in one go and gives the text between the tags too, so that nothing is lost (`text_segments`).
-/

namespace ErbTags

/-- A tag that was found, and what is around it. -/
structure Found where
  /-- The text before the tag. -/
  gap : Text
  /-- The tag. -/
  tag : Tag
  /-- The text after the tag. -/
  rest : Text
  /-- Whether the search for the end of tags is exhausted from now on. -/
  exhausted : Bool
deriving DecidableEq, Repr

/-- The loop of `findTag?`, with the characters passed so far in reverse. -/
def findTagAfter (exhausted : Bool) (passed : Text) (start : Nat) : Text → Option Found
  | [] => none
  | c :: t =>
    match if c = '<' then Tag.read? exhausted start t else none with
    | some (tag, rest, exhausted') => some ⟨passed.reverse, tag, rest, exhausted'⟩
    | none => findTagAfter exhausted (c :: passed) (start + c.utf8Size) t

/-- The first tag of a text that begins at byte `start`. -/
def findTag? (exhausted : Bool) (start : Nat) (t : Text) : Option Found :=
  findTagAfter exhausted [] start t

theorem text_of_findTagAfter {exhausted : Bool} {passed : Text} {start : Nat} {t : Text} {f : Found}
    (h : findTagAfter exhausted passed start t = some f) :
    passed.reverse ++ t = f.gap ++ (f.tag.text ++ f.rest) := by
  induction t generalizing passed start with
  | nil => simp [findTagAfter] at h
  | cons c t ih =>
    simp only [findTagAfter] at h
    split at h
    · next heq =>
      split at heq
      · next hc =>
        simp only [Option.some.injEq] at h
        subst h
        rw [hc, Tag.text_of_read? heq]
      · simp at heq
    · simpa using ih h

/-- The text before a tag, the tag and the text after it are the text. -/
theorem text_of_findTag? {exhausted : Bool} {start : Nat} {t : Text} {f : Found}
    (h : findTag? exhausted start t = some f) : t = f.gap ++ (f.tag.text ++ f.rest) := by
  simpa using text_of_findTagAfter h

theorem Tag.text_ne_nil (tag : Tag) : tag.text ≠ [] := by
  simp [Tag.text]

/-- Finding a tag makes progress. -/
theorem length_rest_lt {exhausted : Bool} {start : Nat} {t : Text} {f : Found}
    (h : findTag? exhausted start t = some f) : f.rest.length < t.length := by
  have hlen := congrArg List.length (text_of_findTag? h)
  have hpos := List.length_pos_iff.2 f.tag.text_ne_nil
  simp only [List.length_append] at hlen
  omega

/-! ## One tag at a time -/

/-- A template that is searched for tags, one after the other. -/
structure Scanner where
  /-- The text that can hold a tag. -/
  text : Text
  /-- Whether some value was found open up to the last `>`: later tags end at their first `>`. -/
  exhausted : Bool
deriving DecidableEq, Repr

namespace Scanner

/-- The part of a template that can hold a tag, and the rest of it. -/
def searchable (t : Text) : Text × Text := Text.splitLast '>' t

/-- A scanner for a template. -/
def ofText (t : Text) : Scanner := ⟨(searchable t).1, false⟩

/-- The first tag that starts at byte `offset` or later, and the scanner after the search. -/
def next (s : Scanner) (offset : Nat) : Option Tag × Scanner :=
  let (start, t) := Text.seek offset 0 s.text
  match findTag? s.exhausted start t with
  | some f => (some f.tag, { s with exhausted := f.exhausted })
  | none => (none, s)

/-- The answers to a list of offsets, all given by one scanner. -/
def nextAll (s : Scanner) : List Nat → List (Option Tag)
  | [] => []
  | offset :: offsets =>
    let (tag, s') := s.next offset
    tag :: s'.nextAll offsets

end Scanner

/-! ## A whole template -/

/-- A tag with the text between it and the tag before. -/
structure Segment where
  /-- The text before the tag. -/
  gap : Text
  /-- The tag. -/
  tag : Tag
deriving DecidableEq, Repr

/-- The segment as written. -/
def Segment.text (s : Segment) : Text := s.gap ++ s.tag.text

/-- The segments of a text that begins at byte `start`, and the text after the last tag. -/
def segmentsFrom (exhausted : Bool) (start : Nat) (t : Text) : List Segment × Text :=
  match _h : findTag? exhausted start t with
  | none => ([], t)
  | some f =>
    let (segments, tail) := segmentsFrom f.exhausted f.tag.stop f.rest
    (⟨f.gap, f.tag⟩ :: segments, tail)
termination_by t.length
decreasing_by exact length_rest_lt ‹_›

/-- The segments of a template, and the text after the last tag. -/
def segments (t : Text) : List Segment × Text :=
  let (before, after) := Scanner.searchable t
  let (segments, tail) := segmentsFrom false 0 before
  (segments, tail ++ after)

/-- The tags of a template. -/
def tags (t : Text) : List Tag := (segments t).1.map Segment.tag

theorem text_segmentsFrom (exhausted : Bool) (start : Nat) (t : Text) :
    (segmentsFrom exhausted start t).1.flatMap Segment.text ++ (segmentsFrom exhausted start t).2
      = t := by
  fun_induction segmentsFrom exhausted start t with
  | case1 => rfl
  | case2 exhausted start t f h segments tail heq ih =>
    rw [heq] at ih
    simp only [List.flatMap_cons, Segment.text, List.append_assoc, ih]
    exact (text_of_findTag? h).symm

/-- The segments and the text after the last tag are the template. -/
theorem text_segments (t : Text) : (segments t).1.flatMap Segment.text ++ (segments t).2 = t := by
  simp only [segments, Scanner.searchable]
  rw [← List.append_assoc, text_segmentsFrom, Text.splitLast_append]

end ErbTags
