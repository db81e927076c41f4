import ErbTags.Tag
import ErbTags.Name
import ErbTags.Delimiter

/-!
# Reading a tag

What is a tag is decided at its `<`. A closing tag is `</`, a name, blanks and `>`. An opening tag
is `<` and a name, followed by `>`, by `/>`, or by a blank and then attributes up to the end of the
tag.

The end of a tag with attributes is the first `>` outside quoted and braced values. If a value is
not closed anywhere, there is no such `>`; the tag then ends at the very first `>`, and the search
for the end of later tags is not worth repeating: the reader is told that it is *exhausted* and
takes the first `>` at once. This keeps the work linear in the size of the text.
-/

namespace ErbTags.Tag

/-- The closing tag at byte `start`, for the text right after the `<`, with the text after the
tag. -/
def readClosing? (start : Nat) : Text → Option (Tag × Text)
  | '/' :: t => do
    let (name, rest) ← Name.read? t
    match rest.dropWhile Text.isBlank with
    | '>' :: rest' => some (⟨.closing, name, [], rest.takeWhile Text.isBlank, start⟩, rest')
    | _ => none
  | _ => none

/-- The tag with the given text between its name and its `>`. It is self-closing if a slash ends
that text, white space aside. -/
def ofInner (start : Nat) (name inner : Text) : Tag :=
  if (Text.trimEnd inner).getLast? = some '/' then
    ⟨.selfClosing, name, (Text.trimEnd inner).dropLast, '/' :: Text.trailingSpace inner, start⟩
  else ⟨.opening, name, inner, [], start⟩

/-- The text up to the end of a tag with attributes, the text after it, and whether the search is
exhausted from now on. -/
def innerText? (exhausted : Bool) (t : Text) : Option (Text × Text × Bool) :=
  match if exhausted then none else Delimiter.tagEnd? t with
  | some (inner, rest) => some (inner, rest, exhausted)
  | none => (Delimiter.firstTagEnd? t).map fun (inner, rest) => (inner, rest, true)

/-- The opening or self-closing tag at byte `start`, for the text right after the `<`, with the text
after the tag and whether the search is exhausted from now on. -/
def readOpening? (exhausted : Bool) (start : Nat) (t : Text) : Option (Tag × Text × Bool) := do
  let (name, rest) ← Name.read? t
  match rest with
  | '>' :: rest' => some (⟨.opening, name, [], [], start⟩, rest', exhausted)
  | '/' :: '>' :: rest' => some (⟨.selfClosing, name, [], ['/'], start⟩, rest', exhausted)
  | c :: _ =>
    if Text.isBlank c then
      (innerText? exhausted rest).map fun (inner, rest', exhausted') =>
        (ofInner start name inner, rest', exhausted')
    else none
  | [] => none

/-- The tag at byte `start`, for the text right after the `<`. -/
def read? (exhausted : Bool) (start : Nat) (t : Text) : Option (Tag × Text × Bool) :=
  match readClosing? start t with
  | some (tag, rest) => some (tag, rest, exhausted)
  | none => readOpening? exhausted start t

/-! ## Reading loses nothing -/

theorem text_of_readClosing? {start : Nat} {t rest : Text} {tag : Tag}
    (h : readClosing? start t = some (tag, rest)) : '<' :: t = tag.text ++ rest := by
  unfold readClosing? at h
  split at h
  · next t =>
    simp only [Option.bind_eq_bind, Option.bind_eq_some_iff, Prod.exists] at h
    obtain ⟨name, rest₁, hname, h⟩ := h
    split at h
    · next rest' heq =>
      simp only [Option.some.injEq, Prod.mk.injEq] at h
      obtain ⟨rfl, rfl⟩ := h
      have hsplit := List.takeWhile_append_dropWhile (p := Text.isBlank) (l := rest₁)
      rw [Name.eq_append_of_read? hname]
      simp only [Tag.text, TagKind.opener, List.cons_append, List.nil_append, List.append_assoc]
      rw [← heq, hsplit]
    · simp at h
  · simp at h

theorem text_ofInner (start : Nat) (name inner : Text) :
    (ofInner start name inner).text = '<' :: (name ++ (inner ++ ['>'])) := by
  unfold ofInner
  split
  · next h =>
    obtain ⟨body, hbody⟩ := List.getLast?_eq_some_iff.1 h
    have hinner := Text.trimEnd_append_trailingSpace inner
    rw [hbody] at hinner ⊢
    conv => rhs; rw [← hinner]
    simp [Tag.text, TagKind.opener]
  · simp [Tag.text, TagKind.opener]

theorem eq_append_of_innerText? {exhausted exhausted' : Bool} {t inner rest : Text}
    (h : innerText? exhausted t = some (inner, rest, exhausted')) : t = inner ++ '>' :: rest := by
  unfold innerText? at h
  split at h
  · next heq =>
    simp only [Option.some.injEq, Prod.mk.injEq] at h
    obtain ⟨rfl, rfl, rfl⟩ := h
    split at heq
    · simp at heq
    · exact Delimiter.eq_append_of_tagEnd? heq
  · simp only [Option.map_eq_some_iff, Prod.mk.injEq, Prod.exists] at h
    obtain ⟨_, _, hfirst, rfl, rfl, _⟩ := h
    exact Delimiter.eq_append_of_firstTagEnd? hfirst

theorem text_of_readOpening? {exhausted exhausted' : Bool} {start : Nat} {t rest : Text} {tag : Tag}
    (h : readOpening? exhausted start t = some (tag, rest, exhausted')) :
    '<' :: t = tag.text ++ rest := by
  simp only [readOpening?, Option.bind_eq_bind, Option.bind_eq_some_iff, Prod.exists] at h
  obtain ⟨name, rest₁, hname, h⟩ := h
  rw [Name.eq_append_of_read? hname]
  split at h
  · simp only [Option.some.injEq, Prod.mk.injEq] at h
    obtain ⟨rfl, rfl, _⟩ := h
    simp [Tag.text, TagKind.opener]
  · simp only [Option.some.injEq, Prod.mk.injEq] at h
    obtain ⟨rfl, rfl, _⟩ := h
    simp [Tag.text, TagKind.opener]
  · split at h
    · simp only [Option.map_eq_some_iff, Prod.mk.injEq, Prod.exists] at h
      obtain ⟨inner, rest', _, hinner, rfl, rfl, _⟩ := h
      rw [text_ofInner, eq_append_of_innerText? hinner]
      simp
    · simp at h
  · simp at h

/-- A tag that is read stands at the front of the text, and what is left is the text after it. -/
theorem text_of_read? {exhausted exhausted' : Bool} {start : Nat} {t rest : Text} {tag : Tag}
    (h : read? exhausted start t = some (tag, rest, exhausted')) :
    '<' :: t = tag.text ++ rest := by
  unfold read? at h
  split at h
  · next heq =>
    simp only [Option.some.injEq, Prod.mk.injEq] at h
    obtain ⟨rfl, rfl, _⟩ := h
    exact text_of_readClosing? heq
  · exact text_of_readOpening? h

end ErbTags.Tag
