import ErbTags.Text

/-!
# Generated text

Generated text grows at its end. A place in it can be remembered by its byte offset, and text can be
inserted there later; the view `Output.toText` says what each operation does. The characters are
kept in reverse, so that adding at the end costs no more than what is added, and inserting costs
what stands behind the place.
-/

namespace ErbTags

/-- Text that is being generated. -/
structure Output where
  /-- The characters, last one first. -/
  reversed : Text
  /-- The number of bytes. -/
  size : Nat
  /-- The size is that of the characters. -/
  size_eq : size = Text.byteSize reversed

namespace Output

/-- The text generated so far. -/
def toText (o : Output) : Text := o.reversed.reverse

/-- No text. -/
def empty : Output := ⟨[], 0, rfl⟩

/-- Adds text at the end. -/
def push (o : Output) (t : Text) : Output where
  reversed := t.reverse ++ o.reversed
  size := o.size + Text.byteSize t
  size_eq := by simp [o.size_eq, Nat.add_comm]

/-- Inserts text at byte `offset`. This fails past the end and inside a character. -/
def insert? (o : Output) (offset : Nat) (t : Text) : Option Output :=
  if offset ≤ o.size then
    match h : Text.split? (o.size - offset) o.reversed with
    | some (behind, before) =>
      some {
        reversed := behind ++ (t.reverse ++ before)
        size := o.size + Text.byteSize t
        size_eq := by
          have := (Text.split?_eq_some_iff.1 h).1
          simp only [o.size_eq, this, Text.byteSize_append, Text.byteSize_reverse]
          omega }
    | none => none
  else none

theorem ext_toText {o o' : Output} (h : o.toText = o'.toText) : o = o' := by
  obtain ⟨r, s, hs⟩ := o
  obtain ⟨r', s', hs'⟩ := o'
  have hr : r = r' := by simpa [toText] using h
  subst hr
  simp [hs, hs']

@[simp] theorem toText_empty : empty.toText = [] := rfl

@[simp] theorem toText_push (o : Output) (t : Text) : (o.push t).toText = o.toText ++ t := by
  simp [toText, push]

theorem size_eq_byteSize_toText (o : Output) : o.size = Text.byteSize o.toText := by
  simp [toText, o.size_eq]

/-- Inserting succeeds exactly at the places between characters, and puts the text there. -/
theorem insert?_eq_some_iff {o o' : Output} {offset : Nat} {t : Text} :
    o.insert? offset t = some o' ↔
      ∃ before behind, o.toText = before ++ behind ∧ Text.byteSize before = offset ∧
        o'.toText = before ++ (t ++ behind) := by
  have hsize := o.size_eq
  constructor
  · intro h
    unfold insert? at h
    split at h
    · split at h
      · next behind before hsplit =>
        obtain ⟨hrev, hbytes⟩ := Text.split?_eq_some_iff.1 hsplit
        simp only [Option.some.injEq] at h
        subst h
        refine ⟨before.reverse, behind.reverse, by simp [toText, hrev], ?_, by simp [toText]⟩
        simp only [hrev, Text.byteSize_append] at hsize
        simp only [Text.byteSize_reverse]
        omega
      · simp at h
    · simp at h
  · rintro ⟨before, behind, htext, hbytes, htext'⟩
    have hrev : o.reversed = behind.reverse ++ before.reverse := by
      rw [← List.reverse_append, ← htext, toText, List.reverse_reverse]
    have hall : o.size = Text.byteSize before + Text.byteSize behind := by
      rw [hsize, hrev]
      simp [Nat.add_comm]
    have hsplit : Text.split? (o.size - offset) o.reversed =
        some (behind.reverse, before.reverse) :=
      Text.split?_eq_some_iff.2 ⟨hrev, by simp only [Text.byteSize_reverse]; omega⟩
    unfold insert?
    rw [if_pos (by omega)]
    split
    · next heq =>
      rw [hsplit, Option.some.injEq, Prod.mk.injEq] at heq
      obtain ⟨rfl, rfl⟩ := heq
      exact congrArg some (ext_toText (by rw [htext']; simp [toText]))
    · next heq => simp [hsplit] at heq

end Output

end ErbTags
