/-!
# Template text

A template is a list of characters. Every offset that the library hands out or takes is a byte
offset of the UTF-8 text, so this file fixes what a byte offset means for a list of characters:
the size of a text, the first character at or after an offset, and the part of a text between two
offsets, which exists only if both lie between characters.

The readers of the library all look for the character that ends something: the `>` of a tag, the
closing quote of a string, the closing brace of an expression. They share one function, `cut`,
which runs a small automaton over the text and splits it at the character where the automaton
stops.
-/

namespace ErbTags

/-- A piece of template text. -/
abbrev Text := List Char

namespace Text

/-! ## Sizes and offsets -/

/-- Number of bytes of the text in UTF-8. -/
def byteSize (t : Text) : Nat := t.foldr (fun c n => c.utf8Size + n) 0

@[simp] theorem byteSize_nil : byteSize [] = 0 := rfl

@[simp] theorem byteSize_cons (c : Char) (t : Text) :
    byteSize (c :: t) = c.utf8Size + byteSize t := rfl

@[simp] theorem byteSize_append (s t : Text) : byteSize (s ++ t) = byteSize s + byteSize t := by
  induction s with
  | nil => simp
  | cons c s ih => simp [ih, Nat.add_assoc]

@[simp] theorem byteSize_reverse (t : Text) : byteSize t.reverse = byteSize t := by
  induction t with
  | nil => rfl
  | cons c t ih => simp [ih, Nat.add_comm]

/-- The first place between characters at byte `offset` or later, for a text that begins at byte
`start`, with the text from there on. An offset inside a character moves to the end of it, one past
the end stops at the end. -/
def seek (offset start : Nat) : Text → Nat × Text
  | [] => (start, [])
  | c :: t => if offset ≤ start then (start, c :: t) else seek offset (start + c.utf8Size) t

/-- The loop of `split?`, with the characters passed so far in reverse. -/
def splitAfter? (passed : Text) : Nat → Text → Option (Text × Text)
  | 0, t => some (passed.reverse, t)
  | _ + 1, [] => none
  | n + 1, c :: t =>
    if c.utf8Size ≤ n + 1 then splitAfter? (c :: passed) (n + 1 - c.utf8Size) t else none

/-- The text before byte `n` and the text from it on, if byte `n` lies between two characters or at
an end. -/
def split? (n : Nat) (t : Text) : Option (Text × Text) := splitAfter? [] n t

theorem splitAfter?_eq_some_iff {passed t before after : Text} {n : Nat} :
    splitAfter? passed n t = some (before, after) ↔
      ∃ middle, before = passed.reverse ++ middle ∧ t = middle ++ after ∧ byteSize middle = n := by
  fun_induction splitAfter? passed n t with
  | case1 passed t =>
    constructor
    · intro h
      simp only [Option.some.injEq, Prod.mk.injEq] at h
      exact ⟨[], by simp [h.1], by simp [h.2], rfl⟩
    · rintro ⟨middle, rfl, rfl, hm⟩
      cases middle with
      | nil => simp
      | cons c m => have := c.utf8Size_pos; simp only [byteSize_cons] at hm; omega
  | case2 passed n =>
    constructor
    · simp
    · rintro ⟨middle, _, h, hm⟩
      have hnil := (List.append_eq_nil_iff.1 h.symm).1
      simp [hnil] at hm
  | case3 passed n c t hc ih =>
    rw [ih]
    constructor
    · rintro ⟨middle, hb, ht, hm⟩
      exact ⟨c :: middle, by simp [hb], by simp [ht], by rw [byteSize_cons]; omega⟩
    · rintro ⟨middle, rfl, h, hm⟩
      cases middle with
      | nil => simp at hm
      | cons d m =>
        simp only [List.cons_append, List.cons.injEq] at h
        obtain ⟨rfl, rfl⟩ := h
        simp only [byteSize_cons] at hm
        exact ⟨m, by simp, rfl, by omega⟩
  | case4 passed n c t hc =>
    constructor
    · simp
    · rintro ⟨middle, _, h, hm⟩
      cases middle with
      | nil => simp at hm
      | cons d m =>
        simp only [List.cons_append, List.cons.injEq] at h
        obtain ⟨rfl, rfl⟩ := h
        simp only [byteSize_cons] at hm
        omega

/-- A text splits at byte `n` exactly if it has a front part of `n` bytes. -/
theorem split?_eq_some_iff {t before after : Text} {n : Nat} :
    split? n t = some (before, after) ↔ t = before ++ after ∧ byteSize before = n := by
  rw [split?, splitAfter?_eq_some_iff]
  simp

/-- The text from byte `start` up to byte `stop`. There is none if the bounds are out of order, past
the end, or inside a character. -/
def slice? (t : Text) (start stop : Nat) : Option Text := do
  guard (start ≤ stop)
  let (_, after) ← split? start t
  let (part, _) ← split? (stop - start) after
  return part

/-! ## Cutting at a delimiter -/

variable {σ : Type}

/-- The loop of `cut`, with the characters seen so far in reverse. -/
def cutAfter (next : σ → Char → Option σ) (seen : Text) : σ → Text → Option (Text × Text)
  | _, [] => none
  | s, c :: t =>
    match next s c with
    | none => some (seen.reverse, t)
    | some s' => cutAfter next (c :: seen) s' t

/-- Runs the automaton `next` from state `s` over the text. The character at which it has no next
state is the delimiter: the result is the text before it and the text after it. There is no result
if the text ends first. -/
def cut (next : σ → Char → Option σ) (s : σ) (t : Text) : Option (Text × Text) :=
  cutAfter next [] s t

theorem cutAfter_eq (next : σ → Char → Option σ) (seen : Text) (s : σ) (t : Text) :
    cutAfter next seen s t =
      (cut next s t).map fun (before, after) => (seen.reverse ++ before, after) := by
  induction t generalizing seen s with
  | nil => rfl
  | cons c t ih =>
    simp only [cut, cutAfter]
    cases next s c with
    | none => simp
    | some s' =>
      simp only [ih (c :: seen) s', ih [c] s']
      cases cut next s' t <;> simp

@[simp] theorem cut_nil (next : σ → Char → Option σ) (s : σ) : cut next s [] = none := rfl

theorem cut_cons (next : σ → Char → Option σ) (s : σ) (c : Char) (t : Text) :
    cut next s (c :: t) =
      match next s c with
      | none => some ([], t)
      | some s' => (cut next s' t).map fun (before, after) => (c :: before, after) := by
  simp only [cut, cutAfter]
  cases next s c with
  | none => rfl
  | some s' => simp [cutAfter_eq]

/-- A cut splits the text at one character, its delimiter. -/
theorem exists_of_cut {next : σ → Char → Option σ} {s : σ} {t before after : Text}
    (h : cut next s t = some (before, after)) :
    ∃ s' c, next s' c = none ∧ t = before ++ c :: after := by
  induction t generalizing s before with
  | nil => simp at h
  | cons d t ih =>
    rw [cut_cons] at h
    cases hd : next s d with
    | none =>
      simp only [hd, Option.some.injEq, Prod.mk.injEq] at h
      obtain ⟨rfl, rfl⟩ := h
      exact ⟨s, d, hd, rfl⟩
    | some s₁ =>
      simp only [hd, Option.map_eq_some_iff, Prod.mk.injEq, Prod.exists] at h
      obtain ⟨b, _, hb, rfl, rfl⟩ := h
      obtain ⟨s', c, hc, rfl⟩ := ih hb
      exact ⟨s', c, hc, rfl⟩

/-- The text before and after the first occurrence of `d`. -/
def cutAt (d : Char) (t : Text) : Option (Text × Text) :=
  cut (fun _ c => if c = d then none else some ()) () t

/-- The text up to and with the last occurrence of `d`, and the text after it. -/
def splitLast (d : Char) (t : Text) : Text × Text :=
  ((t.reverse.dropWhile (· ≠ d)).reverse, (t.reverse.takeWhile (· ≠ d)).reverse)

theorem splitLast_append (d : Char) (t : Text) : (splitLast d t).1 ++ (splitLast d t).2 = t := by
  rw [splitLast, ← List.reverse_append, List.takeWhile_append_dropWhile, List.reverse_reverse]

/-- The text after `p`, if it begins with `p`. -/
def after? (p t : Text) : Option Text :=
  if p.isPrefixOf t then some (t.drop p.length) else none

theorem after?_eq_some_iff {p t rest : Text} : after? p t = some rest ↔ t = p ++ rest := by
  unfold after?
  split
  · next h =>
    obtain ⟨u, rfl⟩ := List.isPrefixOf_iff_prefix.1 h
    rw [List.drop_left, Option.some.injEq, List.append_cancel_left_eq]
  · next h =>
    refine iff_of_false (by simp) ?_
    rintro rfl
    exact h (List.isPrefixOf_iff_prefix.2 (List.prefix_append p rest))

end Text

end ErbTags
