import ErbTags.Text.Position

/-!
# The order of positions

Going on in a text leads to a later line, or further along the same line. So the positions of
increasing offsets increase, first by line and then by column (`position_before`), whatever stands
in the text and also past its end, as long as the column does not wrap around (`Counts`).
-/

namespace ErbTags

/-- The position lies on an earlier line than the other, or before it on the same line. -/
def Position.Before (p q : Position) : Prop :=
  p.line < q.line ∨ p.line = q.line ∧ p.column < q.column

namespace Text

/-- The column `n` bytes after `p` does not wrap around: the place lies in the text, or its column
is not too great for a word. -/
def Counts (p : Position) (n : Nat) (t : Text) : Prop :=
  n < byteSize t ∨ if '\n' ∈ t then n ≤ maxOffset else p.column + n ≤ maxOffset

section Counts

variable {p : Position} {n m : Nat} {c : Char} {t : Text}

theorem counts_nil : Counts p n [] ↔ p.column + n ≤ maxOffset := by
  simp [Counts]

/-- Behind a line feed the column starts again. -/
theorem Counts.lineFeed {line : Nat} (h : Counts p (n + 1) ('\n' :: t)) :
    Counts ⟨line, 1⟩ n t := by
  have hsize : '\n'.utf8Size = 1 := by decide
  rw [Counts, byteSize_cons, hsize, if_pos List.mem_cons_self] at h
  by_cases hfeed : '\n' ∈ t <;> simp only [Counts, hfeed, if_true, if_false] <;> omega

/-- Behind another character the column goes on. -/
theorem Counts.tail (h : Counts p n (c :: t)) (hc : c ≠ '\n') (hsize : c.utf8Size ≤ n) :
    Counts ⟨p.line, p.column + c.utf8Size⟩ (n - c.utf8Size) t := by
  simp only [Counts, byteSize_cons, List.mem_cons, Ne.symm hc, false_or] at h
  by_cases hfeed : '\n' ∈ t <;> simp only [Counts, hfeed, if_true, if_false] at h ⊢ <;> omega

/-- Going on by some bytes either stays on the line or leads to a later one. -/
theorem advance_cases (h : Counts p n t) :
    advance p n t = ⟨p.line, p.column + n⟩ ∨ p.line < (advance p n t).line := by
  fun_induction advance p n t with
  | case1 p n => exact Or.inl (by rw [Nat.mod_eq_of_lt (Nat.lt_succ_of_le (counts_nil.1 h))])
  | case2 | case5 => exact Or.inl rfl
  | case3 p n t ih =>
    right
    rcases ih h.lineFeed with heq | hlt
    · rw [heq]
      exact Nat.lt_succ_self p.line
    · exact Nat.lt_of_succ_lt hlt
  | case4 p n c t hc hsize ih =>
    rcases ih (h.tail hc hsize) with heq | hlt
    · left
      rw [heq, Position.mk.injEq]
      exact ⟨rfl, by dsimp only; omega⟩
    · exact Or.inr hlt

theorem before_advance (h : Counts p n t) (hn : 0 < n) : p.Before (advance p n t) := by
  rcases advance_cases h with heq | hlt
  · rw [heq]
    exact Or.inr ⟨rfl, Nat.lt_add_of_pos_right hn⟩
  · exact Or.inl hlt

theorem advance_before (hm : Counts p m t) (h : n < m) :
    (advance p n t).Before (advance p m t) := by
  fun_induction advance p n t generalizing m with
  | case1 p n =>
    have hle := counts_nil.1 hm
    rw [advance, Nat.mod_eq_of_lt (by omega), Nat.mod_eq_of_lt (by omega)]
    exact Or.inr ⟨rfl, Nat.add_lt_add_left h _⟩
  | case2 p c t => exact before_advance hm h
  | case3 p n t ih =>
    obtain ⟨m, rfl⟩ : ∃ k, m = k + 1 := ⟨m - 1, by omega⟩
    rw [advance, if_pos rfl]
    exact ih hm.lineFeed (by omega)
  | case4 p n c t hc hsize ih =>
    obtain ⟨m, rfl⟩ : ∃ k, m = k + 1 := ⟨m - 1, by omega⟩
    have hsize' : c.utf8Size ≤ m + 1 := by omega
    rw [advance, if_neg hc, if_pos hsize']
    exact ih (hm.tail hc hsize') (by omega)
  | case5 p n c t hc hsize =>
    obtain ⟨m, rfl⟩ : ∃ k, m = k + 1 := ⟨m - 1, by omega⟩
    rw [advance, if_neg hc]
    -- The first place lies inside the character, the second one inside it or behind it.
    split
    case isTrue hsize' =>
      rcases advance_cases (hm.tail hc hsize') with heq | hlt
      · rw [heq]
        exact Or.inr ⟨rfl, by dsimp only; omega⟩
      · exact Or.inl hlt
    case isFalse => exact Or.inr ⟨rfl, Nat.add_lt_add_left h _⟩

/-- A later offset has a later position. -/
theorem position_before {offset offset' : Nat} (hcounts : Counts ⟨1, 1⟩ offset' t)
    (h : offset < offset') : (position t offset).Before (position t offset') :=
  advance_before hcounts h

end Counts

end Text

end ErbTags
