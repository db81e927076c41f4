import ErbTags.Attribute.Reader

/-!
# Values that end where they should

A value in quotes ends at its closing quote if the quote does not occur inside without a backslash
before it, and no backslash is left over at the end. An expression in braces ends at its closing
brace if the braces inside balance. Both are said without the automata of `Delimiter`: by recursion
on the text (`closedBy`) and by counting (`BracesBalance`).

Two automata meet such a value, the one that reads values and the one that looks for the end of a
tag. Both run over it and come out on the other side (`quoted?_append`, `braced?_append` and
`foldlM_tagEnd_quotedValue`, `foldlM_tagEnd_bracedValue`).
-/

namespace ErbTags

/-- An automaton that gets from `s` to `s'` over the first part of a text cuts the text in the
second part, as it does from `s'` on. -/
theorem Text.cut_append {σ : Type} {next : σ → Char → Option σ} {s s' : σ} {u : Text}
    (h : u.foldlM next s = some s') (t : Text) :
    Text.cut next s (u ++ t) =
      (Text.cut next s' t).map fun (before, after) => (u ++ before, after) := by
  induction u generalizing s with
  | nil =>
    have hs : s = s' := by simpa using h
    rw [hs]
    simp
  | cons c u ih =>
    rw [List.foldlM_cons] at h
    obtain ⟨s₁, hc, hu⟩ := Option.bind_eq_some_iff.1 h
    simp only [List.cons_append, Text.cut_cons, hc, ih hu, Option.map_map]
    rfl

theorem Text.eq_of_isBlank {c : Char} (h : Text.isBlank c = true) :
    c = ' ' ∨ c = '\t' ∨ c = '\n' ∨ c = '\x0c' ∨ c = '\r' := by
  simpa [Text.isBlank, or_assoc] using h

namespace Delimiter

variable {q : Char} {t : Text}

/-! ## Quotes -/

/-- Whether the text, put between the quotes `q`, holds no such quote without a backslash before it
and no backslash without a character after it. -/
def closedBy (q : Char) : Text → Bool
  | [] => true
  | ['\\'] => false
  | '\\' :: _ :: t => closedBy q t
  | c :: t => c ≠ q && closedBy q t

theorem eq_of_isQuote (hq : isQuote q = true) : q = '"' ∨ q = '\'' := by
  simpa [isQuote] using hq

theorem ne_backslash_of_isQuote (hq : isQuote q = true) : q ≠ '\\' := by
  rcases eq_of_isQuote hq with rfl | rfl <;> decide

theorem ne_backslash_of_unpaired {c : Char} (hlast : c = '\\' → t = [] → False)
    (hpair : ∀ d u, c = '\\' → t = d :: u → False) : c ≠ '\\' := by
  intro hc
  cases t with
  | nil => exact hlast hc rfl
  | cons d u => exact hpair d u hc rfl

theorem foldlM_quote (h : closedBy q t = true) : t.foldlM (quote q) false = some false := by
  fun_induction closedBy q t with
  | case1 => rfl
  | case2 => cases h
  | case3 c t ih =>
    show List.foldlM (quote q) false t = some false
    exact ih h
  | case4 c t hlast hpair ih =>
    have hc := ne_backslash_of_unpaired hlast hpair
    simp only [Bool.and_eq_true, decide_eq_true_eq] at h
    have hstep : quote q false c = some false := by simp [quote, hc, h.1]
    rw [List.foldlM_cons, hstep]
    exact ih h.2

theorem quote_self (hq : isQuote q = true) : quote q false q = none := by
  simp [quote, ne_backslash_of_isQuote hq]

/-- The text between quotes is read up to the closing quote. -/
theorem quoted?_append (hq : isQuote q = true) (h : closedBy q t = true) (rest : Text) :
    quoted? q (t ++ q :: rest) = some (t, rest) := by
  rw [quoted?, Text.cut_append (foldlM_quote h), Text.cut_cons, quote_self hq]
  simp

/-! ## Braces -/

/-- There are as many closing braces as opening ones, and nowhere more of them so far. -/
def BracesBalance (t : Text) : Prop :=
  (∀ before, before <+: t → before.count '}' ≤ before.count '{') ∧ t.count '}' = t.count '{'

theorem bracesBalance_iff_take : BracesBalance t ↔
    (∀ n : Fin (t.length + 1), (t.take n).count '}' ≤ (t.take n).count '{') ∧
      t.count '}' = t.count '{' := by
  refine and_congr_left fun _ => ?_
  constructor
  · intro h n
    exact h _ (List.take_prefix _ t)
  · intro h before hbefore
    have hle := h ⟨before.length, Nat.lt_succ_of_le hbefore.length_le⟩
    rwa [← List.prefix_iff_eq_take.1 hbefore] at hle

instance (t : Text) : Decidable (BracesBalance t) := decidable_of_iff _ bracesBalance_iff_take.symm

theorem brace_of_ne {c : Char} (n : Nat) (hopen : c ≠ '{') (hclose : c ≠ '}') :
    brace n c = some n := by
  simp [brace, hopen, hclose]

/-- The number of inner braces is the difference between the two counts. -/
theorem foldlM_brace (n : Nat)
    (h : ∀ before, before <+: t → before.count '}' ≤ n + before.count '{') :
    t.foldlM brace n = some (n + t.count '{' - t.count '}') := by
  induction t generalizing n with
  | nil => rfl
  | cons c t ih =>
    have hfront : ∀ before, before <+: t →
        (c :: before).count '}' ≤ n + (c :: before).count '{' := by
      intro before hbefore
      exact h (c :: before) (List.cons_prefix_cons.2 ⟨rfl, hbefore⟩)
    rw [List.foldlM_cons]
    by_cases hopen : c = '{'
    · subst hopen
      show List.foldlM brace (n + 1) t = _
      rw [ih (n + 1)]
      · rw [List.count_cons_self, List.count_cons_of_ne (by decide)]
        congr 2
        omega
      · intro before hbefore
        have hle := hfront before hbefore
        rw [List.count_cons_self, List.count_cons_of_ne (by decide)] at hle
        omega
    · by_cases hclose : c = '}'
      · subst hclose
        -- The brace alone is a prefix, so it closes one that is open.
        have hpos := hfront [] List.nil_prefix
        obtain ⟨m, rfl⟩ : ∃ m, n = m + 1 := ⟨n - 1, by simp at hpos; omega⟩
        show List.foldlM brace m t = _
        rw [ih m]
        · rw [List.count_cons_self, List.count_cons_of_ne (by decide)]
          congr 1
          omega
        · intro before hbefore
          have hle := hfront before hbefore
          rw [List.count_cons_self, List.count_cons_of_ne (by decide)] at hle
          omega
      · rw [brace_of_ne n hopen hclose, List.count_cons_of_ne hopen, List.count_cons_of_ne hclose]
        refine ih n ?_
        intro before hbefore
        have hle := hfront before hbefore
        rwa [List.count_cons_of_ne hopen, List.count_cons_of_ne hclose] at hle

theorem foldlM_brace_zero (h : BracesBalance t) : t.foldlM brace 0 = some 0 := by
  rw [foldlM_brace 0 (by simpa using h.1), h.2]
  simp

/-- The expression between braces is read up to the closing brace. -/
theorem braced?_append (h : BracesBalance t) (rest : Text) :
    braced? (t ++ '}' :: rest) = some (t, rest) := by
  rw [braced?, Text.cut_append (foldlM_brace_zero h), Text.cut_cons]
  simp [brace]

/-! ## The end of a tag -/

theorem foldlM_tagEnd_blanks (afterEquals : Bool) (h : ∀ c ∈ t, Text.isBlank c = true) :
    t.foldlM tagEnd (.plain afterEquals) = some (.plain afterEquals) := by
  induction t with
  | nil => rfl
  | cons c t ih =>
    have hc : tagEnd (.plain afterEquals) c = some (.plain afterEquals) := by
      rcases Text.eq_of_isBlank (h c List.mem_cons_self) with rfl | rfl | rfl | rfl | rfl <;>
        cases afterEquals <;> decide
    rw [List.foldlM_cons, hc]
    exact ih fun d hd => h d (List.mem_cons_of_mem c hd)

theorem tagEnd_of_isKeyChar {c : Char} (afterEquals : Bool) (h : Attribute.isKeyChar c = true) :
    tagEnd (.plain afterEquals) c = some (.plain false) := by
  have hne : ∀ d, Attribute.isKeyChar d = false → c ≠ d := by
    rintro d hd rfl
    rw [h] at hd
    cases hd
  have hquote : isQuote c = false := by
    simp [isQuote, hne '"' (by decide), hne '\'' (by decide)]
  have hblank : Text.isBlank c = false := by
    simp [Text.isBlank, hne ' ' (by decide), hne '\t' (by decide), hne '\n' (by decide),
      hne '\x0c' (by decide), hne '\r' (by decide)]
  simp [tagEnd, hne '>' (by decide), hne '=' (by decide), hne '{' (by decide), hquote, hblank]

theorem foldlM_tagEnd_key (afterEquals : Bool) (hne : t ≠ [])
    (h : ∀ c ∈ t, Attribute.isKeyChar c = true) :
    t.foldlM tagEnd (.plain afterEquals) = some (.plain false) := by
  induction t generalizing afterEquals with
  | nil => exact absurd rfl hne
  | cons c t ih =>
    rw [List.foldlM_cons, tagEnd_of_isKeyChar afterEquals (h c List.mem_cons_self)]
    cases t with
    | nil => rfl
    | cons d t =>
      exact ih false (List.cons_ne_nil d t) fun e he => h e (List.mem_cons_of_mem c he)

/-- Inside quotes the search for the end of a tag does as the search for the closing quote. -/
theorem foldlM_tagEnd_quoted {escaped escaped' : Bool}
    (h : t.foldlM (quote q) escaped = some escaped') :
    t.foldlM tagEnd (.quoted q escaped) = some (.quoted q escaped') := by
  induction t generalizing escaped with
  | nil =>
    have heq : escaped = escaped' := by simpa using h
    rw [heq]
    rfl
  | cons c t ih =>
    rw [List.foldlM_cons] at h
    obtain ⟨e, hc, ht⟩ := Option.bind_eq_some_iff.1 h
    have hstep : tagEnd (.quoted q escaped) c = some (.quoted q e) := by rw [tagEnd, hc]
    rw [List.foldlM_cons, hstep]
    exact ih ht

/-- Inside braces it does as the search for the closing brace. -/
theorem foldlM_tagEnd_braced {n n' : Nat} (h : t.foldlM brace n = some n') :
    t.foldlM tagEnd (.braced n) = some (.braced n') := by
  induction t generalizing n with
  | nil =>
    have heq : n = n' := by simpa using h
    rw [heq]
    rfl
  | cons c t ih =>
    rw [List.foldlM_cons] at h
    obtain ⟨m, hc, ht⟩ := Option.bind_eq_some_iff.1 h
    have hstep : tagEnd (.braced n) c = some (.braced m) := by rw [tagEnd, hc]
    rw [List.foldlM_cons, hstep]
    exact ih ht

/-- After an `=`, a value in quotes is passed over as a whole. -/
theorem foldlM_tagEnd_quotedValue (hq : isQuote q = true) (h : closedBy q t = true) :
    (q :: (t ++ [q])).foldlM tagEnd (.plain true) = some (.plain false) := by
  have hopen : tagEnd (.plain true) q = some (.quoted q false) := by
    rcases eq_of_isQuote hq with rfl | rfl <;> decide
  have hclose : tagEnd (.quoted q false) q = some (.plain false) := by rw [tagEnd, quote_self hq]
  rw [List.foldlM_cons, hopen]
  show List.foldlM tagEnd (.quoted q false) (t ++ [q]) = _
  rw [List.foldlM_append, foldlM_tagEnd_quoted (foldlM_quote h)]
  show List.foldlM tagEnd (.quoted q false) [q] = _
  rw [List.foldlM_cons, hclose]
  rfl

/-- After an `=`, an expression in braces is passed over as a whole. -/
theorem foldlM_tagEnd_bracedValue (h : BracesBalance t) :
    ('{' :: (t ++ ['}'])).foldlM tagEnd (.plain true) = some (.plain false) := by
  rw [List.foldlM_cons]
  show List.foldlM tagEnd (.braced 0) (t ++ ['}']) = _
  rw [List.foldlM_append, foldlM_tagEnd_braced (foldlM_brace_zero h)]
  rfl

end Delimiter

end ErbTags
