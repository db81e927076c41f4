import ErbTags.Proofs.Occurrences

/-!
# Strings as literals

A string is read between either of the two quotes and written between double quotes. A text that was
read is made of escape pairs, each a backslash with the character behind it, and of other characters
(`Paired`); no backslash is left over. Writing it puts a backslash before the double quotes that are
in no pair, and changes nothing else. So the literal ends at its last character and nowhere before,
and it says what the text says (`rendered_string_is_closed`).
-/

namespace ErbTags

open Attribute Delimiter

/-- The text without the backslash of every escape pair. -/
def unescape : Text → Text
  | '\\' :: c :: t => c :: unescape t
  | c :: t => c :: unescape t
  | [] => []

theorem unescape_cons {c : Char} (hc : c ≠ '\\') (t : Text) :
    unescape (c :: t) = c :: unescape t := by
  rw [unescape]
  intro d u hpair
  exact absurd hpair hc

/-! ## Escape pairs and other characters -/

/-- The text is made of escape pairs and of other characters, none of these the quote `q`. -/
inductive Paired (q : Char) : Text → Prop
  | nil : Paired q []
  | pair (c : Char) {t : Text} (ht : Paired q t) : Paired q ('\\' :: c :: t)
  | other {c : Char} {t : Text} (hc : c ≠ '\\') (hq : c ≠ q) (ht : Paired q t) : Paired q (c :: t)

theorem closedBy_iff_paired {q : Char} {t : Text} : closedBy q t = true ↔ Paired q t := by
  constructor
  · intro h
    fun_induction closedBy q t with
    | case1 => exact .nil
    | case2 => cases h
    | case3 c t ih => exact .pair c (ih h)
    | case4 c t hlast hpair ih =>
      have hc := ne_backslash_of_unpaired hlast hpair
      obtain ⟨hq, ht⟩ := Bool.and_eq_true_iff.1 h
      exact .other hc (of_decide_eq_true hq) (ih ht)
  · intro h
    induction h with
    | nil => rfl
    | pair c _ ih => exact ih
    | other hc hq _ ih =>
      rw [closedBy, ih, decide_eq_true hq]
      · rfl
      · intro hlast _
        exact hc hlast
      · intro d u hpair _
        exact hc hpair

section Escaped

variable {q c : Char} {t : Text}

theorem escapeQuotes_pair (c : Char) (t : Text) :
    escapeQuotes false ('\\' :: c :: t) = '\\' :: c :: escapeQuotes false t := rfl

theorem escapeQuotes_quote (t : Text) :
    escapeQuotes false ('"' :: t) = '\\' :: '"' :: escapeQuotes false t := rfl

theorem escapeQuotes_other (hc : c ≠ '\\') (hq : c ≠ '"') (t : Text) :
    escapeQuotes false (c :: t) = c :: escapeQuotes false t := by
  rw [escapeQuotes, if_neg hc, if_neg hq]

/-- Whatever the quotes were, an escaped text can be put between double quotes. -/
theorem Paired.escaped (h : Paired q t) : Paired '"' (escapeQuotes false t) := by
  induction h with
  | nil => exact .nil
  | pair c _ ih =>
    rw [escapeQuotes_pair]
    exact .pair c ih
  | @other c t hc _ _ ih =>
    by_cases hq : c = '"'
    · rw [hq, escapeQuotes_quote]
      exact .pair '"' ih
    · rw [escapeQuotes_other hc hq]
      exact .other hc hq ih

/-- Escaping a text does not change what it says. -/
theorem Paired.unescape_escapeQuotes (h : Paired q t) :
    unescape (escapeQuotes false t) = unescape t := by
  induction h with
  | nil => rfl
  | pair c _ ih =>
    rw [escapeQuotes_pair]
    exact congrArg (c :: ·) ih
  | @other c t hc _ _ ih =>
    rw [unescape_cons hc, ← ih]
    by_cases hq : c = '"'
    · rw [hq, escapeQuotes_quote]
      rfl
    · rw [escapeQuotes_other hc hq, unescape_cons hc]

/-- A text that can be put between double quotes needs no escaping. -/
theorem Paired.escapeQuotes_eq_self (h : Paired '"' t) : escapeQuotes false t = t := by
  induction h with
  | nil => rfl
  | pair c _ ih => rw [escapeQuotes_pair, ih]
  | other hc hq _ ih => rw [escapeQuotes_other hc hq, ih]

end Escaped

/-! ## Literals -/

/-- A key with a value is read as such, without blanks around the `=`. -/
theorem Attribute.pieces_assigned {key : Text} (hne : key ≠ [])
    (hkey : ∀ c ∈ key, isKeyChar c = true) (v : PrintedValue) :
    pieces (key ++ '=' :: v.text) = [.assigned key [] [] v.written] := by
  have hhead : ∀ c ∈ ('=' :: v.text).head?, isKeyChar c = false := by
    intro c hc
    rw [← Option.some.inj hc]
    decide
  have hread : readKeyed key ('=' :: v.text) = (.assigned key [] [] v.written, []) := by
    have hkeyed := PrintedAssignment.readKeyed_text ⟨⟨[], rfl⟩, ⟨[], rfl⟩, v⟩ key []
    rw [List.append_nil] at hkeyed
    exact hkeyed
  rw [pieces_key hne hkey hhead, hread, pieces]

theorem Attributes.read_quoted {key body : Text} {q : Char} (hne : key ≠ [])
    (hkey : ∀ c ∈ key, isKeyChar c = true) (halias : normalizeKey key ≠ aliasKey)
    (hq : isQuote q = true) (hbody : closedBy q body = true) :
    Attributes.read (key ++ '=' :: q :: (body ++ [q])) =
      ⟨[⟨normalizeKey key, .string body⟩], none, []⟩ := by
  have hpieces : pieces (key ++ '=' :: q :: (body ++ [q])) =
      [.assigned key [] [] (.quoted q body)] := pieces_assigned hne hkey (.quoted q body hq hbody)
  have hentry : Piece.entry? (.assigned key [] [] (.quoted q body)) =
      some ⟨normalizeKey key, .string body⟩ := if_neg halias
  have hvariable : Piece.blockVariable? (.assigned key [] [] (.quoted q body)) = none :=
    if_neg fun h => halias h.1
  rw [Attributes.read, hpieces, List.filterMap_cons_some hentry, List.filterMap_cons_none hvariable]
  rfl

/-- A string that is read from any text is written as one complete literal in double quotes: reading
it, by characters or by bytes, takes all of it and gives a body that says what the string says. The
body is written as the same literal, and the literal behind a key and an `=` is read as the body. -/
theorem rendered_string_is_closed {raw text : Text} {e : AttributeEntry}
    (he : e ∈ (Attributes.read raw).entries) (htext : e.value = .string text) :
    ∃ body, e.value.render = '"' :: (body ++ ['"']) ∧
      quoted? '"' (body ++ ['"']) = some (body, []) ∧
      quotedValue? e.value.render '"' 0 = some (some (body, Text.byteSize e.value.render)) ∧
      unescape body = unescape text ∧ AttributeValue.render (.string body) = e.value.render ∧
      ∀ key, key ≠ [] → (∀ c ∈ key, isKeyChar c = true) → key ≠ "as".toList →
        Attributes.read (key ++ '=' :: e.value.render) =
          ⟨[⟨normalizeKey key, .string body⟩], none, []⟩ := by
  obtain ⟨q, -, hclosed, -⟩ := (readFrom_of_mem_entries he).string text htext
  have hpaired := closedBy_iff_paired.1 hclosed
  have hbody := closedBy_iff_paired.2 hpaired.escaped
  have hquote : isQuote '"' = true := by decide
  have hrender : e.value.render = '"' :: (escapeQuotes false text ++ ['"']) := by
    rw [htext]
    rfl
  have hquoted := quoted?_append hquote hbody []
  refine ⟨escapeQuotes false text, hrender, hquoted, ?_, hpaired.unescape_escapeQuotes, ?_, ?_⟩
  · have hone : '"'.utf8Size = 1 := by decide
    have hsize : Text.byteSize e.value.render =
        0 + 1 + Text.byteSize (escapeQuotes false text) + 1 := by
      rw [hrender, Text.byteSize_cons, Text.byteSize_append, Text.byteSize_cons, Text.byteSize_nil,
        hone]
      omega
    rw [hsize, hrender, quotedValue?_eq (Text.RestAt.zero _) hquote, hquoted]
    rfl
  · rw [hrender, AttributeValue.render, doubleQuoted, hpaired.escaped.escapeQuotes_eq_self]
  · intro key hne hkey halias
    have hnormal : normalizeKey key ≠ aliasKey :=
      mt PrintedAttribute.normalizeKey_eq_aliasKey_iff.1 halias
    rw [hrender]
    exact Attributes.read_quoted hne hkey hnormal hquote hbody

/-- Double quotes between single quotes, with a backslash before them, without one, and with two. -/
theorem rendered_string_is_closed_mixed :
    let raw := "k='a\"b\\\"c\\\\\"d\\''".toList
    let text := "a\"b\\\"c\\\\\"d\\'".toList
    let body := "a\\\"b\\\"c\\\\\\\"d\\'".toList
    (Attributes.read raw).entries = [⟨['k'], .string text⟩] ∧
      AttributeValue.render (.string text) = '"' :: (body ++ ['"']) ∧
      quoted? '"' (body ++ ['"']) = some (body, []) ∧ unescape body = "a\"b\"c\\\"d'".toList ∧
      Attributes.read ("k=".toList ++ '"' :: (body ++ ['"'])) =
        ⟨[⟨['k'], .string body⟩], none, []⟩ := by
  intro raw text body
  have hentries : (Attributes.read raw).entries = [⟨['k'], .string text⟩] := by decide +kernel
  have hrender : AttributeValue.render (.string text) = '"' :: (body ++ ['"']) := by decide
  have hmem : ⟨['k'], .string text⟩ ∈ (Attributes.read raw).entries := by
    rw [hentries]
    exact List.mem_singleton_self _
  obtain ⟨body', hbody', hquoted, -, hsays, -, hread⟩ := rendered_string_is_closed hmem rfl
  obtain rfl : body = body' := by
    have hsame := (List.cons.inj (hrender.symm.trans hbody')).2
    exact List.append_cancel_right hsame
  refine ⟨hentries, hrender, hquoted, hsays.trans (by decide), ?_⟩
  have hkey : ∀ c ∈ ['k'], isKeyChar c = true := List.all_eq_true.1 rfl
  have hback := hread ['k'] (List.cons_ne_nil 'k' []) hkey (by decide)
  rw [hbody'] at hback
  exact hback

end ErbTags
