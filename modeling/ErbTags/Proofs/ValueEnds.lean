import ErbTags.Proofs.TagStarts
import Mathlib.Data.List.Induction

/-!
# Where values end

Two readers decide where a value ends. The search for the end of a tag takes a quote or a brace
right after any `=` for the beginning of a value and passes over all of it. The reader of attributes
takes it for one only if the `=` belongs to a key; it skips characters that begin no key, and drops
a value without quotes or braces up to the next blank.

As long as the search stands between values where the reader begins a piece, the two agree: a value
in quotes or braces ends for both at the same character (`passedAsValue_of_search`). They part only
at a piece without such a value in which the search finds one all the same (`Misleads`). A value
that lacks its closing quote or brace, in a tag whose end was found outside all values, stands
behind such a piece (`exists_misleads_of_fault`).
-/

namespace ErbTags

open Delimiter

/-- The text before the delimiter is what the automaton runs over without stopping. -/
theorem Text.foldlM_of_cut {σ : Type} {next : σ → Char → Option σ} {s : σ} {t before after : Text}
    (h : Text.cut next s t = some (before, after)) :
    ∃ s' c, before.foldlM next s = some s' ∧ next s' c = none ∧ t = before ++ c :: after := by
  induction t generalizing s before with
  | nil => cases h
  | cons d t ih =>
    rw [Text.cut_cons] at h
    cases hd : next s d with
    | none =>
      rw [hd] at h
      obtain ⟨rfl, rfl⟩ := Prod.mk.inj (Option.some.inj h)
      exact ⟨s, d, rfl, hd, rfl⟩
    | some s₁ =>
      simp only [hd, Option.map_eq_some_iff, Prod.mk.injEq, Prod.exists] at h
      obtain ⟨front, _, hcut, rfl, rfl⟩ := h
      obtain ⟨s', c, hfront, hc, rfl⟩ := ih hcut
      refine ⟨s', c, ?_, hc, rfl⟩
      rw [List.foldlM_cons, hd]
      exact hfront

/-- An automaton that gets over a text gets over its front part, and from there over the rest. -/
theorem Text.foldlM_append_eq_some {σ : Type} {next : σ → Char → Option σ} {s s' : σ} {t u : Text}
    (h : (t ++ u).foldlM next s = some s') :
    ∃ s₁, t.foldlM next s = some s₁ ∧ u.foldlM next s₁ = some s' := by
  rw [List.foldlM_append] at h
  exact Option.bind_eq_some_iff.1 h

/-! ## The search inside a value -/

namespace Delimiter

/-- The search stands between values. -/
def Region.IsPlain (r : Region) : Prop := ∃ afterEquals, r = .plain afterEquals

/-- A value in quotes is in one of the two quotes. -/
def Region.IsQuoted : Region → Prop
  | .quoted q _ => isQuote q = true
  | .plain _ | .braced _ => True

variable {r r' : Region} {c : Char} {t : Text}

/-- Inside a value the search runs the automaton of that value, until that one stops. -/
structure RunsInside {σ : Type} (next : σ → Char → Option σ) (inside : σ → Region) : Prop where
  step : ∀ s c, tagEnd (inside s) c = some ((next s c).elim (.plain false) inside)
  not_isPlain : ∀ s, ¬ (inside s).IsPlain

theorem runsInside_quote (q : Char) : RunsInside (quote q) (.quoted q) where
  step escaped c := by
    rw [tagEnd]
    cases quote q escaped c <;> rfl
  not_isPlain escaped h := by
    obtain ⟨afterEquals, h⟩ := h
    cases h

theorem runsInside_brace : RunsInside brace .braced where
  step n c := by
    rw [tagEnd]
    cases brace n c <;> rfl
  not_isPlain n h := by
    obtain ⟨afterEquals, h⟩ := h
    cases h

theorem isQuoted_of_tagEnd (hr : r.IsQuoted) (h : tagEnd r c = some r') : r'.IsQuoted := by
  cases r with
  | plain afterEquals =>
    rw [tagEnd] at h
    split at h
    · cases h
    · split at h
      · obtain rfl := Option.some.inj h
        trivial
      · split at h
        · next hquote =>
          obtain rfl := Option.some.inj h
          exact (Bool.and_eq_true_iff.1 hquote).2
        · split at h <;> (obtain rfl := Option.some.inj h; trivial)
  | quoted q escaped =>
    rw [(runsInside_quote q).step] at h
    obtain rfl := Option.some.inj h
    cases quote q escaped c with
    | none => trivial
    | some escaped' => exact hr
  | braced n =>
    rw [runsInside_brace.step] at h
    obtain rfl := Option.some.inj h
    cases brace n c <;> trivial

theorem isQuoted_of_foldlM (hr : r.IsQuoted) (h : t.foldlM tagEnd r = some r') : r'.IsQuoted := by
  induction t generalizing r with
  | nil =>
    obtain rfl : r = r' := Option.some.inj h
    exact hr
  | cons c t ih =>
    rw [List.foldlM_cons] at h
    obtain ⟨r₁, hc, ht⟩ := Option.bind_eq_some_iff.1 h
    exact ih (isQuoted_of_tagEnd hr hc) ht

/-- Over the text, the search stays inside a value and comes out of it at the last character. -/
structure LeavesAtEnd (r : Region) (t : Text) : Prop where
  inside : ∀ u v, t = u ++ v → v ≠ [] → ∃ r', u.foldlM tagEnd r = some r' ∧ ¬ r'.IsPlain
  out : t.foldlM tagEnd r = some (.plain false)

/-- A search that comes out of a value does so at the delimiter at which the value is cut. -/
theorem RunsInside.exists_cut {σ : Type} {next : σ → Char → Option σ} {inside : σ → Region}
    (hinside : RunsInside next inside) {s : σ} (h : t.foldlM tagEnd (inside s) = some r)
    (hr : r.IsPlain) :
    ∃ body d rest, Text.cut next s t = some (body, rest) ∧ t = body ++ d :: rest ∧
      LeavesAtEnd (inside s) (body ++ [d]) := by
  induction t generalizing s with
  | nil =>
    obtain rfl := Option.some.inj h
    exact absurd hr (hinside.not_isPlain s)
  | cons c t ih =>
    have hstep := hinside.step s c
    rw [List.foldlM_cons] at h
    cases hc : next s c with
    | none =>
      rw [hc] at hstep
      refine ⟨[], c, t, by rw [Text.cut_cons, hc], rfl, ?_, ?_⟩
      · intro u v huv hv
        cases u with
        | nil => exact ⟨inside s, rfl, hinside.not_isPlain s⟩
        | cons d u => exact absurd (List.append_eq_nil_iff.1 (List.cons.inj huv).2.symm).2 hv
      · rw [List.nil_append, List.foldlM_cons, hstep]
        rfl
    | some s' =>
      rw [hc] at hstep
      rw [hstep] at h
      obtain ⟨body, d, rest, hcut, rfl, hbody⟩ := ih h
      refine ⟨c :: body, d, rest, ?_, rfl, ?_, ?_⟩
      · simp only [Text.cut_cons, hc, hcut, Option.map_some]
      · intro u v huv hv
        cases u with
        | nil => exact ⟨inside s, rfl, hinside.not_isPlain s⟩
        | cons e u =>
          obtain ⟨rfl, hrest⟩ := List.cons.inj huv
          rw [List.foldlM_cons, hstep]
          exact hbody.inside u v hrest hv
      · rw [List.cons_append, List.foldlM_cons, hstep]
        exact hbody.out

/-- A slash or white space leads out of no value. -/
theorem isPlain_of_foldlM_tail (hr : r.IsQuoted)
    (ht : ∀ c ∈ t, c = '/' ∨ Text.isWhiteSpace c = true) (h : t.foldlM tagEnd r = some r')
    (hr' : r'.IsPlain) : r.IsPlain := by
  have hne : ∀ c ∈ t, ∀ d, d ≠ '/' → Text.isWhiteSpace d = false → c ≠ d := by
    rintro c hc d hslash hspace rfl
    rcases ht c hc with heq | hwhite
    · exact hslash heq
    · rw [hspace] at hwhite
      cases hwhite
  cases r with
  | plain afterEquals => exact ⟨afterEquals, rfl⟩
  | quoted q escaped =>
    obtain ⟨body, d, rest, hcut, -, -⟩ := (runsInside_quote q).exists_cut h hr'
    obtain ⟨_, c, hc, rfl⟩ := Text.exists_of_cut hcut
    rw [eq_of_quote_eq_none hc] at hne
    rcases eq_of_isQuote hr with rfl | rfl
    · exact absurd rfl (hne '"' (by simp) '"' (by decide) (by decide))
    · exact absurd rfl (hne '\'' (by simp) '\'' (by decide) (by decide))
  | braced n =>
    obtain ⟨body, d, rest, hcut, -, -⟩ := runsInside_brace.exists_cut h hr'
    obtain ⟨_, c, hc, rfl⟩ := Text.exists_of_cut hcut
    rw [eq_of_brace_eq_none hc] at hne
    exact absurd rfl (hne '}' (by simp) '}' (by decide) (by decide))

end Delimiter

/-! ## Pieces -/

namespace Attribute

open Text (isBlank)

/-- What stands before a value: a key, an `=` and blanks around it. -/
structure Assigns (key before after : Text) : Prop where
  key_ne_nil : key ≠ []
  isKeyChar_key : ∀ c ∈ key, isKeyChar c = true
  isBlank_before : ∀ c ∈ before, isBlank c = true
  isBlank_after : ∀ c ∈ after, isBlank c = true

/-- What is left behind the longest part of one class does not go on with that class. -/
theorem head_dropWhile {p : Char → Bool} {t : Text} : ∀ c ∈ (t.dropWhile p).head?, p c = false := by
  intro c hc
  have hnot := List.head?_dropWhile_not p t
  rw [Option.mem_def.1 hc] at hnot
  simpa using hnot

theorem isBlank_of_assignment? {t before rest : Text} (h : assignment? t = some (before, rest)) :
    ∀ c ∈ before, isBlank c = true := by
  unfold assignment? at h
  split at h
  · obtain ⟨rfl, -⟩ := Prod.mk.inj (Option.some.inj h)
    intro c hc
    exact List.mem_takeWhile_imp hc
  · cases h

/-- A piece is a character that begins no key, or a key without an `=`, or a key with one and with
the value that follows. -/
theorem readPiece_cases (c : Char) (t : Text) :
    (isKeyChar c = false ∧ readPiece c t = (.filler c, t)) ∨
      (∃ key rest, c :: t = key ++ rest ∧ key ≠ [] ∧ (∀ d ∈ key, isKeyChar d = true) ∧
        (∀ d ∈ rest.head?, isKeyChar d = false) ∧ assignment? rest = none ∧
        readPiece c t = (.flag key, rest)) ∨
      ∃ key before after rest, c :: t = key ++ (before ++ '=' :: (after ++ rest)) ∧
        Assigns key before after ∧ (∀ d ∈ rest.head?, isBlank d = false) ∧
        readPiece c t = (.assigned key before after (readValue rest).1, (readValue rest).2) := by
  cases hc : isKeyChar c with
  | false => exact Or.inl ⟨rfl, by rw [readPiece, hc]; rfl⟩
  | true =>
    have hsplit := List.takeWhile_append_dropWhile (p := isKeyChar) (l := c :: t)
    have hne : (c :: t).takeWhile isKeyChar ≠ [] := by
      rw [List.takeWhile_cons_of_pos hc]
      exact List.cons_ne_nil _ _
    have hkey : ∀ d ∈ (c :: t).takeWhile isKeyChar, isKeyChar d = true := by
      intro d hd
      exact List.mem_takeWhile_imp hd
    have hread : readPiece c t =
        readKeyed ((c :: t).takeWhile isKeyChar) ((c :: t).dropWhile isKeyChar) := by
      rw [readPiece, if_pos hc]
    refine Or.inr ?_
    cases hassign : assignment? ((c :: t).dropWhile isKeyChar) with
    | none =>
      refine Or.inl ⟨_, _, hsplit.symm, hne, hkey, head_dropWhile, hassign, ?_⟩
      rw [hread, readKeyed, hassign]
    | some found =>
      obtain ⟨before, behind⟩ := found
      have hblanks := List.takeWhile_append_dropWhile (p := isBlank) (l := behind)
      have hafter : ∀ d ∈ behind.takeWhile isBlank, isBlank d = true := by
        intro d hd
        exact List.mem_takeWhile_imp hd
      refine Or.inr ⟨_, before, behind.takeWhile isBlank, behind.dropWhile isBlank, ?_,
        ⟨hne, hkey, isBlank_of_assignment? hassign, hafter⟩, head_dropWhile, ?_⟩
      · rw [hblanks, ← eq_of_assignment? hassign, hsplit]
      · rw [hread, readKeyed, hassign]

/-- Every piece was read where the pieces before it end, and the pieces after it are those of the
text behind it. -/
theorem exists_of_pieces_eq_append {t : Text} {front back : List Piece} {p : Piece}
    (h : pieces t = front ++ p :: back) :
    ∃ c u, t = front.flatMap Piece.text ++ c :: u ∧ p = (readPiece c u).1 ∧
      back = pieces (readPiece c u).2 := by
  induction front generalizing t with
  | nil =>
    cases t with
    | nil =>
      rw [pieces] at h
      cases h
    | cons c u =>
      rw [pieces_cons] at h
      obtain ⟨rfl, rfl⟩ := List.cons.inj h
      exact ⟨c, u, rfl, rfl, rfl⟩
  | cons q front ih =>
    cases t with
    | nil =>
      rw [pieces] at h
      cases h
    | cons d v =>
      rw [pieces_cons] at h
      obtain ⟨rfl, hrest⟩ := List.cons.inj h
      obtain ⟨c, u, hsplit, hp, hback⟩ := ih hrest
      refine ⟨c, u, ?_, hp, hback⟩
      rw [List.flatMap_cons, List.append_assoc, ← hsplit, readPiece_text]

/-! ## Where the search stands at a piece -/

/-- Where the search for the end of a tag stands behind some pieces that follow the name. -/
def search (ps : List Piece) : Option Region := (ps.flatMap Piece.text).foldlM tagEnd (.plain false)

/-- Whether the value is in quotes or braces, with its closing quote or brace. -/
def Written.isDelimited : Written → Bool
  | .quoted _ _ | .braced _ => true
  | .bare _ | .openQuoted _ _ | .openBraced _ => false

/-- Whether the piece has a value in quotes or braces. -/
def Piece.isDelimited : Piece → Bool
  | .filler _ | .flag _ => false
  | .assigned _ _ _ value => value.isDelimited

/-- The search takes something in the piece for a value, although the piece has none in quotes or
braces: it stands between values before the piece, and inside one behind it. -/
structure Misleads (front : List Piece) (p : Piece) : Prop where
  isDelimited_eq : p.isDelimited = false
  before : ∃ r, search front = some r ∧ r.IsPlain
  behind : ∃ r, search (front ++ [p]) = some r ∧ ¬ r.IsPlain

section Search

variable {t u : Text} {r r' : Region} {front back : List Piece} {p : Piece} {value : Written}

/-- From between values, the search gets over a key, an `=` and blanks to where a value begins. -/
theorem Assigns.foldlM_tagEnd {key before after : Text} (h : Assigns key before after)
    (afterEquals : Bool) :
    (key ++ (before ++ '=' :: after)).foldlM tagEnd (.plain afterEquals) = some (.plain true) := by
  rw [List.foldlM_append, foldlM_tagEnd_key afterEquals h.key_ne_nil h.isKeyChar_key]
  show List.foldlM tagEnd (.plain false) (before ++ '=' :: after) = _
  rw [List.foldlM_append, foldlM_tagEnd_blanks false h.isBlank_before]
  show List.foldlM tagEnd (.plain true) after = _
  exact foldlM_tagEnd_blanks true h.isBlank_after

/-- The search begins a value with the first character and comes out of it at the last one. -/
def PassedAsValue (r : Region) (value : Written) : Prop :=
  ∃ c w r', value.text = c :: w ∧ tagEnd r c = some r' ∧ LeavesAtEnd r' w

theorem PassedAsValue.foldlM_tagEnd (h : PassedAsValue r value) :
    value.text.foldlM tagEnd r = some (.plain false) := by
  obtain ⟨c, w, r', htext, hc, hw⟩ := h
  rw [htext, List.foldlM_cons, hc]
  exact hw.out

/-- A value that begins where the search begins one too, and comes out of it, is in quotes or braces
and ends where the search says, or has neither. -/
theorem readValue_of_foldlM (h : t.foldlM tagEnd (.plain true) = some r) (hr : r.IsPlain) :
    ((readValue t).1.isDelimited = true ∧ PassedAsValue (.plain true) (readValue t).1) ∨
      ∃ body, (readValue t).1 = .bare body := by
  cases t with
  | nil => exact Or.inr ⟨[], rfl⟩
  | cons c t =>
    rw [List.foldlM_cons] at h
    by_cases hq : isQuote c = true
    · have hopen : tagEnd (.plain true) c = some (.quoted c false) := by
        rcases eq_of_isQuote hq with rfl | rfl <;> decide
      rw [hopen] at h
      obtain ⟨body, d, rest, hcut, htext, hbody⟩ := (runsInside_quote c).exists_cut h hr
      have hquoted : quoted? c t = some (body, rest) := hcut
      have hread : (readValue (c :: t)).1 = .quoted c body := by
        simp only [readValue, if_pos hq, hquoted]
      have hd : d = c := by
        rw [eq_append_of_quoted? hquoted] at htext
        exact (List.cons.inj (List.append_cancel_left htext)).1.symm
      subst hd
      rw [hread]
      exact Or.inl ⟨rfl, d, body ++ [d], _, rfl, hopen, hbody⟩
    · by_cases hb : c = '{'
      · subst hb
        obtain ⟨body, d, rest, hcut, htext, hbody⟩ := runsInside_brace.exists_cut (s := 0) h hr
        have hbraced : braced? t = some (body, rest) := hcut
        have hread : (readValue ('{' :: t)).1 = .braced body := by
          simp only [readValue, if_neg hq, if_pos, hbraced]
        have hd : d = '}' := by
          rw [eq_append_of_braced? hbraced] at htext
          exact (List.cons.inj (List.append_cancel_left htext)).1.symm
        subst hd
        rw [hread]
        exact Or.inl ⟨rfl, '{', body ++ ['}'], _, rfl, rfl, hbody⟩
      · exact Or.inr ⟨(c :: t).takeWhile (!isBlank ·), by rw [readValue, if_neg hq, if_neg hb]⟩

/-- A piece that begins while the search stands between values has no fault, and a value in quotes
or braces in it is one for the search too. -/
theorem readPiece_of_foldlM {c : Char} (h : (c :: u).foldlM tagEnd r = some r') (hr : r.IsPlain)
    (hr' : r'.IsPlain) :
    (readPiece c u).1.fault? = none ∧
      ∀ key before after value, (readPiece c u).1 = .assigned key before after value →
        value.isDelimited = true →
        ∃ r₁, (key ++ (before ++ '=' :: after)).foldlM tagEnd r = some r₁ ∧
          r₁.IsPlain ∧ PassedAsValue r₁ value := by
  obtain ⟨afterEquals, rfl⟩ := hr
  rcases readPiece_cases c u with ⟨-, hread⟩ | ⟨key, rest, -, -, -, -, -, hread⟩ |
    ⟨key, before, after, rest, hsplit, hassigns, -, hread⟩
  · rw [hread]
    refine ⟨rfl, ?_⟩
    intro key before after value heq
    cases heq
  · rw [hread]
    refine ⟨rfl, ?_⟩
    intro key before after value heq
    cases heq
  · have hlead := hassigns.foldlM_tagEnd afterEquals
    have hfront : c :: u = (key ++ (before ++ '=' :: after)) ++ rest := by
      rw [hsplit]
      simp
    rw [hfront, List.foldlM_append, hlead] at h
    rw [hread]
    rcases readValue_of_foldlM h hr' with ⟨hdelimited, hpassed⟩ | ⟨body, hbare⟩
    · constructor
      · generalize (readValue rest).1 = value at hdelimited
        cases value with
        | quoted => rfl
        | braced => rfl
        | bare | openQuoted | openBraced => cases hdelimited
      · intro key' before' after' value heq _
        obtain ⟨rfl, rfl, rfl, rfl⟩ := Piece.assigned.inj heq
        exact ⟨.plain true, hlead, ⟨true, rfl⟩, hpassed⟩
    · rw [hbare]
      refine ⟨rfl, ?_⟩
      intro key' before' after' value heq hdelimited
      obtain ⟨-, -, -, rfl⟩ := Piece.assigned.inj heq
      cases hdelimited

/-- The search gets to every piece of a text that it gets over. -/
theorem exists_search (h : t.foldlM tagEnd (.plain false) = some r)
    (hp : pieces t = front ++ p :: back) :
    ∃ r₁ c u, search front = some r₁ ∧ (c :: u).foldlM tagEnd r₁ = some r ∧
      p = (readPiece c u).1 ∧ back = pieces (readPiece c u).2 := by
  obtain ⟨c, u, rfl, hpiece, hback⟩ := exists_of_pieces_eq_append hp
  obtain ⟨r₁, hfront, hrest⟩ := Text.foldlM_append_eq_some h
  exact ⟨r₁, c, u, hfront, hrest, hpiece, hback⟩

theorem search_concat (hfront : search front = some r) :
    search (front ++ [p]) = p.text.foldlM tagEnd r := by
  have hfold : (front.flatMap Piece.text).foldlM tagEnd (.plain false) = some r := hfront
  rw [search, List.flatMap_append, List.foldlM_append, hfold, List.flatMap_singleton]
  rfl

/-- A value in quotes or braces that begins while the search stands between values ends for the
search at the same character as for the reader. -/
theorem passedAsValue_of_search {key before after : Text}
    (h : t.foldlM tagEnd (.plain false) = some r) (hr : r.IsPlain)
    (hp : pieces t = front ++ .assigned key before after value :: back)
    (hvalue : value.isDelimited = true) (hfront : search front = some r') (hr' : r'.IsPlain) :
    ∃ r₁, (key ++ (before ++ '=' :: after)).foldlM tagEnd r' = some r₁ ∧ r₁.IsPlain ∧
      PassedAsValue r₁ value := by
  obtain ⟨r₁, c, u, hsearch, hrest, hpiece, -⟩ := exists_search h hp
  obtain rfl := Option.some.inj (hfront.symm.trans hsearch)
  exact (readPiece_of_foldlM hrest hr' hr).2 key before after value hpiece.symm hvalue

/-- A search that stands inside a value where a piece begins was misled by an earlier piece. -/
theorem exists_misleads (h : t.foldlM tagEnd (.plain false) = some r) (hr : r.IsPlain)
    (hp : pieces t = front ++ back) (hfront : search front = some r') (hr' : ¬ r'.IsPlain) :
    ∃ earlier q later, front = earlier ++ q :: later ∧ Misleads earlier q := by
  induction front using List.reverseRecOn generalizing back r' with
  | nil =>
    obtain rfl := Option.some.inj hfront
    exact absurd ⟨false, rfl⟩ hr'
  | append_singleton front q ih =>
    rw [List.append_assoc] at hp
    obtain ⟨r₁, c, u, hsearch, -, -, -⟩ := exists_search h hp
    by_cases hr₁ : r₁.IsPlain
    · refine ⟨front, q, [], rfl, ?_, ⟨r₁, hsearch, hr₁⟩, ⟨r', hfront, hr'⟩⟩
      cases q with
      | filler => rfl
      | flag => rfl
      | assigned key before after value =>
        -- The search would come out of a value in quotes or braces at the end of the piece.
        rw [← Bool.not_eq_true]
        intro hvalue
        obtain ⟨r₂, hlead, -, hpassed⟩ := passedAsValue_of_search h hr hp hvalue hsearch hr₁
        have hbehind : search (front ++ [.assigned key before after value]) =
            some (.plain false) := by
          have htext : Piece.text (.assigned key before after value) =
              (key ++ (before ++ '=' :: after)) ++ value.text := by
            simp [Piece.text]
          rw [search_concat hsearch, htext, List.foldlM_append, hlead]
          exact hpassed.foldlM_tagEnd
        obtain rfl := Option.some.inj (hfront.symm.trans hbehind)
        exact hr' ⟨false, rfl⟩
    · obtain ⟨earlier, q', later, rfl, hmisleads⟩ := ih hp hsearch hr₁
      exact ⟨earlier, q', later ++ [q], by simp, hmisleads⟩

/-- A value that lacks its closing quote or brace takes all of the text. -/
theorem readValue_rest (h : (readValue t).1.isDelimited = false)
    (hbare : ∀ body, (readValue t).1 ≠ .bare body) : (readValue t).2 = [] := by
  unfold readValue at h hbare ⊢
  split
  · rfl
  · next c t =>
    split
    · next hq =>
      simp only [if_pos hq] at h
      cases hquoted : quoted? c t with
      | none => rfl
      | some found =>
        rw [hquoted] at h
        cases h
    · next hq =>
      split
      · next hb =>
        simp only [if_neg hq, if_pos hb] at h
        cases hbraced : braced? t with
        | none => rfl
        | some found =>
          rw [hbraced] at h
          cases h
      · next hb =>
        simp only [if_neg hq, if_neg hb] at hbare
        exact absurd rfl (hbare _)

/-- A piece with a fault is the last one. -/
theorem pieces_behind_fault {c : Char} {fault : AttributeFault}
    (h : (readPiece c u).1.fault? = some fault) : pieces (readPiece c u).2 = [] := by
  have hnil : pieces [] = [] := by rw [pieces]
  rcases readPiece_cases c u with ⟨-, hread⟩ | ⟨key, rest, -, -, -, -, -, hread⟩ |
    ⟨key, before, after, rest, -, -, -, hread⟩
  · rw [hread] at h
    cases h
  · rw [hread] at h
    cases h
  · rw [hread] at h ⊢
    have hrest : (readValue rest).2 = [] := by
      refine readValue_rest ?_ ?_
      · cases hvalue : (readValue rest).1 with
        | quoted | braced =>
          rw [hvalue] at h
          cases h
        | bare | openQuoted | openBraced => rfl
      · intro body hvalue
        rw [hvalue] at h
        cases h
    rw [hrest, hnil]

/-- In a text that the search gets over to a place between values, a fault belongs to the last
piece, and an earlier piece misled the search. -/
theorem exists_misleads_of_fault {fault : AttributeFault}
    (h : t.foldlM tagEnd (.plain false) = some r) (hr : r.IsPlain)
    (hfault : fault ∈ (Attributes.read t).faults) :
    ∃ earlier q later p, pieces t = earlier ++ q :: (later ++ [p]) ∧ p.fault? = some fault ∧
      Misleads earlier q := by
  obtain ⟨p, hmem, hp⟩ := List.mem_filterMap.1 hfault
  obtain ⟨front, back, hpieces⟩ := List.append_of_mem hmem
  obtain ⟨r₁, c, u, hsearch, hrest, rfl, rfl⟩ := exists_search h hpieces
  have hr₁ : ¬ r₁.IsPlain := by
    intro hr₁
    rw [(readPiece_of_foldlM hrest hr₁ hr).1] at hp
    cases hp
  obtain ⟨earlier, q, later, rfl, hmisleads⟩ := exists_misleads h hr hpieces hsearch hr₁
  rw [pieces_behind_fault hp] at hpieces
  exact ⟨earlier, q, later, _, by rw [hpieces]; simp, hp, hmisleads⟩

end Search

end Attribute

/-! ## Tags that end outside all values -/

section Tags

variable {exhausted : Bool} {start : Nat} {t rest : Text} {tag : Tag}

/-- What is between the attributes and the `>` of a tag that is no closing tag. -/
theorem Tag.tail_ofInner (start : Nat) (name inner : Text) :
    ∀ c ∈ (Tag.ofInner start name inner).tail, c = '/' ∨ Text.isWhiteSpace c = true := by
  intro c hc
  rw [Tag.ofInner] at hc
  split at hc
  · rcases List.mem_cons.1 hc with rfl | hc
    · exact Or.inl rfl
    · exact Or.inr (List.mem_takeWhile_imp (List.mem_reverse.1 hc))
  · cases hc

/-- If the search is not exhausted behind a tag, it found the end of the tag outside all values. -/
theorem foldlM_tagEnd_inner_of_innerText? {inner : Text}
    (h : Tag.innerText? exhausted t = some (inner, rest, false)) :
    ∃ r, inner.foldlM tagEnd (.plain false) = some r ∧ r.IsPlain := by
  unfold Tag.innerText? at h
  split at h
  · next heq =>
    obtain ⟨rfl, rfl, rfl⟩ : _ = inner ∧ _ = rest ∧ exhausted = false := by
      simpa using h
    have hcut : Text.cut tagEnd (.plain false) t = some (_, _) := heq
    obtain ⟨r, c, hinner, hc, -⟩ := Text.foldlM_of_cut hcut
    refine ⟨r, hinner, ?_⟩
    cases r with
    | plain afterEquals => exact ⟨afterEquals, rfl⟩
    | quoted q escaped =>
      rw [(runsInside_quote q).step] at hc
      cases hc
    | braced n =>
      rw [runsInside_brace.step] at hc
      cases hc
  · simp at h

theorem Tag.attributes_of_readClosing? (h : Tag.readClosing? start t = some (tag, rest)) :
    tag.attributes = [] := by
  unfold Tag.readClosing? at h
  split at h
  · simp only [Option.bind_eq_bind, Option.bind_eq_some_iff, Prod.exists] at h
    obtain ⟨name, afterName, -, h⟩ := h
    split at h
    · obtain ⟨rfl, -⟩ := Prod.mk.inj (Option.some.inj h)
      rfl
    · cases h
  · cases h

/-- If the search is not exhausted behind a tag, it stands between values behind its attributes. -/
theorem foldlM_tagEnd_attributes (h : Tag.read? exhausted start t = some (tag, rest, false)) :
    ∃ r, tag.attributes.foldlM tagEnd (.plain false) = some r ∧ r.IsPlain := by
  have hnone : ∃ r, ([] : Text).foldlM tagEnd (.plain false) = some r ∧ r.IsPlain :=
    ⟨.plain false, rfl, false, rfl⟩
  unfold Tag.read? at h
  split at h
  · next hclosing =>
    obtain ⟨rfl, -, -⟩ : _ = tag ∧ _ = rest ∧ exhausted = false := by simpa using h
    rw [Tag.attributes_of_readClosing? hclosing]
    exact hnone
  · simp only [Tag.readOpening?, Option.bind_eq_bind, Option.bind_eq_some_iff, Prod.exists] at h
    obtain ⟨name, afterName, -, h⟩ := h
    split at h
    · simp only [Option.some.injEq, Prod.mk.injEq] at h
      obtain ⟨rfl, -, -⟩ := h
      exact hnone
    · simp only [Option.some.injEq, Prod.mk.injEq] at h
      obtain ⟨rfl, -, -⟩ := h
      exact hnone
    · split at h
      · simp only [Option.map_eq_some_iff, Prod.mk.injEq, Prod.exists] at h
        obtain ⟨inner, _, _, hinner, rfl, -, rfl⟩ := h
        obtain ⟨r, hfold, hr⟩ := foldlM_tagEnd_inner_of_innerText? hinner
        rw [← Tag.inner_ofInner start name inner, Tag.inner] at hfold
        obtain ⟨r₁, hattributes, htail⟩ := Text.foldlM_append_eq_some hfold
        have hplain : Region.IsQuoted (.plain false) := trivial
        have hquoted : r₁.IsQuoted := isQuoted_of_foldlM hplain hattributes
        exact ⟨r₁, hattributes,
          isPlain_of_foldlM_tail hquoted (Tag.tail_ofInner start name inner) htail hr⟩
      · cases h
    · cases h

/-- A tag that a scanner finds was read with what the scanner knew, and leaves what it knows then.
-/
theorem read?_of_next {s s' : Scanner} {offset : Nat} (h : s.next offset = (some tag, s')) :
    ∃ start t rest, Tag.read? s.exhausted start t = some (tag, rest, s'.exhausted) := by
  rw [Scanner.next] at h
  cases hfind : findTag? s.exhausted (Text.seek offset 0 s.text).1
      (Text.seek offset 0 s.text).2 with
  | none => simp [hfind] at h
  | some f =>
    obtain ⟨rfl, rfl⟩ : f.tag = tag ∧ { s with exhausted := f.exhausted } = s' := by
      simpa [hfind] using h
    obtain ⟨gap, after, -, -, hread, -⟩ := read?_of_findTagAfter hfind
    exact ⟨_, after, f.rest, hread⟩

open Attribute in
/-- Let the end of a tag be found outside all values. A value in quotes or braces that begins while
the search for that end stands between values is passed over as one value: the search comes out of
it at the character where the reader ends it. And a value that lacks its closing quote or brace is
the last piece, with a piece before it that has no value in quotes or braces and in which the search
found one. -/
theorem value_ends_agree {offset : Nat} {s : Scanner}
    (h : (⟨(Scanner.searchable t).1, exhausted⟩ : Scanner).next offset = (some tag, s))
    (hs : s.exhausted = false) :
    (∀ front key before after value back r,
      pieces tag.attributes = front ++ .assigned key before after value :: back →
      value.isDelimited = true → search front = some r → r.IsPlain →
      ∃ r₁, (key ++ (before ++ '=' :: after)).foldlM tagEnd r = some r₁ ∧ r₁.IsPlain ∧
        PassedAsValue r₁ value) ∧
    ∀ fault ∈ (Attributes.read tag.attributes).faults, ∃ earlier q later p,
      pieces tag.attributes = earlier ++ q :: (later ++ [p]) ∧ p.fault? = some fault ∧
      Misleads earlier q := by
  obtain ⟨_, _, _, hread⟩ := read?_of_next h
  rw [hs] at hread
  obtain ⟨r, hattributes, hr⟩ := foldlM_tagEnd_attributes hread
  constructor
  · intro front key before after value back r₁ hpieces hvalue hfront hr₁
    exact passedAsValue_of_search hattributes hr hpieces hvalue hfront hr₁
  · intro fault hfault
    exact exists_misleads_of_fault hattributes hr hfault

/-- The search takes the quotes behind an `=` without a key for a value. The reader skips them, and
finds a key with an open brace between them. -/
theorem fault_in_skipped_quotes :
    let source := "<A =\"x y=\x7b\" />".toList
    let tag : Tag := ⟨.selfClosing, ['A'], " =\"x y=\x7b\" ".toList, ['/'], 0⟩
    (Scanner.ofText source).next 0 = (some tag, ⟨source, false⟩) ∧
      (Attributes.read tag.attributes).faults = [.unbalanced ['y']] := by
  decide +kernel

open Attribute in
/-- The quote that is skipped is the piece that misleads the search. -/
theorem value_ends_agree_skipped :
    let source := "<A b='<' =\"x y=\x7b\" />".toList
    let tag : Tag := ⟨.selfClosing, ['A'], " b='<' =\"x y=\x7b\" ".toList, ['/'], 0⟩
    (Scanner.ofText source).next 0 = (some tag, ⟨source, false⟩) ∧
      ∃ earlier q later p, pieces tag.attributes = earlier ++ q :: (later ++ [p]) ∧
        p.fault? = some (.unbalanced ['y']) ∧ Misleads earlier q := by
  intro source tag
  have hnext : (⟨(Scanner.searchable source).1, false⟩ : Scanner).next 0 =
      (some tag, ⟨source, false⟩) := by decide +kernel
  have hfault : .unbalanced ['y'] ∈ (Attributes.read tag.attributes).faults := by decide +kernel
  exact ⟨hnext, (value_ends_agree hnext rfl).2 _ hfault⟩

end Tags

end ErbTags
