import ErbTags.Proofs.ByteAttributes
import ErbTags.Proofs.Diagnostics

/-!
# Attributes where they stand

The reader of attributes takes any text, and skips or drops what it can make nothing of. Whatever
the text is, all that it records stands in the text (`Attributes.read_stands_in`). There is a list
of occurrences, each of them a key with the value in quotes or braces that belongs to it, if any.
They stand one behind the other, so that no key lies inside a value. The keyword arguments and the
block variable are those of the occurrences.

The reader goes over the text piece by piece. A piece gives one occurrence or none, which lies
inside the piece (`exists_occurrence`); the rest follows along the pieces (`exists_occurrences`).
-/

namespace ErbTags

open Delimiter
open Text (RestAt)

/-! ## Values that are read -/

namespace Delimiter

variable {q : Char} {t body rest : Text}

theorem closedBy_of_foldlM (h : t.foldlM (quote q) false = some false) : closedBy q t = true := by
  fun_induction closedBy q t with
  | case1 => rfl
  | case2 => cases h
  | case3 c t ih => exact ih h
  | case4 c t hlast hpair ih =>
    have hc := ne_backslash_of_unpaired hlast hpair
    have hq : c ≠ q := by
      rintro rfl
      simp [List.foldlM_cons, quote, hc] at h
    have hstep : quote q false c = some false := by simp [quote, hc, hq]
    rw [List.foldlM_cons, hstep] at h
    rw [ih h, Bool.and_true, decide_eq_true_eq]
    exact hq

/-- A string that is read holds its quote only behind a backslash. -/
theorem closedBy_of_quoted? (h : quoted? q t = some (body, rest)) : closedBy q body = true := by
  obtain ⟨escaped, c, hbody, hc, -⟩ := Text.foldlM_of_cut h
  cases escaped with
  | true => cases hc
  | false => exact closedBy_of_foldlM hbody

/-- While no brace ends the expression, the inner braces still open are those that are opened less
those that are closed. -/
theorem count_of_foldlM_brace {n m : Nat} (h : t.foldlM brace n = some m) :
    (∀ before, before <+: t → before.count '}' ≤ n + before.count '{') ∧
      m + t.count '}' = n + t.count '{' := by
  induction t generalizing n with
  | nil =>
    obtain rfl : n = m := Option.some.inj h
    refine ⟨?_, rfl⟩
    intro before hbefore
    rw [List.prefix_nil.1 hbefore]
    exact Nat.zero_le _
  | cons c t ih =>
    rw [List.foldlM_cons] at h
    obtain ⟨n', hc, ht⟩ := Option.bind_eq_some_iff.1 h
    obtain ⟨hfront, hcount⟩ := ih ht
    have hstep : n' + [c].count '}' = n + [c].count '{' := by
      unfold brace at hc
      split at hc
      · next hopen =>
        obtain rfl := Option.some.inj hc
        rw [hopen]
        rfl
      · next hopen =>
        split at hc
        · next hclose =>
          subst hclose
          cases n with
          | zero => cases hc
          | succ k =>
            obtain rfl : k = n' := Option.some.inj hc
            rfl
        · next hclose =>
          obtain rfl := Option.some.inj hc
          rw [List.count_singleton, List.count_singleton]
          simp [hopen, hclose]
    constructor
    · intro before hbefore
      cases before with
      | nil => exact Nat.zero_le _
      | cons d before =>
        obtain ⟨rfl, htail⟩ := List.cons_prefix_cons.1 hbefore
        have hle := hfront before htail
        rw [← List.singleton_append, List.count_append, List.count_append]
        omega
    · rw [← List.singleton_append, List.count_append, List.count_append]
      omega

/-- The braces of an expression that is read balance. -/
theorem bracesBalance_of_braced? (h : braced? t = some (body, rest)) : BracesBalance body := by
  obtain ⟨n, c, hbody, hc, -⟩ := Text.foldlM_of_cut h
  obtain rfl : n = 0 := by
    cases n with
    | zero => rfl
    | succ n =>
      unfold brace at hc
      split at hc
      · cases hc
      · split at hc <;> cases hc
  obtain ⟨hfront, hcount⟩ := count_of_foldlM_brace hbody
  refine ⟨?_, by omega⟩
  intro before hbefore
  have hle := hfront before hbefore
  omega

end Delimiter

theorem PrintedValue.text_written (v : PrintedValue) : v.written.text = v.text := by
  cases v <;> rfl

namespace Attribute

/-- A value that is read ends where it should, or is not recorded. -/
theorem readValue_cases (t : Text) :
    (∃ v : PrintedValue, (readValue t).1 = v.written) ∨ (readValue t).1.isDelimited = false := by
  unfold readValue
  split
  · exact Or.inr rfl
  · split
    · next hq =>
      split
      · next h => exact Or.inl ⟨.quoted _ _ hq (closedBy_of_quoted? h), rfl⟩
      · exact Or.inr rfl
    · split
      · split
        · next h => exact Or.inl ⟨.braced _ (bracesBalance_of_braced? h), rfl⟩
        · exact Or.inr rfl
      · exact Or.inr rfl

/-! ## Occurrences -/

/-- A key as it stands in a text, with the value in quotes or braces that is recorded for it. -/
structure Occurrence where
  /-- The byte offset of the key. -/
  start : Nat
  /-- The key as it is written. -/
  key : Text
  /-- The value with its delimiters, and the byte offset of the first of them. -/
  value : Option (Nat × PrintedValue)
  key_ne_nil : key ≠ []
  isKeyChar_key : ∀ c ∈ key, isKeyChar c = true

namespace Occurrence

/-- The byte offset just past the key. -/
def keyStop (o : Occurrence) : Nat := o.start + Text.byteSize o.key

/-- The byte offset just past the value, or past the key if no value is recorded. -/
def stop (o : Occurrence) : Nat :=
  match o.value with
  | none => o.keyStop
  | some (place, v) => place + Text.byteSize v.text

/-- One occurrence ends, value and all, before the other one begins. -/
def Before (o o' : Occurrence) : Prop := o.stop ≤ o'.start

/-- The key and the value stand in the text, each at its place. -/
structure StandsIn (o : Occurrence) (raw : Text) : Prop where
  key : ∃ rest, RestAt raw o.start (o.key ++ rest)
  value : ∀ place v, o.value = some (place, v) →
    o.keyStop < place ∧ ∃ rest, RestAt raw place (v.text ++ rest)

/-- The keyword argument that is recorded. A string under the alias key is none. -/
def entry? (o : Occurrence) : Option AttributeEntry :=
  match o.value with
  | none => some ⟨normalizeKey o.key, .yes⟩
  | some (_, .braced body _) => some ⟨normalizeKey o.key, .expression body⟩
  | some (_, .quoted _ body _ _) =>
    if normalizeKey o.key = aliasKey then none else some ⟨normalizeKey o.key, .string body⟩

/-- The block variable that is recorded: the trimmed string under the alias key, unless it is
blank. -/
def blockVariable? (o : Occurrence) : Option Text :=
  match o.value with
  | some (_, .quoted _ body _ _) =>
    if normalizeKey o.key = aliasKey ∧ Text.trim body ≠ [] then some (Text.trim body) else none
  | _ => none

/-- The occurrence is what the piece records, if the piece stands behind the text `before`. -/
structure IsOf (o : Occurrence) (before : Text) (p : Piece) : Prop where
  start : o.start = Text.byteSize before
  stop : o.stop ≤ Text.byteSize (before ++ p.text)
  entry? : o.entry? = p.entry?
  blockVariable? : o.blockVariable? = p.blockVariable?

section IsOf

variable (before : Text) {key : Text} (hne : key ≠ []) (hkey : ∀ c ∈ key, isKeyChar c = true)

theorem isOf_flag : IsOf ⟨Text.byteSize before, key, none, hne, hkey⟩ before (.flag key) where
  start := rfl
  stop := by
    rw [Text.byteSize_append]
    exact Nat.le_refl _
  entry? := rfl
  blockVariable? := rfl

theorem isOf_undelimited (bef aft : Text) {value : Written} (h : value.isDelimited = false) :
    IsOf ⟨Text.byteSize before, key, none, hne, hkey⟩ before (.assigned key bef aft value) where
  start := rfl
  stop := by
    unfold stop keyStop
    simp only [Piece.text, Text.byteSize_append]
    omega
  entry? := by
    cases value with
    | quoted | braced => cases h
    | bare | openQuoted | openBraced => rfl
  blockVariable? := by
    cases value with
    | quoted | braced => cases h
    | bare | openQuoted | openBraced => rfl

theorem isOf_delimited (bef aft : Text) (v : PrintedValue) :
    IsOf ⟨Text.byteSize before, key,
      some (Text.byteSize (before ++ (key ++ (bef ++ '=' :: aft))), v), hne, hkey⟩ before
      (.assigned key bef aft v.written) where
  start := rfl
  stop := by
    unfold stop
    simp only [Piece.text, PrintedValue.text_written, Text.byteSize_append, Text.byteSize_cons]
    omega
  entry? := by cases v <;> rfl
  blockVariable? := by cases v <;> rfl

end IsOf

end Occurrence

/-- A piece records nothing, or it is one occurrence. -/
theorem exists_occurrence (before : Text) (c : Char) (u : Text) :
    ((readPiece c u).1.blockVariable? = none ∧ Piece.entry? (readPiece c u).1 = none) ∨
      ∃ o : Occurrence, o.StandsIn (before ++ c :: u) ∧ o.IsOf before (readPiece c u).1 := by
  rcases readPiece_cases c u with ⟨-, hread⟩ | ⟨key, rest, hsplit, hne, hkey, -, -, hread⟩ |
    ⟨key, bef, aft, rest, hsplit, ⟨hne, hkey, -, -⟩, -, hread⟩
  · rw [hread]
    exact Or.inl ⟨rfl, rfl⟩
  · rw [hread, hsplit]
    refine Or.inr ⟨_, ⟨⟨rest, before, rfl, rfl⟩, ?_⟩, Occurrence.isOf_flag before hne hkey⟩
    intro place v hv
    cases hv
  · rw [hread, hsplit]
    rcases readValue_cases rest with ⟨v, hv⟩ | hnone
    · have hrest : rest = v.text ++ (readValue rest).2 := by
        have htext := readValue_text rest
        rw [hv, PrintedValue.text_written] at htext
        exact htext.symm
      rw [hv]
      refine Or.inr ⟨_, ⟨⟨_, before, rfl, rfl⟩, ?_⟩,
        Occurrence.isOf_delimited before hne hkey bef aft v⟩
      intro place v' hv'
      obtain ⟨rfl, rfl⟩ := Prod.mk.inj (Option.some.inj hv')
      refine ⟨?_, (readValue rest).2, before ++ (key ++ (bef ++ '=' :: aft)), ?_, rfl⟩
      · -- The `=` stands between the key and the value.
        have hequals := '='.utf8Size_pos
        show Text.byteSize before + Text.byteSize key < _
        simp only [Text.byteSize_append, Text.byteSize_cons]
        omega
      · rw [← hrest]
        simp
    · refine Or.inr ⟨_, ⟨⟨_, before, rfl, rfl⟩, ?_⟩,
        Occurrence.isOf_undelimited before hne hkey bef aft hnone⟩
      intro place v hv
      cases hv

/-- All that is recorded along the pieces stands in the text, one occurrence behind the other. -/
theorem exists_occurrences (before t : Text) :
    ∃ os : List Occurrence,
      (∀ o ∈ os, o.StandsIn (before ++ t) ∧ Text.byteSize before ≤ o.start) ∧
      os.Pairwise Occurrence.Before ∧
      os.filterMap Occurrence.entry? = (pieces t).filterMap Piece.entry? ∧
      os.filterMap Occurrence.blockVariable? = (pieces t).filterMap Piece.blockVariable? := by
  fun_induction pieces t generalizing before with
  | case1 =>
    refine ⟨[], ?_, List.Pairwise.nil, rfl, rfl⟩
    intro o ho
    cases ho
  | case2 c u ih =>
    obtain ⟨os, hstands, hordered, hentries, hvariables⟩ := ih (before ++ (readPiece c u).1.text)
    rw [List.append_assoc, readPiece_text] at hstands
    have hsize : Text.byteSize before ≤ Text.byteSize (before ++ (readPiece c u).1.text) := by
      rw [Text.byteSize_append]
      exact Nat.le_add_right _ _
    rcases exists_occurrence before c u with
      ⟨hvariable, hentry⟩ | ⟨o, ho, ⟨hstart, hstop, hentry, hvariable⟩⟩
    · refine ⟨os, ?_, hordered, ?_, ?_⟩
      · intro o ho
        exact ⟨(hstands o ho).1, Nat.le_trans hsize (hstands o ho).2⟩
      · rw [List.filterMap_cons_none hentry, hentries]
      · rw [List.filterMap_cons_none hvariable, hvariables]
    · refine ⟨o :: os, ?_, ?_, ?_, ?_⟩
      · intro o' ho'
        rcases List.mem_cons.1 ho' with rfl | ho'
        · exact ⟨ho, Nat.le_of_eq hstart.symm⟩
        · exact ⟨(hstands o' ho').1, Nat.le_trans hsize (hstands o' ho').2⟩
      · rw [List.pairwise_cons]
        refine ⟨?_, hordered⟩
        intro o' ho'
        exact Nat.le_trans hstop (hstands o' ho').2
      · rw [List.filterMap_cons, List.filterMap_cons, hentry, hentries]
      · rw [List.filterMap_cons, List.filterMap_cons, hvariable, hvariables]

/-! ## What is recorded -/

theorem normalizeKey_ne_nil {key : Text} (h : key ≠ []) : normalizeKey key ≠ [] := by
  unfold normalizeKey
  intro hnil
  exact h (List.map_eq_nil_iff.1 hnil)

theorem isWordChar_of_mem_normalizeKey {key : Text} (h : ∀ c ∈ key, isKeyChar c = true) :
    ∀ c ∈ normalizeKey key, Name.isWordChar c = true := by
  intro c hc
  obtain ⟨d, hd, rfl⟩ := List.mem_map.1 hc
  by_cases hdash : d = '-'
  · rw [if_pos hdash]
    decide
  · have hkey := h d hd
    rw [if_neg hdash]
    unfold isKeyChar at hkey
    unfold Name.isWordChar
    simpa [hdash] using hkey

end Attribute

open Attribute

/-- The keyword argument is made of a word and of a value that stands in the text between its
delimiters. A string under the alias key is none. -/
structure AttributeEntry.ReadFrom (raw : Text) (e : AttributeEntry) : Prop where
  key_ne_nil : e.key ≠ []
  isWordChar_key : ∀ c ∈ e.key, Name.isWordChar c = true
  string_key : ∀ text, e.value = .string text → e.key ≠ aliasKey
  string : ∀ text, e.value = .string text →
    ∃ q, isQuote q = true ∧ closedBy q text = true ∧ q :: (text ++ [q]) <:+: raw
  expression : ∀ code, e.value = .expression code →
    BracesBalance code ∧ '{' :: (code ++ ['}']) <:+: raw

theorem Text.RestAt.isInfix {raw u rest : Text} {place : Nat} (h : RestAt raw place (u ++ rest)) :
    u <:+: raw := by
  obtain ⟨before, rfl, -⟩ := h
  exact ⟨before, rest, by simp⟩

theorem Attribute.Occurrence.readFrom {o : Occurrence} {raw : Text} {e : AttributeEntry}
    (h : o.StandsIn raw) (he : o.entry? = some e) : e.ReadFrom raw := by
  have hne := normalizeKey_ne_nil o.key_ne_nil
  have hword := isWordChar_of_mem_normalizeKey o.isKeyChar_key
  unfold entry? at he
  split at he
  · obtain rfl := Option.some.inj he
    refine ⟨hne, hword, ?_, ?_, ?_⟩ <;> (intro x hx; cases hx)
  · next place body hbalance hvalue =>
    obtain rfl := Option.some.inj he
    obtain ⟨-, rest, hrest⟩ := h.value place _ hvalue
    refine ⟨hne, hword, ?_, ?_, ?_⟩
    · intro text htext
      cases htext
    · intro text htext
      cases htext
    · intro code hcode
      obtain rfl := AttributeValue.expression.inj hcode
      exact ⟨hbalance, hrest.isInfix⟩
  · next place q body hq hclosed hvalue =>
    split at he
    · cases he
    · next halias =>
      obtain rfl := Option.some.inj he
      obtain ⟨-, rest, hrest⟩ := h.value place _ hvalue
      refine ⟨hne, hword, ?_, ?_, ?_⟩
      · intro text htext
        exact halias
      · intro text htext
        obtain rfl := AttributeValue.string.inj htext
        exact ⟨q, hq, hclosed, hrest.isInfix⟩
      · intro code hcode
        cases hcode

/-- No white space is left at the ends of a text that is trimmed. -/
theorem Text.trim_ends (t : Text) :
    (∀ c ∈ (Text.trim t).head?, Text.isWhiteSpace c = false) ∧
      ∀ c ∈ (Text.trim t).getLast?, Text.isWhiteSpace c = false := by
  unfold Text.trim
  constructor
  · intro c hc
    have hsplit := Text.trimEnd_append_trailingSpace (t.dropWhile Text.isWhiteSpace)
    have hhead : c ∈ (t.dropWhile Text.isWhiteSpace).head? := by
      rw [← hsplit, List.head?_append, Option.mem_def.1 hc]
      rfl
    exact head_dropWhile c hhead
  · intro c hc
    unfold Text.trimEnd at hc
    rw [List.getLast?_reverse] at hc
    exact head_dropWhile c hc

theorem Attribute.Occurrence.blockVariable?_ends {o : Occurrence} {name : Text}
    (h : o.blockVariable? = some name) :
    name ≠ [] ∧ (∀ c ∈ name.head?, Text.isWhiteSpace c = false) ∧
      ∀ c ∈ name.getLast?, Text.isWhiteSpace c = false := by
  unfold blockVariable? at h
  split at h
  · split at h
    · next hname =>
      obtain rfl := Option.some.inj h
      exact ⟨hname.2, Text.trim_ends _⟩
    · cases h
  · cases h

/-! ## Faults -/

/-- The key whose value could not be read. -/
def AttributeFault.key : AttributeFault → Text
  | .unbalanced key | .unterminated key => key

theorem Attribute.Piece.entry?_of_fault? {p : Piece} {fault : AttributeFault}
    (h : p.fault? = some fault) : p.entry? = some ⟨fault.key, .yes⟩ := by
  unfold fault? at h
  split at h
  · obtain rfl := Option.some.inj h
    rfl
  · obtain rfl := Option.some.inj h
    rfl
  · cases h

/-- A value that could not be read is the last one, and its key counts as set. -/
theorem getLast?_entries_of_fault {raw : Text} {fault : AttributeFault}
    (h : fault ∈ (Attributes.read raw).faults) :
    (Attributes.read raw).entries.getLast? = some ⟨fault.key, .yes⟩ := by
  obtain ⟨p, hmem, hp⟩ := List.mem_filterMap.1 h
  obtain ⟨front, back, hpieces⟩ := List.append_of_mem hmem
  obtain ⟨c, u, -, rfl, rfl⟩ := exists_of_pieces_eq_append hpieces
  rw [pieces_behind_fault hp] at hpieces
  show ((pieces raw).filterMap Piece.entry?).getLast? = _
  rw [hpieces, List.filterMap_append, List.filterMap_cons_some (Piece.entry?_of_fault? hp)]
  exact List.getLast?_concat

/-! ## Any text -/

theorem exists_occurrences_of_read (raw : Text) :
    ∃ os : List Occurrence, (∀ o ∈ os, o.StandsIn raw) ∧ os.Pairwise Occurrence.Before ∧
      (Attributes.read raw).entries = os.filterMap Occurrence.entry? ∧
      (pieces raw).filterMap Piece.blockVariable? = os.filterMap Occurrence.blockVariable? ∧
      (Attributes.read raw).blockVariable = (os.filterMap Occurrence.blockVariable?).getLast? := by
  obtain ⟨os, hstands, hordered, hentries, hvariables⟩ := exists_occurrences [] raw
  refine ⟨os, fun o ho => (hstands o ho).1, hordered, hentries.symm, hvariables.symm, ?_⟩
  rw [hvariables]
  rfl

theorem readFrom_of_mem_entries {raw : Text} {e : AttributeEntry}
    (h : e ∈ (Attributes.read raw).entries) : e.ReadFrom raw := by
  obtain ⟨os, hstands, -, hentries, -, -⟩ := exists_occurrences_of_read raw
  rw [hentries] at h
  obtain ⟨o, ho, he⟩ := List.mem_filterMap.1 h
  exact Occurrence.readFrom (hstands o ho) he

/-- Whatever the text is, the loop over its bytes gets through it, and all that is read stands in
it: the keyword arguments and all names for the block variable are those of occurrences that stand
one behind the other, and the last of the names counts. Every keyword argument has a word for its
key and a value that stands in the text between its delimiters. Strings under the alias key name the
block variable instead, which has no white space at its ends. There is at most one value that cannot
be read, and then the last keyword argument has its key and counts as set. -/
theorem Attributes.read_stands_in (raw : Text) :
    attributes? raw = some (Attributes.read raw) ∧
    (∃ os : List Occurrence, (∀ o ∈ os, o.StandsIn raw) ∧ os.Pairwise Occurrence.Before ∧
      (Attributes.read raw).entries = os.filterMap Occurrence.entry? ∧
      (pieces raw).filterMap Piece.blockVariable? = os.filterMap Occurrence.blockVariable? ∧
      (Attributes.read raw).blockVariable =
        (os.filterMap Occurrence.blockVariable?).getLast?) ∧
    (∀ e ∈ (Attributes.read raw).entries, e.ReadFrom raw) ∧
    (∀ name, (Attributes.read raw).blockVariable = some name →
      name ≠ [] ∧ (∀ c ∈ name.head?, Text.isWhiteSpace c = false) ∧
        ∀ c ∈ name.getLast?, Text.isWhiteSpace c = false) ∧
    ((Attributes.read raw).faults = [] ∨ ∃ fault, (Attributes.read raw).faults = [fault] ∧
      (Attributes.read raw).entries.getLast? = some ⟨fault.key, .yes⟩) := by
  refine ⟨attributes?_eq raw, exists_occurrences_of_read raw,
    fun e he => readFrom_of_mem_entries he, ?_, ?_⟩
  · intro name hname
    obtain ⟨os, -, -, -, -, hvariable⟩ := exists_occurrences_of_read raw
    rw [hname] at hvariable
    obtain ⟨o, -, ho⟩ := List.mem_filterMap.1 (List.mem_of_getLast? hvariable.symm)
    exact Occurrence.blockVariable?_ends ho
  · rcases faults_cases raw with hnil | ⟨fault, hfault⟩
    · exact Or.inl hnil
    · refine Or.inr ⟨fault, hfault, getLast?_entries_of_fault ?_⟩
      rw [hfault]
      exact List.mem_singleton_self fault

/-- Dashes, quotes inside quotes, braces inside braces and inside quotes, two names for the block
variable, an `=` without a key, and a brace that is never closed. -/
theorem Attributes.read_stands_in_messy :
    let raw := "-a='x\"y'as=\" é \"b=\x7b\x7b\x7d > \x7d c=\"d=\x7b\" =e as='v' f=\x7b".toList
    let entries : List AttributeEntry :=
      [⟨"_a".toList, .string "x\"y".toList⟩, ⟨"b".toList, .expression "\x7b\x7d > ".toList⟩,
        ⟨"c".toList, .string "d=\x7b".toList⟩, ⟨"e".toList, .yes⟩, ⟨"f".toList, .yes⟩]
    Attributes.read raw = ⟨entries, some "v".toList, [.unbalanced "f".toList]⟩ ∧
      ∃ os : List Occurrence, (∀ o ∈ os, o.StandsIn raw) ∧ os.Pairwise Occurrence.Before ∧
        os.filterMap Occurrence.entry? = entries ∧
        os.filterMap Occurrence.blockVariable? = ["é".toList, "v".toList] := by
  intro raw entries
  have hread : Attributes.read raw = ⟨entries, some "v".toList, [.unbalanced "f".toList]⟩ := by
    decide +kernel
  have hnames : (pieces raw).filterMap Piece.blockVariable? = ["é".toList, "v".toList] := by
    decide +kernel
  obtain ⟨-, ⟨os, hstands, hordered, hentries, hvariables, -⟩, -⟩ := Attributes.read_stands_in raw
  rw [hread] at hentries
  exact ⟨hread, os, hstands, hordered, hentries.symm, hvariables.symm.trans hnames⟩

end ErbTags
