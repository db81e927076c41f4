import ErbTags.Proofs.Delimited
import Mathlib.Data.List.DropRight

/-!
# Attributes as they are printed

A printed attribute is a key, alone or with a value after an `=`, with blanks before the key and
around the `=` as one likes. Its parts are such that nothing in it can be misread. Reading a text
of printed attributes gives each of them back (`Attributes.read_printed`): as a keyword argument, or
as a name for the block variable if it is a string under `as`.
-/

namespace ErbTags

open Attribute Delimiter

/-! ## Printing -/

/-- Blanks between the parts of a tag. -/
structure Blanks where
  /-- The blanks. -/
  text : Text
  /-- Nothing else is among them. -/
  all_isBlank : text.all Text.isBlank = true := by decide

/-- A value that ends where it should. -/
inductive PrintedValue where
  /-- A string in the quotes `q`. -/
  | quoted (q : Char) (body : Text) (isQuote_q : isQuote q = true := by decide)
    (closedBy_body : closedBy q body = true := by decide)
  /-- An expression in braces. -/
  | braced (body : Text) (balance : BracesBalance body := by decide)

/-- An `=` with blanks around it, and a value. -/
structure PrintedAssignment where
  /-- The blanks before the `=`. -/
  before : Blanks
  /-- The blanks after the `=`. -/
  after : Blanks
  /-- The value. -/
  value : PrintedValue

/-- An attribute, with the blanks that separate it from what comes before. -/
structure PrintedAttribute where
  /-- The blanks before the key. -/
  lead : Blanks
  /-- The key. -/
  key : Text
  /-- The value of the key, if it has one. -/
  assignment : Option PrintedAssignment
  /-- Something separates the attribute from what comes before. -/
  lead_ne_nil : lead.text ≠ [] := by decide
  /-- The key is not empty. -/
  key_ne_nil : key ≠ [] := by decide
  /-- The key is one word. -/
  all_isKeyChar : key.all isKeyChar = true := by decide

theorem Blanks.isBlank_text (b : Blanks) : ∀ c ∈ b.text, Text.isBlank c = true :=
  List.all_eq_true.1 b.all_isBlank

theorem Blanks.isBlank_of_eq_cons {b : Blanks} {c : Char} {t : Text} (h : b.text = c :: t) :
    Text.isBlank c = true := by
  apply b.isBlank_text
  rw [h]
  exact List.mem_cons_self

theorem PrintedAttribute.isKeyChar_key (a : PrintedAttribute) :
    ∀ c ∈ a.key, isKeyChar c = true :=
  List.all_eq_true.1 a.all_isKeyChar

/-- The value as printed. -/
def PrintedValue.text : PrintedValue → Text
  | .quoted q body _ _ => q :: (body ++ [q])
  | .braced body _ => '{' :: (body ++ ['}'])

/-- The value as printed, with the `=` before it. -/
def PrintedAssignment.text (x : PrintedAssignment) : Text :=
  x.before.text ++ '=' :: (x.after.text ++ x.value.text)

/-- What follows the key of an attribute. -/
def PrintedAttribute.afterKey (a : PrintedAttribute) : Text :=
  match a.assignment with
  | none => []
  | some x => x.text

/-- The attribute as printed. -/
def PrintedAttribute.text (a : PrintedAttribute) : Text := a.lead.text ++ (a.key ++ a.afterKey)

/-! ## What is printed -/

/-- The value that is printed. -/
def PrintedValue.value : PrintedValue → AttributeValue
  | .quoted _ body _ _ => .string body
  | .braced body _ => .expression body

namespace PrintedAttribute

/-- The string under the key `as`. -/
def alias? (a : PrintedAttribute) : Option Text :=
  match a.assignment with
  | some ⟨_, _, .quoted _ body _ _⟩ => if a.key = "as".toList then some body else none
  | _ => none

/-- The keyword argument that the attribute stands for. A string under the key `as` is none. -/
def entry? (a : PrintedAttribute) : Option AttributeEntry :=
  if a.alias?.isSome then none
  else some ⟨a.key.map fun c => if c = '-' then '_' else c,
    (a.assignment.map (·.value.value)).getD .yes⟩

/-- The last string under the key `as` that is not blank, without the white space at its ends. -/
def lastAlias? (as : List PrintedAttribute) : Option Text :=
  ((as.filterMap alias?).filter fun t => t.any (!Text.isWhiteSpace ·)).getLast?.map Text.trim

end PrintedAttribute

/-! ## Reading what is printed -/

section Words

variable {p : Char → Bool} {u t : Text}

/-- A word is read up to a character that does not belong to it. -/
theorem takeWhile_word (hu : ∀ c ∈ u, p c = true) (ht : ∀ c ∈ t.head?, p c = false) :
    (u ++ t).takeWhile p = u := by
  rw [List.takeWhile_append_of_pos hu]
  cases t with
  | nil => simp
  | cons c t => simp [ht c rfl]

theorem dropWhile_word (hu : ∀ c ∈ u, p c = true) (ht : ∀ c ∈ t.head?, p c = false) :
    (u ++ t).dropWhile p = t := by
  rw [List.dropWhile_append_of_pos hu]
  cases t with
  | nil => simp
  | cons c t => simp [ht c rfl]

end Words

theorem isKeyChar_of_isBlank {c : Char} (h : Text.isBlank c = true) : isKeyChar c = false := by
  rcases Text.eq_of_isBlank h with rfl | rfl | rfl | rfl | rfl <;> decide

theorem isBlank_of_isKeyChar {c : Char} (h : isKeyChar c = true) : Text.isBlank c = false := by
  cases hblank : Text.isBlank c with
  | false => rfl
  | true =>
    rw [isKeyChar_of_isBlank hblank] at h
    cases h

theorem pieces_cons (c : Char) (t : Text) :
    pieces (c :: t) = (readPiece c t).1 :: pieces (readPiece c t).2 := by
  rw [pieces]

theorem pieces_blanks (b : Blanks) (t : Text) :
    pieces (b.text ++ t) = b.text.map .filler ++ pieces t := by
  have hblank := b.isBlank_text
  generalize b.text = u at hblank
  induction u with
  | nil => rfl
  | cons c u ih =>
    have hc : isKeyChar c = false := isKeyChar_of_isBlank (hblank c List.mem_cons_self)
    have hread : readPiece c (u ++ t) = (.filler c, u ++ t) := by simp [readPiece, hc]
    have hrest := ih fun d hd => hblank d (List.mem_cons_of_mem c hd)
    rw [List.cons_append, pieces_cons, hread, hrest]
    rfl

/-- A key is read as a whole. -/
theorem pieces_key {key t : Text} (hne : key ≠ []) (hkey : ∀ c ∈ key, isKeyChar c = true)
    (ht : ∀ c ∈ t.head?, isKeyChar c = false) :
    pieces (key ++ t) = (readKeyed key t).1 :: pieces (readKeyed key t).2 := by
  have htake := takeWhile_word hkey ht
  have hdrop := dropWhile_word hkey ht
  cases key with
  | nil => exact absurd rfl hne
  | cons c key =>
    have hread : readPiece c (key ++ t) = readKeyed (c :: key) t := by
      rw [readPiece, if_pos (hkey c List.mem_cons_self), ← List.cons_append, htake, hdrop]
    rw [List.cons_append, pieces_cons, hread]

namespace PrintedValue

/-- The value as it is read. -/
def written : PrintedValue → Written
  | .quoted q body _ _ => .quoted q body
  | .braced body _ => .braced body

theorem readValue_text (v : PrintedValue) (t : Text) :
    readValue (v.text ++ t) = (v.written, t) := by
  cases v with
  | quoted q body hq hbody =>
    have hquoted := quoted?_append hq hbody t
    simp [text, written, readValue, hq, hquoted]
  | braced body hbody =>
    have hbraced := braced?_append hbody t
    have hq : isQuote '{' = false := by decide
    simp [text, written, readValue, hq, hbraced]

/-- No blank begins a value. -/
theorem isBlank_head (v : PrintedValue) (t : Text) :
    ∀ c ∈ (v.text ++ t).head?, Text.isBlank c = false := by
  intro c hc
  cases v with
  | quoted q body hq _ =>
    have heq : q = c := by simpa [text] using hc
    subst heq
    rcases eq_of_isQuote hq with rfl | rfl <;> decide
  | braced body _ =>
    have heq : '{' = c := by simpa [text] using hc
    subst heq
    decide

end PrintedValue

theorem isBlank_equals : Text.isBlank '=' = false := by decide

theorem PrintedAssignment.readKeyed_text (x : PrintedAssignment) (key t : Text) :
    readKeyed key (x.text ++ t) =
      (.assigned key x.before.text x.after.text x.value.written, t) := by
  have htext : x.text ++ t = x.before.text ++ '=' :: (x.after.text ++ (x.value.text ++ t)) := by
    simp [text]
  have hequals : ∀ c ∈ ('=' :: (x.after.text ++ (x.value.text ++ t))).head?,
      Text.isBlank c = false := by
    intro c hc
    rw [← Option.some.inj hc]
    exact isBlank_equals
  have hassign : assignment? (x.text ++ t) =
      some (x.before.text, x.after.text ++ (x.value.text ++ t)) := by
    rw [htext, assignment?, dropWhile_word x.before.isBlank_text hequals,
      takeWhile_word x.before.isBlank_text hequals]
    rfl
  have hvalue := x.value.isBlank_head t
  rw [readKeyed, hassign]
  show (Piece.assigned key x.before.text _ _, _) = _
  rw [takeWhile_word x.after.isBlank_text hvalue, dropWhile_word x.after.isBlank_text hvalue,
    x.value.readValue_text]

namespace PrintedAttribute

/-- The attribute as it is read. -/
def piece (a : PrintedAttribute) : Piece :=
  match a.assignment with
  | none => .flag a.key
  | some x => .assigned a.key x.before.text x.after.text x.value.written

/-- No key and no `=` begins what follows an attribute. -/
structure Ends (t : Text) : Prop where
  /-- What follows does not go on with the key. -/
  isKeyChar_head : ∀ c ∈ t.head?, isKeyChar c = false
  /-- What follows does not assign a value to the key. -/
  assignment? : assignment? t = none

theorem ends_blanks (b : Blanks) : Ends b.text where
  isKeyChar_head := by
    intro c hc
    exact isKeyChar_of_isBlank (b.isBlank_text c (List.mem_of_mem_head? hc))
  assignment? := by
    rw [Attribute.assignment?, List.dropWhile_eq_nil_iff.2 b.isBlank_text]

/-- Another attribute may follow an attribute. -/
theorem ends_text (a : PrintedAttribute) (t : Text) : Ends (a.text ++ t) where
  isKeyChar_head := by
    obtain ⟨c, lead, hlead⟩ := List.exists_cons_of_ne_nil a.lead_ne_nil
    have hc : isKeyChar c = false := isKeyChar_of_isBlank (Blanks.isBlank_of_eq_cons hlead)
    intro d hd
    have heq : c = d := by simpa [text, hlead] using hd
    rwa [← heq]
  assignment? := by
    obtain ⟨c, key, hkey⟩ := List.exists_cons_of_ne_nil a.key_ne_nil
    have hc : isKeyChar c = true := a.isKeyChar_key c (by rw [hkey]; exact List.mem_cons_self)
    have htext : a.text ++ t = a.lead.text ++ (c :: (key ++ (a.afterKey ++ t))) := by
      simp [text, hkey]
    have hhead : ∀ d ∈ (c :: (key ++ (a.afterKey ++ t))).head?, Text.isBlank d = false := by
      intro d hd
      rw [← Option.some.inj hd]
      exact isBlank_of_isKeyChar hc
    -- Behind the blanks stands the next key, and an `=` is no part of a key.
    rw [htext, Attribute.assignment?, dropWhile_word a.lead.isBlank_text hhead]
    split
    · next heq =>
      rw [(List.cons.inj heq).1] at hc
      exact absurd hc (by decide)
    · rfl

theorem ends_attributes (as : List PrintedAttribute) (trailing : Blanks) :
    Ends (as.flatMap text ++ trailing.text) := by
  cases as with
  | nil => exact ends_blanks trailing
  | cons a as =>
    rw [List.flatMap_cons, List.append_assoc]
    exact a.ends_text _

/-- Reading a printed attribute gives its piece, after the blanks before it. -/
theorem pieces_text (a : PrintedAttribute) {t : Text} (ht : Ends t) :
    pieces (a.text ++ t) = a.lead.text.map .filler ++ a.piece :: pieces t := by
  have hkeyed : pieces (a.key ++ (a.afterKey ++ t)) = a.piece :: pieces t := by
    unfold afterKey piece
    cases a.assignment with
    | none =>
      have hread : readKeyed a.key t = (.flag a.key, t) := by rw [readKeyed, ht.assignment?]
      show pieces (a.key ++ t) = _
      rw [pieces_key a.key_ne_nil a.isKeyChar_key ht.isKeyChar_head, hread]
    | some x =>
      have hhead : ∀ c ∈ (x.text ++ t).head?, isKeyChar c = false := by
        intro c hc
        cases hbefore : x.before.text with
        | nil =>
          have heq : '=' = c := by simpa [PrintedAssignment.text, hbefore] using hc
          rw [← heq]
          decide
        | cons d before =>
          have heq : d = c := by simpa [PrintedAssignment.text, hbefore] using hc
          rw [← heq]
          exact isKeyChar_of_isBlank (Blanks.isBlank_of_eq_cons hbefore)
      show pieces (a.key ++ (x.text ++ t)) = _
      rw [pieces_key a.key_ne_nil a.isKeyChar_key hhead, x.readKeyed_text]
  rw [text, List.append_assoc, List.append_assoc, pieces_blanks, hkeyed]

/-- Reading printed attributes gives their pieces, with blanks between them. -/
theorem pieces_attributes (as : List PrintedAttribute) (trailing : Blanks) :
    pieces (as.flatMap text ++ trailing.text) =
      as.flatMap (fun a => a.lead.text.map .filler ++ [a.piece]) ++
        trailing.text.map .filler := by
  induction as with
  | nil =>
    have hblanks := pieces_blanks trailing []
    have hnil : pieces [] = [] := by rw [pieces]
    rw [List.append_nil, hnil, List.append_nil] at hblanks
    exact hblanks
  | cons a as ih =>
    rw [List.flatMap_cons, List.append_assoc, a.pieces_text (ends_attributes as trailing), ih]
    simp

/-- What is read off the pieces, blanks aside, is read off the attributes. -/
theorem filterMap_pieces {β : Type} (f : Piece → Option β) (hfiller : ∀ c, f (.filler c) = none)
    (as : List PrintedAttribute) (trailing : Blanks) :
    (pieces (as.flatMap text ++ trailing.text)).filterMap f =
      as.filterMap fun a => f a.piece := by
  have hblanks : ∀ t : Text, (t.map Piece.filler).filterMap f = [] := by
    intro t
    rw [List.filterMap_map, List.filterMap_eq_nil_iff]
    intro c _
    exact hfiller c
  rw [pieces_attributes, List.filterMap_append, hblanks, List.append_nil]
  induction as with
  | nil => rfl
  | cons a as ih =>
    rw [List.flatMap_cons, List.filterMap_append, List.filterMap_append, hblanks, ih,
      List.nil_append, List.filterMap_cons, List.filterMap_cons]
    cases f a.piece <;> rfl

/-! ## What the attributes mean -/

/-- A key is `as` before its dashes are replaced just if it is afterwards. -/
theorem normalizeKey_eq_aliasKey_iff {key : Text} :
    normalizeKey key = aliasKey ↔ key = "as".toList := by
  have hsame : ∀ c d : Char, d ≠ '_' → ((if c = '-' then '_' else c) = d ↔ c = d ∧ c ≠ '-') := by
    intro c d hd
    by_cases hc : c = '-'
    · simp [hc, hd.symm]
    · simp [hc]
  constructor
  · intro h
    obtain ⟨c, rest, rfl, hc, hrest⟩ := List.map_eq_cons_iff.1 h
    obtain ⟨d, rest', rfl, hd, hnil⟩ := List.map_eq_cons_iff.1 hrest
    rw [((hsame c 'a' (by decide)).1 hc).1, ((hsame d 's' (by decide)).1 hd).1,
      List.map_eq_nil_iff.1 hnil]
    rfl
  · rintro rfl
    decide

theorem entry?_piece (a : PrintedAttribute) : a.piece.entry? = a.entry? := by
  unfold piece entry? alias?
  cases a.assignment with
  | none => rfl
  | some x =>
    obtain ⟨before, after, value⟩ := x
    cases value with
    | quoted q body hq hbody =>
      show (if normalizeKey a.key = aliasKey then none else _) =
        if (if a.key = "as".toList then some body else none).isSome then none else _
      by_cases hkey : a.key = "as".toList
      · rw [if_pos (normalizeKey_eq_aliasKey_iff.2 hkey), if_pos hkey]
        rfl
      · rw [if_neg (mt normalizeKey_eq_aliasKey_iff.1 hkey), if_neg hkey]
        rfl
    | braced body hbody => rfl

theorem fault?_piece (a : PrintedAttribute) : a.piece.fault? = none := by
  unfold piece
  cases a.assignment with
  | none => rfl
  | some x =>
    obtain ⟨before, after, value⟩ := x
    cases value <;> rfl

/-- Trimming leaves nothing of a text just if it is white space. -/
theorem trim_eq_nil_iff {t : Text} :
    Text.trim t = [] ↔ ∀ c ∈ t, Text.isWhiteSpace c = true := by
  have hsplit := List.takeWhile_append_dropWhile (p := Text.isWhiteSpace) (l := t)
  show (t.dropWhile Text.isWhiteSpace).rdropWhile Text.isWhiteSpace = [] ↔ _
  rw [List.rdropWhile_eq_nil_iff]
  constructor
  · intro h c hc
    rw [← hsplit, List.mem_append] at hc
    rcases hc with hc | hc
    · exact List.mem_takeWhile_imp hc
    · exact h c hc
  · intro h c hc
    exact h c ((List.dropWhile_sublist _).subset hc)

theorem blockVariable?_piece (a : PrintedAttribute) :
    a.piece.blockVariable? =
      (a.alias?.filter fun t => t.any (!Text.isWhiteSpace ·)).map Text.trim := by
  unfold piece alias?
  cases a.assignment with
  | none => rfl
  | some x =>
    obtain ⟨before, after, value⟩ := x
    cases value with
    | braced body hbody => rfl
    | quoted q body hq hbody =>
      show (if normalizeKey a.key = aliasKey ∧ Text.trim body ≠ [] then some (Text.trim body)
        else none) = ((if a.key = "as".toList then some body else none).filter _).map _
      by_cases hkey : a.key = "as".toList
      · have hnormal := normalizeKey_eq_aliasKey_iff.2 hkey
        by_cases hblank : Text.trim body = []
        · have hany : (body.any (!Text.isWhiteSpace ·)) = false := by
            simpa using trim_eq_nil_iff.1 hblank
          rw [if_neg (fun h => h.2 hblank), if_pos hkey, Option.filter_some, hany]
          rfl
        · have hany : (body.any (!Text.isWhiteSpace ·)) = true := by
            have hnot := mt trim_eq_nil_iff.2 hblank
            simpa using hnot
          rw [if_pos ⟨hnormal, hblank⟩, if_pos hkey, Option.filter_some, hany]
          rfl
      · rw [if_neg (fun h => hkey (normalizeKey_eq_aliasKey_iff.1 h.1)), if_neg hkey]
        rfl

end PrintedAttribute

/-- Reading printed attributes gives them back, in their order and without a fault. -/
theorem Attributes.read_printed (as : List PrintedAttribute) (trailing : Blanks) :
    Attributes.read (as.flatMap PrintedAttribute.text ++ trailing.text) =
      ⟨as.filterMap PrintedAttribute.entry?, PrintedAttribute.lastAlias? as, []⟩ := by
  have hentries := PrintedAttribute.filterMap_pieces Piece.entry? (fun _ => rfl) as trailing
  have hvariable :=
    PrintedAttribute.filterMap_pieces Piece.blockVariable? (fun _ => rfl) as trailing
  have hfaults := PrintedAttribute.filterMap_pieces Piece.fault? (fun _ => rfl) as trailing
  simp only [PrintedAttribute.entry?_piece] at hentries
  simp only [PrintedAttribute.blockVariable?_piece] at hvariable
  simp only [PrintedAttribute.fault?_piece, List.filterMap_none] at hfaults
  rw [Attributes.read, hentries, hvariable, hfaults, PrintedAttribute.lastAlias?,
    List.filter_filterMap, ← List.getLast?_map, List.map_filterMap]

end ErbTags
