import ErbTags.Proofs.PrintedAttributes
import ErbTags.Tag.Scanner

/-!
# Tags as they are printed

A printed tag is a name, printed attributes and an end, `>` or `/>`. Wherever it stands in a text,
as long as no `<` comes before it, it is the first tag that is found there, from its `<` to its own
`>`, whatever its values hold and whatever comes after it (`next_printedTag`).
-/

namespace ErbTags

open Delimiter

/-! ## Names -/

namespace Name

/-- Whether the text is a segment of a name: a capital, then letters, digits and underscores. -/
def isSegment : Text → Bool
  | [] => false
  | c :: t => c.isUpper && t.all isWordChar

theorem isWordChar_ne_colon {c : Char} (h : isWordChar c = true) : c ≠ ':' := by
  rintro rfl
  revert h
  decide

theorem continuation_cons {c : Char} (hc : isWordChar c = true) (t : Text) :
    continuation (c :: t) = (c :: (continuation t).1, (continuation t).2) := by
  rw [continuation.eq_def]
  split
  · next heq => exact absurd (List.cons.inj heq).1 (isWordChar_ne_colon hc)
  · next heq =>
    obtain ⟨rfl, rfl⟩ := List.cons.inj heq
    rw [if_pos hc]
  · next heq => cases heq

theorem continuation_word {u : Text} (hu : ∀ c ∈ u, isWordChar c = true) (t : Text) :
    continuation (u ++ t) = (u ++ (continuation t).1, (continuation t).2) := by
  induction u with
  | nil => rfl
  | cons c u ih =>
    rw [List.cons_append, continuation_cons (hu c List.mem_cons_self),
      ih fun d hd => hu d (List.mem_cons_of_mem c hd)]
    rfl

/-- A name ends at a character that is neither part of a word nor a colon. -/
theorem continuation_end {t : Text} (ht : ∀ c ∈ t.head?, isWordChar c = false ∧ c ≠ ':') :
    continuation t = ([], t) := by
  rw [continuation.eq_def]
  split
  · exact absurd rfl (ht ':' rfl).2
  · next c t _ =>
    have hc : ¬ isWordChar c = true := by simp [(ht c rfl).1]
    rw [if_neg hc]
  · rfl

end Name

/-- A name of one or more segments. -/
structure PrintedName where
  /-- The first segment. -/
  first : Text
  /-- The other segments. -/
  more : List Text
  /-- The first segment is one. -/
  isSegment_first : Name.isSegment first = true := by decide
  /-- So are the others. -/
  all_isSegment : more.all Name.isSegment = true := by decide

/-- The segments, joined by `::`. -/
def PrintedName.text (n : PrintedName) : Text := n.first ++ n.more.flatMap (':' :: ':' :: ·)

theorem Name.exists_of_isSegment {segment : Text} (h : isSegment segment = true) :
    ∃ c u, segment = c :: u ∧ c.isUpper = true ∧ ∀ d ∈ u, isWordChar d = true := by
  cases segment with
  | nil => cases h
  | cons c u =>
    rw [isSegment, Bool.and_eq_true, List.all_eq_true] at h
    exact ⟨c, u, rfl, h⟩

theorem Name.continuation_segments {segments : List Text} {t : Text}
    (hsegments : ∀ segment ∈ segments, isSegment segment = true)
    (ht : ∀ c ∈ t.head?, isWordChar c = false ∧ c ≠ ':') :
    continuation (segments.flatMap (':' :: ':' :: ·) ++ t) =
      (segments.flatMap (':' :: ':' :: ·), t) := by
  induction segments with
  | nil => exact continuation_end ht
  | cons segment segments ih =>
    obtain ⟨c, u, rfl, hc, hu⟩ := exists_of_isSegment (hsegments segment List.mem_cons_self)
    have hrest := ih fun s hs => hsegments s (List.mem_cons_of_mem _ hs)
    have hword := continuation_word hu (segments.flatMap (':' :: ':' :: ·) ++ t)
    rw [hrest] at hword
    rw [List.flatMap_cons, List.append_assoc]
    show continuation (':' :: ':' :: c :: (u ++ (segments.flatMap (':' :: ':' :: ·) ++ t))) = _
    rw [continuation, if_pos hc, hword]
    rfl

namespace PrintedName

theorem read?_text (n : PrintedName) {t : Text}
    (ht : ∀ c ∈ t.head?, Name.isWordChar c = false ∧ c ≠ ':') :
    Name.read? (n.text ++ t) = some (n.text, t) := by
  obtain ⟨c, u, hfirst, hc, hu⟩ := Name.exists_of_isSegment n.isSegment_first
  have hword := Name.continuation_word hu (n.more.flatMap (':' :: ':' :: ·) ++ t)
  rw [Name.continuation_segments (List.all_eq_true.1 n.all_isSegment) ht] at hword
  rw [text, hfirst, List.append_assoc]
  show Name.read? (c :: (u ++ (n.more.flatMap (':' :: ':' :: ·) ++ t))) = _
  rw [Name.read?, if_pos hc, hword]
  rfl

/-- A name begins with a capital, so it does not begin a closing tag. -/
theorem readClosing?_text (n : PrintedName) (start : Nat) (t : Text) :
    Tag.readClosing? start (n.text ++ t) = none := by
  obtain ⟨c, u, hfirst, hc, _⟩ := Name.exists_of_isSegment n.isSegment_first
  rw [text, hfirst]
  unfold Tag.readClosing?
  split
  · next heq =>
    have hslash : c = '/' := by simpa using (List.cons.inj heq).1
    rw [hslash] at hc
    exact absurd hc (by decide)
  · rfl

end PrintedName

/-! ## Printing -/

/-- An opening or self-closing tag. -/
structure PrintedTag where
  /-- Its name. -/
  name : PrintedName
  /-- Its attributes. -/
  attributes : List PrintedAttribute
  /-- The blanks before its end. -/
  trailing : Blanks
  /-- Whether a slash stands before the final `>`. -/
  selfClosing : Bool

namespace PrintedTag

/-- What stands between the name and the end of the tag. -/
def inner (m : PrintedTag) : Text := m.attributes.flatMap PrintedAttribute.text ++ m.trailing.text

/-- What stands right before the final `>`. -/
def slash (m : PrintedTag) : Text := if m.selfClosing then ['/'] else []

/-- The tag as printed. -/
def text (m : PrintedTag) : Text := '<' :: (m.name.text ++ (m.inner ++ (m.slash ++ ['>'])))

/-- The kind of the tag. -/
def kind (m : PrintedTag) : TagKind := if m.selfClosing then .selfClosing else .opening

/-- The tag as it is found at byte `start`. -/
def tag (m : PrintedTag) (start : Nat) : Tag := ⟨m.kind, m.name.text, m.inner, m.slash, start⟩

theorem text_tag (m : PrintedTag) (start : Nat) : (m.tag start).text = m.text := by
  have hopener : m.kind.opener = ['<'] := by
    unfold kind
    cases m.selfClosing <;> rfl
  show m.kind.opener ++ _ = _
  rw [hopener]
  rfl

end PrintedTag

/-! ## The end of a printed tag -/

theorem PrintedAttribute.foldlM_tagEnd (a : PrintedAttribute) :
    a.text.foldlM tagEnd (.plain false) = some (.plain false) := by
  have hkey := foldlM_tagEnd_key false a.key_ne_nil a.isKeyChar_key
  have hafter : a.afterKey.foldlM tagEnd (.plain false) = some (.plain false) := by
    unfold afterKey
    cases a.assignment with
    | none => rfl
    | some x =>
      have hvalue : x.value.text.foldlM tagEnd (.plain true) = some (.plain false) := by
        cases x.value with
        | quoted q body hq hbody => exact foldlM_tagEnd_quotedValue hq hbody
        | braced body hbody => exact foldlM_tagEnd_bracedValue hbody
      show (x.before.text ++ '=' :: (x.after.text ++ x.value.text)).foldlM tagEnd _ = _
      rw [List.foldlM_append, foldlM_tagEnd_blanks false x.before.isBlank_text]
      show (x.after.text ++ x.value.text).foldlM tagEnd (.plain true) = _
      rw [List.foldlM_append, foldlM_tagEnd_blanks true x.after.isBlank_text]
      exact hvalue
  rw [text, List.foldlM_append, foldlM_tagEnd_blanks false a.lead.isBlank_text]
  show (a.key ++ a.afterKey).foldlM tagEnd (.plain false) = _
  rw [List.foldlM_append, hkey]
  exact hafter

namespace PrintedTag

theorem foldlM_tagEnd_inner (m : PrintedTag) :
    m.inner.foldlM tagEnd (.plain false) = some (.plain false) := by
  unfold inner
  induction m.attributes with
  | nil => exact foldlM_tagEnd_blanks false m.trailing.isBlank_text
  | cons a as ih =>
    rw [List.flatMap_cons, List.append_assoc, List.foldlM_append, a.foldlM_tagEnd]
    exact ih

/-- The end of a printed tag is its own final `>`. -/
theorem tagEnd?_inner (m : PrintedTag) (rest : Text) :
    tagEnd? (m.inner ++ (m.slash ++ '>' :: rest)) = some (m.inner ++ m.slash, rest) := by
  have hslash : m.slash.foldlM tagEnd (.plain false) = some (.plain false) := by
    unfold slash
    cases m.selfClosing <;> rfl
  have hpassed : (m.inner ++ m.slash).foldlM tagEnd (.plain false) = some (.plain false) := by
    rw [List.foldlM_append, m.foldlM_tagEnd_inner]
    exact hslash
  rw [← List.append_assoc, tagEnd?, Text.cut_append hpassed, Text.cut_cons]
  simp [tagEnd]

end PrintedTag

/-! ## The last character -/

theorem isWhiteSpace_of_isKeyChar {c : Char} (h : Attribute.isKeyChar c = true) :
    Text.isWhiteSpace c = false := by
  have hclass : (((decide ('A'.val ≤ c.val ∧ c.val ≤ 'Z'.val) ||
      (decide ('a'.val ≤ c.val) && decide (c.val ≤ 'z'.val))) ||
      (decide ('0'.val ≤ c.val) && decide (c.val ≤ '9'.val))) || c == '_' || c == '-') = true := h
  have hval : c.val.toNat = c.toNat := rfl
  have hrange : c.toNat = 45 ∨ 48 ≤ c.toNat ∧ c.toNat ≤ 122 := by
    simp [UInt32.le_iff_toNat_le] at hclass
    rcases hclass with (hclass | rfl) | rfl
    · omega
    · decide
    · decide
  simp [Text.isWhiteSpace, Text.whiteSpaceRanges]
  omega

/-- An attribute ends with a character that is neither white space nor a slash. -/
theorem PrintedAttribute.exists_last (a : PrintedAttribute) :
    ∃ front c, a.text = front ++ [c] ∧ Text.isWhiteSpace c = false ∧ c ≠ '/' := by
  cases hassign : a.assignment with
  | none =>
    have hne := a.key_ne_nil
    have hlast := a.isKeyChar_key _ (List.getLast_mem hne)
    refine ⟨a.lead.text ++ a.key.dropLast, a.key.getLast hne, ?_,
      isWhiteSpace_of_isKeyChar hlast, ?_⟩
    · simp [text, afterKey, hassign, List.dropLast_append_getLast]
    · intro heq
      rw [heq] at hlast
      exact absurd hlast (by decide)
  | some x =>
    cases hvalue : x.value with
    | quoted q body hq hbody =>
      refine ⟨a.lead.text ++ (a.key ++ (x.before.text ++ '=' :: (x.after.text ++ q :: body))), q,
        ?_, ?_⟩
      · simp [text, afterKey, hassign, PrintedAssignment.text, hvalue, PrintedValue.text]
      · rcases eq_of_isQuote hq with rfl | rfl <;> decide
    | braced body hbody =>
      refine ⟨a.lead.text ++ (a.key ++ (x.before.text ++ '=' :: (x.after.text ++ '{' :: body))),
        '}', ?_, by decide⟩
      simp [text, afterKey, hassign, PrintedAssignment.text, hvalue, PrintedValue.text]

theorem trimEnd_blanks (t : Text) (b : Blanks) : Text.trimEnd (t ++ b.text) = Text.trimEnd t := by
  have hwhite : ∀ c ∈ b.text.reverse, Text.isWhiteSpace c = true := by
    intro c hc
    exact Text.isWhiteSpace_of_isBlank (b.isBlank_text c (List.mem_reverse.1 hc))
  rw [Text.trimEnd, List.reverse_append, List.dropWhile_append_of_pos hwhite]
  rfl

theorem trimEnd_concat {c : Char} (h : Text.isWhiteSpace c = false) (t : Text) :
    Text.trimEnd (t ++ [c]) = t ++ [c] :=
  List.rdropWhile_concat_neg _ _ _ (by simp [h])

namespace PrintedTag

/-- The text between the name and the end of a tag does not end with a slash. -/
theorem getLast?_trimEnd_inner (m : PrintedTag) : (Text.trimEnd m.inner).getLast? ≠ some '/' := by
  rw [inner, trimEnd_blanks]
  rcases List.eq_nil_or_concat m.attributes with hnil | ⟨as, a, has⟩
  · rw [hnil]
    decide
  · obtain ⟨front, c, htext, hspace, hslash⟩ := a.exists_last
    have hlast : m.attributes.flatMap PrintedAttribute.text =
        as.flatMap PrintedAttribute.text ++ front ++ [c] := by
      simp [has, htext]
    rw [hlast, trimEnd_concat hspace, List.getLast?_concat]
    intro heq
    exact hslash (Option.some.inj heq)

/-- The text up to the end of a printed tag tells the tag. -/
theorem ofInner_inner (m : PrintedTag) (start : Nat) :
    Tag.ofInner start m.name.text (m.inner ++ m.slash) = m.tag start := by
  unfold tag kind slash
  cases m.selfClosing with
  | false =>
    have hlast := m.getLast?_trimEnd_inner
    show Tag.ofInner start m.name.text (m.inner ++ []) = _
    rw [List.append_nil, Tag.ofInner, if_neg hlast]
    rfl
  | true =>
    have htrim : Text.trimEnd (m.inner ++ ['/']) = m.inner ++ ['/'] :=
      trimEnd_concat (by decide) m.inner
    have hspace : Text.trailingSpace (m.inner ++ ['/']) = [] := by
      have hslash : Text.isWhiteSpace '/' = false := by decide
      simp [Text.trailingSpace, hslash]
    show Tag.ofInner start m.name.text (m.inner ++ ['/']) = _
    rw [Tag.ofInner, htrim, hspace, if_pos List.getLast?_concat, List.dropLast_concat]
    rfl

/-! ## Finding a printed tag -/

/-- A blank comes after the name, unless the tag ends there. -/
theorem inner_cases (m : PrintedTag) :
    m.inner = [] ∨ ∃ c t, m.inner = c :: t ∧ Text.isBlank c = true := by
  unfold inner
  cases m.attributes with
  | nil =>
    cases htrailing : m.trailing.text with
    | nil => exact Or.inl rfl
    | cons c t =>
      exact Or.inr ⟨c, t, rfl, Blanks.isBlank_of_eq_cons htrailing⟩
  | cons a as =>
    obtain ⟨c, lead, hlead⟩ := List.exists_cons_of_ne_nil a.lead_ne_nil
    have hinner : (a :: as).flatMap PrintedAttribute.text ++ m.trailing.text =
        c :: (lead ++ (a.key ++ (a.afterKey ++
          (as.flatMap PrintedAttribute.text ++ m.trailing.text)))) := by
      simp [PrintedAttribute.text, hlead]
    exact Or.inr ⟨c, _, hinner, Blanks.isBlank_of_eq_cons hlead⟩

/-- Nothing that follows the name goes on with it. -/
theorem head_afterName (m : PrintedTag) (rest : Text) :
    ∀ c ∈ (m.inner ++ (m.slash ++ '>' :: rest)).head?, Name.isWordChar c = false ∧ c ≠ ':' := by
  intro c hc
  rcases m.inner_cases with hnil | ⟨d, t, hinner, hd⟩
  · rw [hnil] at hc
    unfold slash at hc
    cases hself : m.selfClosing with
    | false =>
      have heq : '>' = c := by simpa [hself] using hc
      rw [← heq]
      decide
    | true =>
      have heq : '/' = c := by simpa [hself] using hc
      rw [← heq]
      decide
  · have heq : d = c := by simpa [hinner] using hc
    rw [← heq]
    rcases Text.eq_of_isBlank hd with rfl | rfl | rfl | rfl | rfl <;> decide

/-- After a name and a blank, the tag goes on up to its end. -/
theorem readOpening?_of_isBlank {exhausted : Bool} {start : Nat} {t name u : Text} {c : Char}
    (hname : Name.read? t = some (name, c :: u)) (hc : Text.isBlank c = true) :
    Tag.readOpening? exhausted start t =
      (Tag.innerText? exhausted (c :: u)).map fun (inner, rest, exhausted') =>
        (Tag.ofInner start name inner, rest, exhausted') := by
  rw [Tag.readOpening?, hname]
  rcases Text.eq_of_isBlank hc with rfl | rfl | rfl | rfl | rfl <;> rfl

/-- A printed tag is read at its `<`. -/
theorem read?_text (m : PrintedTag) (start : Nat) (rest : Text) :
    Tag.read? false start (m.name.text ++ (m.inner ++ (m.slash ++ '>' :: rest))) =
      some (m.tag start, rest, false) := by
  have hname := m.name.read?_text (m.head_afterName rest)
  rw [Tag.read?, m.name.readClosing?_text]
  show Tag.readOpening? false start _ = _
  rcases m.inner_cases with hnil | ⟨c, t, hinner, hc⟩
  · rw [Tag.readOpening?, hname]
    unfold tag kind slash
    rw [hnil]
    cases m.selfClosing <;> rfl
  · have hend := m.tagEnd?_inner rest
    have htag := m.ofInner_inner start
    have htext : m.inner ++ (m.slash ++ '>' :: rest) = c :: (t ++ (m.slash ++ '>' :: rest)) := by
      rw [hinner, List.cons_append]
    rw [htext] at hname hend ⊢
    rw [readOpening?_of_isBlank hname hc, Tag.innerText?]
    simp [hend, htag]

end PrintedTag

theorem findTagAfter_append {before : Text} (h : '<' ∉ before) (exhausted : Bool) (passed : Text)
    (start : Nat) (t : Text) :
    findTagAfter exhausted passed start (before ++ t) =
      findTagAfter exhausted (before.reverse ++ passed) (start + Text.byteSize before) t := by
  induction before generalizing passed start with
  | nil => rfl
  | cons c before ih =>
    have hc : c ≠ '<' := fun heq => h (by rw [heq]; exact List.mem_cons_self)
    have hrest : '<' ∉ before := fun hmem => h (List.mem_cons_of_mem c hmem)
    rw [List.cons_append, findTagAfter, if_neg hc]
    show findTagAfter exhausted (c :: passed) (start + c.utf8Size) (before ++ t) = _
    rw [ih hrest, Text.byteSize_cons, Nat.add_assoc, List.reverse_cons, List.append_assoc]
    rfl

/-- The text that is searched goes on at least up to any `>`. -/
theorem exists_searchable (t u : Text) :
    ∃ rest, (Scanner.searchable (t ++ '>' :: u)).1 = t ++ '>' :: rest := by
  have hdrop : ('>' :: t.reverse).dropWhile (fun c => decide (c ≠ '>')) = '>' :: t.reverse := by
    simp
  have hreverse : (t ++ '>' :: u).reverse = u.reverse ++ '>' :: t.reverse := by simp
  -- The last `>` stands in `u`, or else it is the one before `u`.
  rw [Scanner.searchable, Text.splitLast, hreverse, List.dropWhile_append]
  split
  · refine ⟨[], ?_⟩
    rw [hdrop]
    simp
  · refine ⟨(u.reverse.dropWhile (fun c => decide (c ≠ '>'))).reverse, ?_⟩
    simp

theorem Scanner.next_zero (t : Text) (exhausted : Bool) :
    ((⟨t, exhausted⟩ : Scanner).next 0).1 = (findTag? exhausted 0 t).map Found.tag := by
  have hseek : Text.seek 0 0 t = (0, t) := by cases t <;> rfl
  simp only [next, hseek]
  cases findTag? exhausted 0 t <;> rfl

/-- The first tag that is printed in a text is the first one that is found there. -/
theorem PrintedTag.next_text (m : PrintedTag) {before : Text} (h : '<' ∉ before) (after : Text) :
    ((Scanner.ofText (before ++ (m.text ++ after))).next 0).1 =
      some (m.tag (Text.byteSize before)) := by
  have hsource : before ++ (m.text ++ after) =
      before ++ '<' :: (m.name.text ++ (m.inner ++ m.slash)) ++ '>' :: after := by
    simp [text]
  obtain ⟨rest, hrest⟩ := exists_searchable
    (before ++ '<' :: (m.name.text ++ (m.inner ++ m.slash))) after
  have hsearch : before ++ '<' :: (m.name.text ++ (m.inner ++ m.slash)) ++ '>' :: rest =
      before ++ '<' :: (m.name.text ++ (m.inner ++ (m.slash ++ '>' :: rest))) := by
    simp
  rw [hsource, Scanner.ofText, hrest, hsearch, Scanner.next_zero, findTag?, findTagAfter_append h,
    findTagAfter, if_pos rfl, m.read?_text, Nat.zero_add]
  rfl

/-- A tag that is printed after a text without `<` is read back from it, whatever comes after it. It
reaches from its `<` to its own `>` and has the kind and the name that are printed. Its attributes
are read without a fault: strings under `as` name the block variable, and all others are keyword
arguments, in the order in which they are printed. -/
theorem next_printedTag (m : PrintedTag) (before after : Text) (h : '<' ∉ before) :
    ∃ tag, ((Scanner.ofText (before ++ (m.text ++ after))).next 0).1 = some tag ∧
      tag.start = Text.byteSize before ∧
      tag.stop = Text.byteSize before + Text.byteSize m.text ∧ tag.text = m.text ∧
      tag.kind = (if m.selfClosing then .selfClosing else .opening) ∧ tag.name = m.name.text ∧
      Attributes.read tag.attributes = ⟨m.attributes.filterMap PrintedAttribute.entry?,
        PrintedAttribute.lastAlias? m.attributes, []⟩ := by
  have htext := m.text_tag (Text.byteSize before)
  refine ⟨m.tag (Text.byteSize before), m.next_text h after, rfl, ?_, htext, rfl, rfl,
    Attributes.read_printed m.attributes m.trailing⟩
  rw [Tag.stop, htext]
  rfl

theorem next_printedTag_card :
    '<' ∉ "é > ".toList ∧
      ∃ tag, ((Scanner.ofText ("é > ".toList ++
          ("<Ui::Card data-x =\n\"a > \\\" <é/>\" on as=' c ' n=\x7b \x7b>\x7d \x7d as=''/>".toList
            ++ " </Ui::Card>".toList))).next 0).1 = some tag ∧
        tag.start = 5 ∧ tag.kind = .selfClosing ∧ tag.name = "Ui::Card".toList ∧
        Attributes.read tag.attributes =
          ⟨[⟨"data_x".toList, .string "a > \\\" <é/>".toList⟩, ⟨"on".toList, .yes⟩,
            ⟨"n".toList, .expression " \x7b>\x7d ".toList⟩], some "c".toList, []⟩ := by
  obtain ⟨tag, hnext, hstart, _, _, hkind, hname, hread⟩ := next_printedTag
    { name := { first := "Ui".toList, more := ["Card".toList] }
      attributes :=
        [{ lead := { text := [' '] }, key := "data-x".toList
           assignment := some ⟨{ text := [' '] }, { text := ['\n'] },
             .quoted '"' "a > \\\" <é/>".toList⟩ },
         { lead := { text := [' '] }, key := "on".toList, assignment := none },
         { lead := { text := [' '] }, key := "as".toList
           assignment := some ⟨{ text := [] }, { text := [] }, .quoted '\'' " c ".toList⟩ },
         { lead := { text := [' '] }, key := "n".toList
           assignment := some ⟨{ text := [] }, { text := [] }, .braced " \x7b>\x7d ".toList⟩ },
         { lead := { text := [' '] }, key := "as".toList
           assignment := some ⟨{ text := [] }, { text := [] }, .quoted '\'' []⟩ }]
      trailing := { text := [] }
      selfClosing := true }
    "é > ".toList " </Ui::Card>".toList (by decide)
  exact ⟨by decide, tag, hnext, hstart, hkind, hname, hread⟩

end ErbTags
