import ErbTags.Proofs.Offsets
import ErbTags.Proofs.PrintedTags
import Mathlib.Order.Bounds.Defs

/-!
# Where tags start

A tag starts at a `<` just if what follows has the shape of a tag. The shape is said here as a
grammar, without the readers (`BeginsTag`): a closing tag is `/`, a name, blanks and `>`; any other
tag is a name, followed by `>`, by `/>`, or by a blank with some `>` behind it. A name is taken as
long as it goes (`Name.Longest`).

The scanner finds the first such place at or after a byte offset (`next_isLeast_tagStart`). It
searches only the text up to the last `>`, and what it knows about the end of tags changes from one
tag to the next. Neither has an influence on where tags start: a tag needs a `>`
(`tagStartsAt_append_iff`), and every tag that the grammar describes is read in either state
(`Tag.read?_eq_none_iff`).
-/

namespace ErbTags

/-! ## Names -/

namespace Name

/-- The text is a name of one or more segments. -/
def IsName (t : Text) : Prop := ∃ n : PrintedName, n.text = t

/-- The name goes as far as a name can go before `rest`. -/
structure Longest (name rest : Text) : Prop where
  isName : IsName name
  maximal : ∀ longer, IsName longer → longer <+: name ++ rest → longer <+: name

theorem isWordChar_of_isUpper {c : Char} (h : c.isUpper = true) : isWordChar c = true := by
  show (((c.isUpper || c.isLower) || c.isDigit) || c == '_') = true
  rw [h]
  rfl

theorem isWordChar_of_mem_segment {segment : Text} (h : isSegment segment = true) :
    ∀ c ∈ segment, isWordChar c = true := by
  obtain ⟨d, u, rfl, hd, hu⟩ := exists_of_isSegment h
  intro c hc
  rcases List.mem_cons.1 hc with rfl | hc
  · exact isWordChar_of_isUpper hd
  · exact hu c hc

/-- A name holds nothing but word characters and colons. -/
theorem IsName.isWordChar_or_colon {name : Text} (h : IsName name) :
    ∀ c ∈ name, isWordChar c = true ∨ c = ':' := by
  obtain ⟨n, rfl⟩ := h
  intro c hc
  rcases List.mem_append.1 hc with hc | hc
  · exact Or.inl (isWordChar_of_mem_segment n.isSegment_first c hc)
  · obtain ⟨segment, hsegment, hc⟩ := List.mem_flatMap.1 hc
    have hword := isWordChar_of_mem_segment (List.all_eq_true.1 n.all_isSegment segment hsegment)
    rcases List.mem_cons.1 hc with rfl | hc
    · exact Or.inr rfl
    · rcases List.mem_cons.1 hc with rfl | hc
      · exact Or.inr rfl
      · exact Or.inl (hword c hc)

/-- A name goes no further than a character that no name holds. -/
theorem IsName.longest {name rest : Text} (h : IsName name)
    (hrest : ∀ c ∈ rest.head?, isWordChar c = false ∧ c ≠ ':') : Longest name rest := by
  refine ⟨h, ?_⟩
  intro longer hlonger hfront
  rcases List.prefix_or_prefix_of_prefix hfront (List.prefix_append name rest) with hle | hge
  · exact hle
  · -- A longer name would hold the first character of the rest.
    obtain ⟨more, rfl⟩ := hge
    have hmore := (List.prefix_append_right_inj name).1 hfront
    cases more with
    | nil => exact ⟨[], by simp⟩
    | cons c more =>
      obtain ⟨later, rfl⟩ := hmore
      obtain ⟨hword, hcolon⟩ := hrest c rfl
      rcases hlonger.isWordChar_or_colon c (by simp) with hc | hc
      · rw [hword] at hc
        cases hc
      · exact absurd hc hcolon

/-- What a name goes on with is a word and further segments. -/
theorem exists_of_continuation (t : Text) :
    ∃ (u : Text) (segments : List Text),
      (continuation t).1 = u ++ segments.flatMap (':' :: ':' :: ·) ∧ u.all isWordChar = true ∧
        segments.all isSegment = true := by
  fun_induction continuation t with
  | case1 c t hc name rest heq ih =>
    obtain ⟨u, segments, hname, hu, hsegments⟩ := ih
    simp only [heq] at hname
    refine ⟨[], (c :: u) :: segments, by simp [hname], rfl, ?_⟩
    rw [List.all_cons, hsegments, isSegment, hc, hu]
    rfl
  | case2 => exact ⟨[], [], rfl, rfl, rfl⟩
  | case3 c t _ hc name rest heq ih =>
    obtain ⟨u, segments, hname, hu, hsegments⟩ := ih
    simp only [heq] at hname
    exact ⟨c :: u, segments, by simp [hname], by rw [List.all_cons, hc, hu]; rfl, hsegments⟩
  | case4 => exact ⟨[], [], rfl, rfl, rfl⟩
  | case5 => exact ⟨[], [], rfl, rfl, rfl⟩

theorem isName_of_read? {t name rest : Text} (h : read? t = some (name, rest)) : IsName name := by
  cases t with
  | nil => cases h
  | cons c t =>
    rw [read?] at h
    split at h
    · next hc =>
      obtain ⟨u, segments, hname, hu, hsegments⟩ := exists_of_continuation t
      have hfirst : isSegment (c :: u) = true := by
        rw [isSegment, hc, hu]
        rfl
      refine ⟨⟨c :: u, segments, hfirst, hsegments⟩, ?_⟩
      rw [← (Prod.mk.inj (Option.some.inj h)).1, hname]
      rfl
    · cases h

end Name

/-! ## The shape of a tag -/

/-- What follows a `<` has the shape of a tag of the given name. -/
inductive BeginsTag (name : Text) : Text → Prop
  /-- A closing tag. -/
  | closing {blanks rest : Text} (longest : Name.Longest name (blanks ++ '>' :: rest))
      (isBlank : ∀ c ∈ blanks, Text.isBlank c = true) :
      BeginsTag name ('/' :: (name ++ (blanks ++ '>' :: rest)))
  /-- A tag that is opened and ends right after its name. -/
  | bare {rest : Text} (longest : Name.Longest name ('>' :: rest)) :
      BeginsTag name (name ++ '>' :: rest)
  /-- A self-closing tag that ends right after its name. -/
  | slashed {rest : Text} (longest : Name.Longest name ('/' :: '>' :: rest)) :
      BeginsTag name (name ++ '/' :: '>' :: rest)
  /-- A tag with a blank after its name; it ends at some `>` behind the blank. -/
  | spaced {c : Char} {rest : Text} (longest : Name.Longest name (c :: rest))
      (isBlank : Text.isBlank c = true) (mem : '>' ∈ rest) : BeginsTag name (name ++ c :: rest)

/-- A tag starts at byte `start` of the text. -/
def TagStartsAt (t : Text) (start : Nat) : Prop :=
  ∃ before name after, t = before ++ '<' :: after ∧ Text.byteSize before = start ∧
    BeginsTag name after

/-- What stands between the name of a tag and its `>`. -/
def Tag.inner (tag : Tag) : Text := tag.attributes ++ tag.tail

/-- The kind of a tag goes with what stands between its name and its `>`. If that begins with a
blank, the tag is self-closing just if a slash ends it, white space aside. -/
inductive TellsKind : TagKind → Text → Prop
  | closing {blanks : Text} (isBlank : ∀ c ∈ blanks, Text.isBlank c = true) :
      TellsKind .closing blanks
  | bare : TellsKind .opening []
  | slashed : TellsKind .selfClosing ['/']
  | opening {c : Char} {inner : Text} (isBlank : Text.isBlank c = true)
      (last : (Text.trimEnd (c :: inner)).getLast? ≠ some '/') : TellsKind .opening (c :: inner)
  | selfClosing {c : Char} {inner : Text} (isBlank : Text.isBlank c = true)
      (last : (Text.trimEnd (c :: inner)).getLast? = some '/') : TellsKind .selfClosing (c :: inner)

section Shape

variable {name inner rest t u : Text} {kind : TagKind} {c : Char}

theorem endsName_of_isBlank (h : Text.isBlank c = true) : Name.isWordChar c = false ∧ c ≠ ':' := by
  rcases Text.eq_of_isBlank h with rfl | rfl | rfl | rfl | rfl <;> decide

theorem endsName_blanks {blanks : Text} (h : ∀ c ∈ blanks, Text.isBlank c = true) (rest : Text) :
    ∀ c ∈ (blanks ++ '>' :: rest).head?, Name.isWordChar c = false ∧ c ≠ ':' := by
  intro c hc
  cases blanks with
  | nil =>
    obtain rfl : '>' = c := by simpa using hc
    decide
  | cons d blanks =>
    obtain rfl : d = c := by simpa using hc
    exact endsName_of_isBlank (h d List.mem_cons_self)

/-- No name goes on with what tells the kind of a tag. -/
theorem TellsKind.endsName (h : TellsKind kind inner) (rest : Text) :
    ∀ c ∈ (inner ++ '>' :: rest).head?, Name.isWordChar c = false ∧ c ≠ ':' := by
  intro c hc
  cases h with
  | closing hblanks => exact endsName_blanks hblanks rest c hc
  | bare =>
    obtain rfl : '>' = c := by simpa using hc
    decide
  | slashed =>
    obtain rfl : '/' = c := by simpa using hc
    decide
  | @opening d _ hd _ =>
    obtain rfl : d = c := by simpa using hc
    exact endsName_of_isBlank hd
  | @selfClosing d _ hd _ =>
    obtain rfl : d = c := by simpa using hc
    exact endsName_of_isBlank hd

/-- A tag that is spelled out has the shape of a tag. -/
theorem TellsKind.beginsTag (h : TellsKind kind inner)
    (longest : Name.Longest name (inner ++ '>' :: rest))
    (ht : '<' :: t = kind.opener ++ (name ++ (inner ++ '>' :: rest))) : BeginsTag name t := by
  cases h with
  | closing hblanks =>
    obtain rfl := (List.cons.inj ht).2
    exact .closing longest hblanks
  | bare =>
    obtain rfl := (List.cons.inj ht).2
    exact .bare longest
  | slashed =>
    obtain rfl := (List.cons.inj ht).2
    exact .slashed longest
  | opening hc _ =>
    obtain rfl := (List.cons.inj ht).2
    exact .spaced longest hc (by simp)
  | selfClosing hc _ =>
    obtain rfl := (List.cons.inj ht).2
    exact .spaced longest hc (by simp)

/-- A tag that is spelled out in a text starts there. -/
theorem TellsKind.tagStartsAt {tag : Tag} {before : Text} (h : TellsKind tag.kind tag.inner)
    (longest : Name.Longest tag.name (tag.inner ++ '>' :: rest)) :
    TagStartsAt (before ++ (tag.text ++ rest)) (Text.byteSize before) := by
  obtain ⟨after, hafter⟩ : ∃ after, tag.text ++ rest = '<' :: after := by
    rw [Tag.text]
    cases tag.kind <;> exact ⟨_, rfl⟩
  have hspelled : '<' :: after = tag.kind.opener ++ (tag.name ++ (tag.inner ++ '>' :: rest)) := by
    rw [← hafter]
    simp [Tag.text, Tag.inner]
  exact ⟨before, tag.name, after, by rw [hafter], rfl, h.beginsTag longest hspelled⟩

/-- No tag is without a `>`. -/
theorem BeginsTag.mem (h : BeginsTag name t) : '>' ∈ t := by
  cases h with
  | spaced _ _ hmem => exact List.mem_append_right _ (List.mem_cons_of_mem _ hmem)
  | _ => simp

/-! ## Text without a `>` -/

/-- The last `>` of a text does not stand in an end part that has none. -/
theorem exists_of_append_eq (front : Text) (hu : '>' ∉ u) (h : t ++ u = front ++ '>' :: rest) :
    ∃ rest', t = front ++ '>' :: rest' ∧ rest = rest' ++ u := by
  rcases List.append_eq_append_iff.1 h with ⟨more, rfl, hmore⟩ | ⟨more, rfl, hmore⟩
  · exact absurd (by simp [hmore]) hu
  · cases more with
    | nil => exact absurd (by simp [← (show '>' :: rest = u from hmore)]) hu
    | cons d more =>
      obtain ⟨rfl, rfl⟩ := List.cons.inj hmore
      exact ⟨more, rfl, rfl⟩

/-- Text without a `>` at the end has no part in the shape of a tag. -/
theorem beginsTag_append_iff (hu : '>' ∉ u) : BeginsTag name (t ++ u) ↔ BeginsTag name t := by
  constructor
  · intro h
    generalize htext : t ++ u = text at h
    cases h with
    | @closing blanks rest longest hblanks =>
      obtain ⟨rest', rfl, -⟩ := exists_of_append_eq ('/' :: (name ++ blanks)) hu
        (htext.trans (by simp) : t ++ u = _ ++ '>' :: rest)
      have hname := longest.isName.longest (endsName_blanks hblanks rest')
      simpa using BeginsTag.closing hname hblanks
    | bare longest =>
      obtain ⟨rest', rfl, -⟩ := exists_of_append_eq name hu htext
      exact .bare (longest.isName.longest (TellsKind.bare.endsName rest'))
    | @slashed rest longest =>
      obtain ⟨rest', rfl, -⟩ := exists_of_append_eq (name ++ ['/']) hu
        (htext.trans (by simp) : t ++ u = _ ++ '>' :: rest)
      have hname := longest.isName.longest (TellsKind.slashed.endsName rest')
      simpa using BeginsTag.slashed hname
    | @spaced c rest longest hc hmem =>
      obtain ⟨front, back, rfl⟩ := List.append_of_mem hmem
      obtain ⟨rest', rfl, -⟩ := exists_of_append_eq (name ++ c :: front) hu
        (htext.trans (by simp) : t ++ u = _ ++ '>' :: back)
      have hname : Name.Longest name (c :: (front ++ '>' :: rest')) :=
        longest.isName.longest (by simpa using endsName_of_isBlank hc)
      simpa using BeginsTag.spaced hname hc (by simp)
  · intro h
    cases h with
    | @closing blanks rest longest hblanks =>
      have hname := longest.isName.longest (endsName_blanks hblanks (rest ++ u))
      simpa using BeginsTag.closing hname hblanks
    | @bare rest longest =>
      have hname := longest.isName.longest (TellsKind.bare.endsName (rest ++ u))
      simpa using BeginsTag.bare hname
    | @slashed rest longest =>
      have hname := longest.isName.longest (TellsKind.slashed.endsName (rest ++ u))
      simpa using BeginsTag.slashed hname
    | @spaced c rest longest hc hmem =>
      have hname : Name.Longest name (c :: (rest ++ u)) :=
        longest.isName.longest (by simpa using endsName_of_isBlank hc)
      simpa using BeginsTag.spaced hname hc (List.mem_append_left u hmem)

/-- Text without a `>` at the end neither starts a tag nor keeps one from starting. -/
theorem tagStartsAt_append_iff (hu : '>' ∉ u) {start : Nat} :
    TagStartsAt (t ++ u) start ↔ TagStartsAt t start := by
  constructor
  · rintro ⟨before, name, after, htext, hstart, hbegins⟩
    rcases List.append_eq_append_iff.1 htext with ⟨more, rfl, hmore⟩ | ⟨more, rfl, hmore⟩
    · exact absurd (by simp [hmore, hbegins.mem]) hu
    · cases more with
      | nil => exact absurd (by simp [← (show '<' :: after = u from hmore), hbegins.mem]) hu
      | cons d more =>
        obtain ⟨rfl, rfl⟩ := List.cons.inj hmore
        exact ⟨before, name, more, rfl, hstart, (beginsTag_append_iff hu).1 hbegins⟩
  · rintro ⟨before, name, after, rfl, hstart, hbegins⟩
    exact ⟨before, name, after ++ u, by simp, hstart, (beginsTag_append_iff hu).2 hbegins⟩

theorem notMem_splitLast (d : Char) (t : Text) : d ∉ (Text.splitLast d t).2 := by
  intro hmem
  have hne := List.mem_takeWhile_imp (List.mem_reverse.1 hmem)
  simp at hne

/-- Tags start in the part of a text that is searched for them, and nowhere else. -/
theorem tagStartsAt_searchable {start : Nat} :
    TagStartsAt (Scanner.searchable t).1 start ↔ TagStartsAt t start := by
  have happend : TagStartsAt ((Text.splitLast '>' t).1 ++ (Text.splitLast '>' t).2) start ↔ _ :=
    tagStartsAt_append_iff (notMem_splitLast '>' t)
  rw [Text.splitLast_append] at happend
  exact happend.symm

end Shape

/-! ## Reading a tag -/

theorem Text.exists_cutAt {d : Char} {t : Text} (h : d ∈ t) :
    ∃ before after, Text.cutAt d t = some (before, after) := by
  induction t with
  | nil => cases h
  | cons c t ih =>
    rw [Text.cutAt, Text.cut_cons]
    by_cases hc : c = d
    · exact ⟨[], t, by rw [if_pos hc]⟩
    · obtain ⟨before, after, hcut⟩ := ih ((List.mem_cons.1 h).resolve_left (Ne.symm hc))
      rw [Text.cutAt] at hcut
      refine ⟨c :: before, after, ?_⟩
      rw [if_neg hc]
      show Option.map _ (Text.cut _ () t) = _
      rw [hcut]
      rfl

namespace Tag

variable {exhausted exhausted' : Bool} {start : Nat} {name t rest : Text} {tag : Tag}

/-- Some end of a tag is found wherever there is a `>`, exhausted or not. -/
theorem exists_innerText? (exhausted : Bool) (h : '>' ∈ t) :
    ∃ result, innerText? exhausted t = some result := by
  obtain ⟨before, after, hfirst⟩ := Text.exists_cutAt h
  rw [innerText?]
  split
  · exact ⟨_, rfl⟩
  · rw [Delimiter.firstTagEnd?, hfirst]
    exact ⟨_, rfl⟩

theorem inner_ofInner (start : Nat) (name inner : Text) :
    (ofInner start name inner).inner = inner := by
  rw [ofInner]
  split
  · next h =>
    obtain ⟨body, hbody⟩ := List.getLast?_eq_some_iff.1 h
    have hinner := Text.trimEnd_append_trailingSpace inner
    rw [hbody, List.append_assoc] at hinner
    rw [Tag.inner, hbody, List.dropLast_concat]
    exact hinner
  · exact List.append_nil inner

theorem tellsKind_ofInner {c : Char} (hc : Text.isBlank c = true) (start : Nat)
    (name inner : Text) :
    TellsKind (ofInner start name (c :: inner)).kind (c :: inner) := by
  rw [ofInner]
  split
  · next h => exact .selfClosing hc h
  · next h => exact .opening hc h

theorem name_ofInner (start : Nat) (name inner : Text) :
    (ofInner start name inner).name = name := by
  rw [ofInner]
  split <;> rfl

/-- A closing tag that is read is spelled as one. -/
theorem spelled_of_readClosing? (h : readClosing? start t = some (tag, rest)) :
    Name.IsName tag.name ∧ TellsKind tag.kind tag.inner := by
  unfold readClosing? at h
  split at h
  · simp only [Option.bind_eq_bind, Option.bind_eq_some_iff, Prod.exists] at h
    obtain ⟨name, afterName, hname, h⟩ := h
    split at h
    · simp only [Option.some.injEq, Prod.mk.injEq] at h
      obtain ⟨rfl, rfl⟩ := h
      refine ⟨Name.isName_of_read? hname, .closing ?_⟩
      intro c hc
      exact List.mem_takeWhile_imp hc
    · cases h
  · cases h

/-- An opening or self-closing tag that is read is spelled as one. -/
theorem spelled_of_readOpening?
    (h : readOpening? exhausted start t = some (tag, rest, exhausted')) :
    Name.IsName tag.name ∧ TellsKind tag.kind tag.inner := by
  simp only [readOpening?, Option.bind_eq_bind, Option.bind_eq_some_iff, Prod.exists] at h
  obtain ⟨name, afterName, hname, h⟩ := h
  have hisName := Name.isName_of_read? hname
  split at h
  · simp only [Option.some.injEq, Prod.mk.injEq] at h
    obtain ⟨rfl, -, -⟩ := h
    exact ⟨hisName, .bare⟩
  · simp only [Option.some.injEq, Prod.mk.injEq] at h
    obtain ⟨rfl, -, -⟩ := h
    exact ⟨hisName, .slashed⟩
  · next c u hgt hslash =>
    split at h
    · next hc =>
      simp only [Option.map_eq_some_iff, Prod.mk.injEq, Prod.exists] at h
      obtain ⟨inner, rest', _, hinner, rfl, -, -⟩ := h
      rw [name_ofInner, inner_ofInner]
      refine ⟨hisName, ?_⟩
      have hsplit := eq_append_of_innerText? hinner
      cases inner with
      | nil =>
        obtain ⟨rfl, rfl⟩ := List.cons.inj hsplit
        exact absurd rfl hgt
      | cons d inner =>
        obtain ⟨rfl, -⟩ := List.cons.inj hsplit
        exact tellsKind_ofInner hc start name inner
    · cases h
  · cases h

/-- A tag that is read has the longest name that stands there, and its kind goes with what stands
between its name and its `>`. -/
theorem spelled_of_read? (h : read? exhausted start t = some (tag, rest, exhausted')) :
    Name.Longest tag.name (tag.inner ++ '>' :: rest) ∧ TellsKind tag.kind tag.inner := by
  have hspelled : Name.IsName tag.name ∧ TellsKind tag.kind tag.inner := by
    unfold read? at h
    split at h
    · next heq =>
      simp only [Option.some.injEq, Prod.mk.injEq] at h
      obtain ⟨rfl, -, -⟩ := h
      exact spelled_of_readClosing? heq
    · exact spelled_of_readOpening? h
  exact ⟨hspelled.1.longest (hspelled.2.endsName rest), hspelled.2⟩

/-- Where a tag is read, the text has the shape of a tag of that name. -/
theorem beginsTag_of_read? (h : read? exhausted start t = some (tag, rest, exhausted')) :
    BeginsTag tag.name t := by
  obtain ⟨longest, htells⟩ := spelled_of_read? h
  refine htells.beginsTag longest ?_
  rw [text_of_read? h]
  simp [Tag.text, Tag.inner]

/-- Where the text has the shape of a tag, a tag is read. -/
theorem exists_read?_of_beginsTag (exhausted : Bool) (start : Nat) (h : BeginsTag name t) :
    ∃ result, read? exhausted start t = some result := by
  cases h with
  | @closing blanks rest longest hblanks =>
    obtain ⟨n, rfl⟩ := longest.isName
    have hname := n.read?_text (endsName_blanks hblanks rest)
    have hdrop : (blanks ++ '>' :: rest).dropWhile Text.isBlank = '>' :: rest := by
      rw [List.dropWhile_append_of_pos hblanks]
      rfl
    have hread : ∃ result, readClosing? start ('/' :: (n.text ++ (blanks ++ '>' :: rest))) =
        some result := by
      rw [readClosing?, hname]
      simp [hdrop]
    obtain ⟨⟨tag, rest'⟩, hread⟩ := hread
    exact ⟨_, by rw [read?, hread]⟩
  | @bare rest longest =>
    obtain ⟨n, rfl⟩ := longest.isName
    have hname := n.read?_text (TellsKind.bare.endsName rest)
    rw [List.nil_append] at hname
    rw [read?, n.readClosing?_text, readOpening?, hname]
    exact ⟨_, rfl⟩
  | @slashed rest longest =>
    obtain ⟨n, rfl⟩ := longest.isName
    have hname := n.read?_text (TellsKind.slashed.endsName rest)
    rw [List.cons_append, List.nil_append] at hname
    rw [read?, n.readClosing?_text, readOpening?, hname]
    exact ⟨_, rfl⟩
  | @spaced c rest longest hc hmem =>
    obtain ⟨n, rfl⟩ := longest.isName
    have hname := n.read?_text (t := c :: rest) (by simpa using endsName_of_isBlank hc)
    obtain ⟨⟨inner, rest', exhausted'⟩, hinner⟩ :=
      exists_innerText? exhausted (List.mem_cons_of_mem c hmem)
    rw [read?, n.readClosing?_text]
    show ∃ result, readOpening? exhausted start _ = some result
    rw [PrintedTag.readOpening?_of_isBlank hname hc, hinner]
    exact ⟨_, rfl⟩

/-- Nothing is read just where the text has not the shape of a tag, exhausted or not. -/
theorem read?_eq_none_iff : read? exhausted start t = none ↔ ∀ name, ¬ BeginsTag name t := by
  constructor
  · intro hnone name hbegins
    obtain ⟨result, hread⟩ := exists_read?_of_beginsTag exhausted start hbegins
    rw [hnone] at hread
    cases hread
  · intro hno
    cases hread : read? exhausted start t with
    | none => rfl
    | some result =>
      obtain ⟨tag, rest, exhausted'⟩ := result
      exact absurd (beginsTag_of_read? hread) (hno tag.name)

end Tag

/-! ## The first tag -/

/-- A text without a tag has nowhere the shape of one. -/
theorem findTagAfter_eq_none_iff {exhausted : Bool} {passed t : Text} {start : Nat} :
    findTagAfter exhausted passed start t = none ↔
      ∀ before after, t = before ++ '<' :: after → ∀ name, ¬ BeginsTag name after := by
  induction t generalizing passed start with
  | nil => simp [findTagAfter]
  | cons c t ih =>
    rw [findTagAfter]
    constructor
    · intro h before after htext
      split at h
      · cases h
      · next hread =>
        cases before with
        | nil =>
          obtain ⟨rfl, rfl⟩ := List.cons.inj htext
          rw [if_pos rfl] at hread
          exact Tag.read?_eq_none_iff.1 hread
        | cons d before =>
          obtain ⟨rfl, rfl⟩ := List.cons.inj htext
          exact ih.1 h before after rfl
    · intro h
      have hread : (if c = '<' then Tag.read? exhausted start t else none) = none := by
        split
        · next hc => exact Tag.read?_eq_none_iff.2 (h [] t (by rw [hc]; rfl))
        · rfl
      rw [hread]
      exact ih.2 fun before after htext => h (c :: before) after (by rw [htext]; rfl)

/-- A tag that is found was read at its `<`, and nothing before it has the shape of a tag. -/
theorem read?_of_findTagAfter {exhausted : Bool} {passed t : Text} {start : Nat} {f : Found}
    (h : findTagAfter exhausted passed start t = some f) :
    ∃ gap after, f.gap = passed.reverse ++ gap ∧ t = gap ++ '<' :: after ∧
      Tag.read? exhausted (start + Text.byteSize gap) after = some (f.tag, f.rest, f.exhausted) ∧
      ∀ before later, t = before ++ '<' :: later → before.length < gap.length →
        ∀ name, ¬ BeginsTag name later := by
  induction t generalizing passed start with
  | nil => cases h
  | cons c t ih =>
    rw [findTagAfter] at h
    split at h
    · next tag rest exhausted' hread =>
      split at hread
      · next hc =>
        cases h
        refine ⟨[], t, by simp, by rw [hc]; rfl, by simpa using hread, ?_⟩
        intro before later _ hlt
        cases hlt
      · cases hread
    · next hread =>
      obtain ⟨gap, after, hgap, rfl, htag, hbefore⟩ := ih h
      refine ⟨c :: gap, after, by simpa using hgap, rfl, ?_, ?_⟩
      · rw [Text.byteSize_cons, ← Nat.add_assoc]
        exact htag
      · intro before later htext hlt
        cases before with
        | nil =>
          obtain ⟨rfl, rfl⟩ := List.cons.inj htext
          rw [if_pos rfl] at hread
          exact Tag.read?_eq_none_iff.1 hread
        | cons d before =>
          obtain ⟨rfl, hrest⟩ := List.cons.inj htext
          exact hbefore before later hrest (Nat.lt_of_succ_lt_succ hlt)

/-- Seeking an offset skips the characters before it: a later character of the text is left exactly
if it begins at the offset or behind it. -/
theorem Text.exists_seek (offset start : Nat) (t : Text) :
    ∃ skipped, t = skipped ++ (Text.seek offset start t).2 ∧
      (Text.seek offset start t).1 = start + Text.byteSize skipped ∧
      ∀ before c after, t = before ++ c :: after →
        (offset ≤ start + Text.byteSize before ↔ skipped <+: before) := by
  induction t generalizing start with
  | nil => exact ⟨[], rfl, rfl, by simp⟩
  | cons d t ih =>
    rw [Text.seek]
    by_cases hle : offset ≤ start
    · rw [if_pos hle]
      refine ⟨[], rfl, rfl, ?_⟩
      intro before c after _
      simp [Nat.le_add_right_of_le hle]
    · rw [if_neg hle]
      obtain ⟨skipped, htext, hstart, hiff⟩ := ih (start + d.utf8Size)
      refine ⟨d :: skipped, by rw [List.cons_append, ← htext], ?_, ?_⟩
      · rw [hstart, Text.byteSize_cons, Nat.add_assoc]
      · intro before c after heq
        cases before with
        | nil => simpa using hle
        | cons e before =>
          obtain ⟨rfl, hrest⟩ := List.cons.inj heq
          rw [Text.byteSize_cons, ← Nat.add_assoc, hiff before c after hrest,
            List.cons_prefix_cons, and_iff_right rfl]

section Next

variable {t : Text} {exhausted : Bool} {offset : Nat} {tag : Tag}

/-- A scanner finds no tag just if none starts at the offset or behind it. -/
theorem next_eq_none_iff :
    ((⟨t, exhausted⟩ : Scanner).next offset).1 = none ↔
      ∀ start, offset ≤ start → ¬ TagStartsAt t start := by
  obtain ⟨skipped, htext, hstart, hiff⟩ := Text.exists_seek offset 0 t
  have hnext : ((⟨t, exhausted⟩ : Scanner).next offset).1 = none ↔
      findTag? exhausted (Text.seek offset 0 t).1 (Text.seek offset 0 t).2 = none := by
    rw [Scanner.next]
    cases hfind : findTag? exhausted (Text.seek offset 0 t).1 (Text.seek offset 0 t).2 with
    | none => simp [hfind]
    | some f => simp [hfind]
  rw [hnext, findTag?, findTagAfter_eq_none_iff]
  constructor
  · rintro hno start hle ⟨before, name, after, hsplit, rfl, hbegins⟩
    obtain ⟨gap, rfl⟩ := (hiff before '<' after hsplit).1 (by simpa using hle)
    refine hno gap after ?_ name hbegins
    rw [htext, List.append_assoc] at hsplit
    exact List.append_cancel_left hsplit
  · intro hno before after hsplit name hbegins
    have hwhole : t = (skipped ++ before) ++ '<' :: after := by
      rw [List.append_assoc, ← hsplit]
      exact htext
    have hle := (hiff (skipped ++ before) '<' after hwhole).2 (List.prefix_append _ _)
    exact hno _ (by simpa using hle) ⟨skipped ++ before, name, after, hwhole, rfl, hbegins⟩

/-- The tag that a scanner finds stands in the text, is spelled as a tag, and no tag starts between
the offset and it. -/
theorem spelled_of_next (h : ((⟨t, exhausted⟩ : Scanner).next offset).1 = some tag) :
    offset ≤ tag.start ∧ (∀ start, offset ≤ start → TagStartsAt t start → tag.start ≤ start) ∧
      ∃ before rest, t = before ++ (tag.text ++ rest) ∧ tag.start = Text.byteSize before ∧
        Name.Longest tag.name (tag.inner ++ '>' :: rest) ∧ TellsKind tag.kind tag.inner := by
  obtain ⟨skipped, htext, hseek, hiff⟩ := Text.exists_seek offset 0 t
  rw [Scanner.next] at h
  cases hfind : findTag? exhausted (Text.seek offset 0 t).1 (Text.seek offset 0 t).2 with
  | none => simp [hfind] at h
  | some f =>
    obtain rfl : f.tag = tag := by simpa [hfind] using h
    obtain ⟨gap, after, hgap, hsplit, hread, hbefore⟩ := read?_of_findTagAfter hfind
    have hwhole : t = (skipped ++ gap) ++ '<' :: after := by
      rw [List.append_assoc, ← hsplit]
      exact htext
    have hstart : f.tag.start = Text.byteSize (skipped ++ gap) := by
      rw [Tag.start_of_read? hread, hseek, Text.byteSize_append, Nat.zero_add]
    have hspelled := Tag.spelled_of_read? hread
    refine ⟨?_, ?_, skipped ++ gap, f.rest, ?_, hstart, hspelled⟩
    · have hle := (hiff (skipped ++ gap) '<' after hwhole).2 (List.prefix_append _ _)
      rw [hstart]
      simpa using hle
    · rintro start hle ⟨before, name, later, heq, rfl, hbegins⟩
      obtain ⟨gap', rfl⟩ := (hiff before '<' later heq).1 (by simpa using hle)
      rw [htext, List.append_assoc] at heq
      have hrest := List.append_cancel_left heq
      have hlength : gap.length ≤ gap'.length := by
        by_contra hlt
        exact hbefore gap' later hrest (Nat.lt_of_not_le hlt) name hbegins
      -- Of two front parts of one text, the shorter one is a front part of the longer one.
      have hfront : gap <+: gap' := List.prefix_of_prefix_length_le
        ⟨'<' :: after, hsplit.symm⟩ ⟨'<' :: later, hrest.symm⟩ hlength
      obtain ⟨more, rfl⟩ := hfront
      rw [hstart]
      simp only [Text.byteSize_append]
      omega
    · rw [hwhole, Tag.text_of_read? hread]

/-- The scanner accepts exactly the grammar of tags, whatever it knows about the end of tags. It
finds a tag from a byte offset on just if some tag starts there or later. The one that it finds is
the first of these: it has the longest name that stands there, and its kind goes with what stands
between its name and its `>`. -/
theorem next_isLeast_tagStart (t : Text) (exhausted : Bool) (offset : Nat) :
    (((⟨(Scanner.searchable t).1, exhausted⟩ : Scanner).next offset).1.isSome = true ↔
      ∃ start, offset ≤ start ∧ TagStartsAt t start) ∧
    ∀ tag, ((⟨(Scanner.searchable t).1, exhausted⟩ : Scanner).next offset).1 = some tag →
      IsLeast {start | offset ≤ start ∧ TagStartsAt t start} tag.start ∧
      ∃ before rest, t = before ++ (tag.text ++ rest) ∧ tag.start = Text.byteSize before ∧
        Name.Longest tag.name (tag.inner ++ '>' :: rest) ∧ TellsKind tag.kind tag.inner := by
  constructor
  · rw [← not_iff_not, Bool.not_eq_true, Option.isSome_eq_false_iff, Option.isNone_iff_eq_none,
      next_eq_none_iff]
    simp only [tagStartsAt_searchable, not_exists, not_and]
  · intro tag htag
    obtain ⟨hle, hleast, before, rest, htext, hstart, longest, htells⟩ := spelled_of_next htag
    have hwhole : t = before ++ (tag.text ++ (rest ++ (Scanner.searchable t).2)) := by
      conv => lhs; rw [← Text.splitLast_append '>' t]
      rw [Scanner.searchable] at htext ⊢
      rw [htext]
      simp
    have hname := longest.isName.longest (htells.endsName (rest ++ (Scanner.searchable t).2))
    refine ⟨⟨⟨hle, ?_⟩, ?_⟩, before, rest ++ (Scanner.searchable t).2, hwhole, hstart, hname,
      htells⟩
    · rw [hstart, hwhole]
      exact htells.tagStartsAt hname
    · rintro start ⟨hoffset, hstarts⟩
      exact hleast start hoffset (tagStartsAt_searchable.2 hstarts)

theorem next_isLeast_tagStart_exhausted :
    ∃ tag, ((⟨(Scanner.searchable "é<Card-x> <Ui::Card a=\"b / > é".toList).1, true⟩ :
        Scanner).next 1).1 = some tag ∧ tag.name = "Ui::Card".toList ∧ tag.kind = .selfClosing ∧
      IsLeast {start | 1 ≤ start ∧
        TagStartsAt "é<Card-x> <Ui::Card a=\"b / > é".toList start} 11 := by
  have hnext : ((⟨(Scanner.searchable "é<Card-x> <Ui::Card a=\"b / > é".toList).1, true⟩ :
      Scanner).next 1).1 =
        some ⟨.selfClosing, "Ui::Card".toList, " a=\"b ".toList, "/ ".toList, 11⟩ := by decide
  exact ⟨_, hnext, rfl, rfl, ((next_isLeast_tagStart _ true 1).2 _ hnext).1⟩

end Next

end ErbTags
