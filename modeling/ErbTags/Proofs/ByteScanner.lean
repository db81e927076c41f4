import ErbTags.Proofs.LastTagEnd
import ErbTags.Proofs.Octets

/-!
# Finding tags over bytes

A scanner that goes over the bytes of a template (`ByteScanner`). It looks at one byte after the
other, keeps places as byte offsets, and cuts names and attributes out of the template at the places
where it stopped. Everything that could fail on the way is checked: parts of the bytes must be in
bounds, parts of the template must begin and end between characters, and the count of open braces
must not go below zero. A result `none` says that a check failed.

The scanner finds what `Scanner` finds, whatever byte offsets it is asked for (`nextTag?_eq`): no
check ever fails. Reading at a `<` is compared first (`closingTag?_eq`, `openingTag?_eq`), then the
loop that goes from one `<` to the next (`search?_eq`).
-/

namespace ErbTags

open Octets (slice? subtract? skipWhile stop? lastIdx? Steady quote_of_le brace_of_le)
open Text (octets byteSize isBlank ne_of_le RestAt)
open Delimiter (Region isQuote)

/-! ## The scanner -/

/-- The place where the name at `pos` ends, if there is one. -/
def nameEnd? (bs : Octets) (pos : Nat) : Option (Option Nat) := do
  if bs[pos]?.any Char.isUpper then
    let stop := skipWhile Name.isWordChar bs (pos + 1)
    let rest ← slice? bs stop bs.length
    if [':', ':'].isPrefixOf rest && bs[stop + 2]?.any Char.isUpper then nameEnd? bs (stop + 2)
    else return some stop
  else return none
termination_by bs.length - pos
decreasing_by
  have hlt : pos < bs.length := Octets.lt_length_of_any ‹_›
  have hle : pos + 1 ≤ skipWhile Name.isWordChar bs (pos + 1) := Nat.le_add_right _ _
  omega

/-- One byte of the search for the end of a tag. Of a braced value all open braces are counted, with
the first one. -/
def terminatorStep : Region → Char → Option (Option Region)
  | .plain afterEquals, b =>
    if b = '>' then some none
    else if b = '=' then some (some (.plain true))
    else if afterEquals && isQuote b then some (some (.quoted b false))
    else if afterEquals && b == '{' then some (some (.braced 1))
    else some (some (.plain (afterEquals && isBlank b)))
  | .quoted q escaped, b =>
    if escaped then some (some (.quoted q false))
    else if b = '\\' then some (some (.quoted q true))
    else if b = q then some (some (.plain false))
    else some (some (.quoted q escaped))
  | .braced depth, b =>
    if b = '{' then some (some (.braced (depth + 1)))
    else if b = '}' then
      if depth = 1 then some (some (.plain false))
      else (subtract? depth 1).map fun depth' => some (.braced depth')
    else some (some (.braced depth))

/-- A template that is searched for tags by its bytes. -/
structure ByteScanner where
  /-- The template. -/
  text : Text
  /-- The place of its last `>`. -/
  last : Option Nat
  /-- Whether some value was found open up to the last `>`: later tags end at their first `>`. -/
  exhausted : Bool
  /-- The place is that of the last `>`. -/
  last_eq : last = lastIdx? '>' (octets text)

namespace ByteScanner

/-- A scanner for a template. -/
def ofText (t : Text) : ByteScanner := ⟨t, lastIdx? '>' (octets t), false, rfl⟩

/-- The byte at a place. -/
def octet? (s : ByteScanner) (pos : Nat) : Option Char := (octets s.text)[pos]?

/-- The closing tag at the `<` at `lt`, and the place behind it. -/
def closingTag? (s : ByteScanner) (lt : Nat) : Option (Option (Tag × Nat)) := do
  if s.octet? (lt + 1) = some '/' then
    match ← nameEnd? (octets s.text) (lt + 2) with
    | none => return none
    | some nameStop =>
      let gt := skipWhile isBlank (octets s.text) nameStop
      if s.octet? gt = some '>' then
        let name ← Text.slice? s.text (lt + 2) nameStop
        let tail ← Text.slice? s.text nameStop gt
        return some (⟨.closing, name, [], tail, lt⟩, gt + 1)
      else return none
  else return none

/-- The place of the `>` that ends a tag, outside all values, for the text from `pos` on; and
whether the search is exhausted from now on. -/
def terminator? (s : ByteScanner) (pos : Nat) : Option (Option Nat × Bool) := do
  if s.exhausted then return (none, true)
  match s.last.filter (pos ≤ ·) with
  | none => return (none, false)
  | some last =>
    let searched ← slice? (octets s.text) 0 (last + 1)
    match ← stop? terminatorStep (.plain false) pos (searched.drop pos) with
    | some gt => return (some gt, false)
    | none => return (none, true)

/-- The place of the first `>` from `pos` on. -/
def firstEnd? (s : ByteScanner) (pos : Nat) : Option (Option Nat) := do
  let rest ← slice? (octets s.text) pos (octets s.text).length
  return (rest.idxOf? '>').map (pos + ·)

/-- The place of the `>` that ends a tag with attributes, for the text from `pos` on; and whether
the search is exhausted from now on. -/
def tagEnd? (s : ByteScanner) (pos : Nat) : Option (Option Nat × Bool) := do
  match ← s.terminator? pos with
  | (some gt, exhausted) => return (some gt, exhausted)
  | (none, exhausted) => return (← s.firstEnd? pos, exhausted)

/-- The opening or self-closing tag at the `<` at `lt`, and the place behind it; and whether the
search is exhausted from now on. -/
def openingTag? (s : ByteScanner) (lt : Nat) : Option (Option (Tag × Nat) × Bool) := do
  match ← nameEnd? (octets s.text) (lt + 1) with
  | none => return (none, s.exhausted)
  | some nameStop =>
    let name ← Text.slice? s.text (lt + 1) nameStop
    match s.octet? nameStop with
    | none => return (none, s.exhausted)
    | some b =>
      if b = '>' then
        return (some (⟨.opening, name, [], [], lt⟩, nameStop + 1), s.exhausted)
      else if b = '/' ∧ s.octet? (nameStop + 1) = some '>' then
        return (some (⟨.selfClosing, name, [], ['/'], lt⟩, nameStop + 2), s.exhausted)
      else if isBlank b then
        match ← s.tagEnd? nameStop with
        | (none, exhausted) => return (none, exhausted)
        | (some gt, exhausted) =>
          let inner ← Text.slice? s.text nameStop gt
          return (some (Tag.ofInner lt name inner, gt + 1), exhausted)
      else return (none, s.exhausted)

/-- The first tag that starts at `pos` or later and before `last`. -/
def search? (s : ByteScanner) (last pos : Nat) : Option (Option (Tag × Nat) × ByteScanner) := do
  if pos < last then
    let window ← slice? (octets s.text) pos last
    match window.idxOf? '<' with
    | none => return (none, s)
    | some i =>
      match ← s.closingTag? (pos + i) with
      | some found => return (some found, s)
      | none =>
        match ← s.openingTag? (pos + i) with
        | (some found, exhausted) => return (some found, { s with exhausted })
        | (none, exhausted) => search? { s with exhausted } last (pos + i + 1)
  else return (none, s)
termination_by last - pos

/-- The first tag that starts at byte `offset` or later with the place behind it, and the scanner
after the search. -/
def nextTag? (s : ByteScanner) (offset : Nat) : Option (Option (Tag × Nat) × ByteScanner) :=
  match s.last with
  | none => some (none, s)
  | some last => s.search? last offset

/-- The answers to a list of offsets, all given by one scanner. -/
def nextAll? (s : ByteScanner) : List Nat → Option (List (Option (Tag × Nat)))
  | [] => some []
  | offset :: offsets => do
    let (found, s') ← s.nextTag? offset
    return found :: (← s'.nextAll? offsets)

end ByteScanner

/-! ## Names -/

section Names

variable {text t : Text} {pos : Nat} {c : Char}

theorem seesAscii_isWordChar : Text.SeesAscii Name.isWordChar :=
  Text.seesAscii_isAlphanum.or (Text.seesAscii_beq (by decide))

/-- Where no word goes on, a name goes on with a further segment or ends. -/
theorem Name.continuation_cases (h : ∀ c ∈ t.head?, Name.isWordChar c = false) :
    (∃ c u, t = ':' :: ':' :: c :: u ∧ c.isUpper = true) ∨
      ([':', ':'].isPrefixOf t && t[2]?.any Char.isUpper) = false ∧
        Name.continuation t = ([], t) := by
  rw [Name.continuation.eq_def]
  split
  · next c u =>
    cases hc : c.isUpper with
    | true => exact Or.inl ⟨c, u, rfl, hc⟩
    | false => exact Or.inr ⟨by simp [hc], by simp⟩
  · next c u hcolons =>
    have hword : ¬ Name.isWordChar c = true := by simp [h c rfl]
    refine Or.inr ⟨?_, by rw [if_neg hword]⟩
    cases u with
    | nil => simp
    | cons d u =>
      cases u with
      | nil => simp
      | cons e u =>
        have hne : ¬ (c = ':' ∧ d = ':') := by
          rintro ⟨rfl, rfl⟩
          exact hcolons e u rfl rfl
        rw [List.isPrefixOf_cons_cons, List.isPrefixOf_cons_cons]
        by_cases hc : c = ':'
        · have hd : d ≠ ':' := fun hd => hne ⟨hc, hd⟩
          simp [hd.symm]
        · simp [Ne.symm hc]
  · exact Or.inr ⟨by simp, rfl⟩

theorem continues_octets (h : RestAt text pos t) :
    ([':', ':'].isPrefixOf (octets t) && (octets text)[pos + 2]?.any Char.isUpper) =
      ([':', ':'].isPrefixOf t && t[2]?.any Char.isUpper) := by
  have hascii : ∀ c ∈ [':', ':'], c.toNat < 128 := by simp
  rw [Text.isPrefixOf_octets hascii]
  cases hcolons : [':', ':'].isPrefixOf t with
  | false => rw [Bool.false_and, Bool.false_and]
  | true =>
    obtain ⟨u, rfl⟩ := List.isPrefixOf_iff_prefix.1 hcolons
    have hu : RestAt text (pos + 2) u := h.append
    rw [hu.octet_eq, Text.any_octets Text.seesAscii_isUpper, List.head?_eq_getElem?]
    rfl

/-- The name that is read over bytes ends where the name that is read over characters ends. -/
theorem nameEnd?_eq (h : RestAt text pos t) :
    nameEnd? (octets text) pos = some ((Name.read? t).map fun x => pos + byteSize x.1) := by
  -- A round of the loop reads a whole segment of the name: the induction is on the length.
  induction hn : t.length using Nat.strongRecOn generalizing t pos with
  | ind n ih =>
  rw [nameEnd?, h.octet_eq, Text.any_octets Text.seesAscii_isUpper]
  cases hupper : t.head?.any Char.isUpper with
  | false =>
    rw [Name.read?_of_head hupper]
    rfl
  | true =>
    obtain ⟨c, t, rfl⟩ : ∃ c t', t = c :: t' := by
      cases t with
      | nil => cases hupper
      | cons c t => exact ⟨c, t, rfl⟩
    have hc : c.isUpper = true := by simpa using hupper
    have hone : c.utf8Size = 1 := Text.utf8Size_of_lt (Text.lt_of_isUpper hc)
    have hcolon : ':'.utf8Size = 1 := Text.utf8Size_of_lt (by decide)
    have hword := h.cons_of_lt (Text.lt_of_isUpper hc)
    have hu := hword.dropWhile Name.isWordChar
    have hread : Name.read? (c :: t) =
        some (c :: (t.takeWhile Name.isWordChar ++
          (Name.continuation (t.dropWhile Name.isWordChar)).1),
          (Name.continuation (t.dropWhile Name.isWordChar)).2) := by
      have hsplit := Name.continuation_word (fun d hd => List.mem_takeWhile_imp hd)
        (t.dropWhile Name.isWordChar) (u := t.takeWhile Name.isWordChar)
      rw [List.takeWhile_append_dropWhile] at hsplit
      rw [Name.read?_cons hc, hsplit]
    simp only [if_true, hword.skipWhile_eq seesAscii_isWordChar, hu.octets_slice?_eq, hread,
      continues_octets hu, Option.bind_eq_bind, Option.bind_some, Option.map_some]
    rcases Name.continuation_cases Attribute.head_dropWhile with
      ⟨d, v, hcolons, hd⟩ | ⟨hends, hcontinuation⟩
    · rw [hcolons] at hu
      have hd' : ([':', ':'].isPrefixOf (':' :: ':' :: d :: v) &&
          (':' :: ':' :: d :: v)[2]?.any Char.isUpper) = true := by simp [hd]
      have hshorter : (d :: v).length < n := by
        have hle := (List.dropWhile_sublist Name.isWordChar (l := t)).length_le
        rw [hcolons] at hle
        simp only [List.length_cons] at hn hle ⊢
        omega
      have hlater := ih _ hshorter (hu.append (s := [':', ':'])) rfl
      rw [Name.read?_cons hd] at hlater
      rw [hcolons, if_pos hd', Name.continuation_colons hd]
      refine hlater.trans ?_
      simp only [Option.map_some, Text.byteSize_append, Text.byteSize_cons, Text.byteSize_nil, hone,
        hcolon]
      congr 2
      omega
    · rw [hends, hcontinuation]
      simp only [Bool.false_eq_true, if_false, Text.byteSize_append, Text.byteSize_cons,
        Text.byteSize_nil, hone]
      exact congrArg (some ∘ some) (Nat.add_assoc _ _ _)

end Names

/-! ## The end of a tag -/

/-- The region with the number of all open braces in place of that of the inner ones. -/
def deepened : Region → Region
  | .plain afterEquals => .plain afterEquals
  | .quoted q escaped => .quoted q escaped
  | .braced inner => .braced (inner + 1)

/-- Counting from one, no count goes below zero. -/
theorem terminatorStep_deepened (r : Region) (b : Char) :
    terminatorStep (deepened r) b = some ((Delimiter.tagEnd r b).map deepened) := by
  cases r with
  | plain afterEquals =>
    rw [deepened, terminatorStep, Delimiter.tagEnd]
    split
    · rfl
    · split
      · rfl
      · split
        · rfl
        · split <;> rfl
  | quoted q escaped =>
    rw [deepened, terminatorStep, Delimiter.tagEnd, Delimiter.quote]
    cases escaped with
    | true => rfl
    | false =>
      simp only [Bool.false_eq_true, if_false]
      by_cases hslash : b = '\\'
      · simp only [if_pos hslash]
        rfl
      · by_cases hq : b = q
        · simp only [if_neg hslash, if_pos hq]
          rfl
        · simp only [if_neg hslash, if_neg hq]
          rfl
  | braced inner =>
    rw [deepened, terminatorStep, Delimiter.tagEnd]
    by_cases hopen : b = '{'
    · simp only [Delimiter.brace, if_pos hopen]
      rfl
    · by_cases hclose : b = '}'
      · -- The opening brace is counted, so there is one to take off.
        rw [if_neg hopen, if_pos hclose, hclose]
        cases inner <;> rfl
      · rw [if_neg hopen, if_neg hclose, Delimiter.brace_of_ne inner hopen hclose]
        rfl

theorem tagEnd_plain_of_le {c : Char} (hc : 128 ≤ c.toNat) (afterEquals : Bool) :
    Delimiter.tagEnd (.plain afterEquals) c = some (.plain false) := by
  have hquote : isQuote c = false := by
    simp [isQuote, ne_of_le hc (d := '"') (by decide), ne_of_le hc (d := '\'') (by decide)]
  have hblank : isBlank c = false := by
    simp [isBlank, ne_of_le hc (d := ' ') (by decide), ne_of_le hc (d := '\t') (by decide),
      ne_of_le hc (d := '\n') (by decide), ne_of_le hc (d := '\x0c') (by decide),
      ne_of_le hc (d := '\r') (by decide)]
  simp [Delimiter.tagEnd, ne_of_le hc (d := '>') (by decide), ne_of_le hc (d := '=') (by decide),
    ne_of_le hc (d := '{') (by decide), hquote, hblank]

/-- No character outside ASCII ends a value or a tag. -/
theorem steady_tagEnd : Steady Delimiter.tagEnd Region.IsQuoted where
  keeps _ _ _ hr h := Delimiter.isQuoted_of_tagEnd hr h
  steady r hr := by
    cases r with
    | plain afterEquals =>
      refine ⟨.plain false, ?_⟩
      intro c hc
      exact ⟨tagEnd_plain_of_le hc afterEquals, tagEnd_plain_of_le hc false⟩
    | quoted q escaped =>
      refine ⟨.quoted q false, ?_⟩
      intro c hc
      rw [Delimiter.tagEnd, quote_of_le hr hc, Delimiter.tagEnd, quote_of_le hr hc]
      exact ⟨rfl, rfl⟩
    | braced inner =>
      refine ⟨.braced inner, ?_⟩
      intro c hc
      rw [Delimiter.tagEnd, brace_of_le hc]
      exact ⟨rfl, rfl⟩

/-! ## Tags -/

theorem Tag.stop_eq (tag : Tag) :
    tag.stop = tag.start + byteSize tag.kind.opener + byteSize tag.name +
      byteSize tag.attributes + byteSize tag.tail + 1 := by
  have hgt : '>'.utf8Size = 1 := Text.utf8Size_of_lt (by decide)
  simp only [Tag.stop, Tag.text, Text.byteSize_append, Text.byteSize_cons, Text.byteSize_nil, hgt]
  omega

namespace ByteScanner

variable {s : ByteScanner} {t rest : Text} {lt pos : Nat}

theorem octet?_eq_some_iff {d : Char} (h : RestAt s.text pos t) (hd : d.toNat < 128) :
    s.octet? pos = some d ↔ t.head? = some d := by
  rw [octet?, h.octet_eq, Text.octets_eq_some_iff hd]

/-- The last `>` of the template, seen from a place before it. -/
theorem last_eq_some {body tail : Text} (h : RestAt s.text pos (body ++ '>' :: tail))
    (htail : '>' ∉ tail) : s.last = some (pos + byteSize body) := by
  obtain ⟨before, htext, rfl⟩ := h
  have hoctets : octets s.text = octets (before ++ body) ++ '>' :: octets tail := by
    rw [htext, ← List.append_assoc, Text.octets_append, Text.octets_cons,
      Text.octetsOf_of_lt (by decide), List.singleton_append]
  have hnot : '>' ∉ octets tail := by rwa [Text.mem_octets_iff (by decide)]
  rw [s.last_eq, hoctets, Octets.lastIdx?_append_cons hnot, Text.length_octets,
    Text.byteSize_append]

theorem last_lt (h : RestAt s.text pos rest) (hrest : '>' ∉ rest) :
    ∀ last, s.last = some last → last < pos := by
  obtain ⟨before, htext, rfl⟩ := h
  intro last hlast
  have hnot : '>' ∉ octets rest := by rwa [Text.mem_octets_iff (by decide)]
  rw [s.last_eq, htext, Text.octets_append, Octets.lastIdx?_append hnot] at hlast
  rw [← Text.length_octets]
  exact Octets.lt_length_of_lastIdx? hlast

theorem terminator?_eq_of_mem (h : RestAt s.text pos rest) (hrest : '>' ∈ rest)
    (hs : s.exhausted = false) :
    s.terminator? pos = some ((Delimiter.tagEnd? rest).map fun x => pos + byteSize x.1,
      (Delimiter.tagEnd? rest).isNone) := by
  obtain ⟨body, tail, rfl, htail⟩ := Scanner.exists_last_of_mem hrest
  have hlast := last_eq_some h htail
  have hsplit : body ++ '>' :: tail = (body ++ ['>']) ++ tail := by simp
  rw [hsplit] at h ⊢
  have hsize : pos + byteSize body + 1 = pos + byteSize (body ++ ['>']) := by
    rw [Text.byteSize_append]
    rfl
  have hslice : slice? (octets s.text) 0 (pos + byteSize body + 1) =
      some ((octets s.text).take (pos + byteSize body + 1)) := by
    refine if_pos ⟨Nat.zero_le _, ?_⟩
    have htext := h.byteSize_eq
    rw [Text.byteSize_append] at htext
    rw [Text.length_octets, hsize]
    omega
  have hstop : stop? terminatorStep (.plain false) pos (octets (body ++ ['>'])) =
      some ((Text.cut Delimiter.tagEnd (.plain false) (body ++ ['>'])).map fun x =>
        pos + byteSize x.1) :=
    Octets.stop?_octets (s := .plain false) terminatorStep_deepened steady_tagEnd trivial pos _
  -- The bytes are searched up to the last `>` only. Nothing behind it can end a tag.
  have hcut : Delimiter.tagEnd? ((body ++ ['>']) ++ tail) =
      (Text.cut Delimiter.tagEnd (.plain false) (body ++ ['>'])).map fun x => (x.1, x.2 ++ tail) :=
    Text.cut_append_of_notMem (fun _ _ => Delimiter.eq_of_tagEnd_eq_none) htail _ _
  have hfilter : s.last.filter (pos ≤ ·) = some (pos + byteSize body) := by
    rw [hlast]
    simp
  unfold terminator?
  rw [hs, hfilter, hcut]
  simp only [Bool.false_eq_true, if_false, hslice, Option.bind_eq_bind, Option.bind_some]
  rw [hsize, h.drop_take_eq, hstop]
  cases Text.cut Delimiter.tagEnd (.plain false) (body ++ ['>']) <;> rfl

theorem terminator?_eq_of_notMem (h : RestAt s.text pos rest) (hrest : '>' ∉ rest) :
    s.terminator? pos = some (none, s.exhausted) := by
  have hfilter : s.last.filter (pos ≤ ·) = none := by
    cases hlast : s.last with
    | none => rfl
    | some last =>
      have hlt := last_lt h hrest last hlast
      simp [hlt]
  unfold terminator?
  cases s.exhausted with
  | true => rfl
  | false =>
    rw [hfilter]
    rfl

theorem firstEnd?_eq (h : RestAt s.text pos rest) :
    s.firstEnd? pos = some ((Delimiter.firstTagEnd? rest).map fun x => pos + byteSize x.1) := by
  rw [firstEnd?, h.octets_slice?_eq, Option.bind_eq_bind, Option.bind_some,
    Octets.idxOf?_octets (by decide), Option.map_map]
  rfl

/-- The `>` that ends a tag with attributes is found at the same place over bytes, and the search is
exhausted from the same tag on. -/
theorem tagEnd?_eq (h : RestAt s.text pos rest) :
    s.tagEnd? pos = some ((Tag.innerText? s.exhausted rest).map fun x => pos + byteSize x.1,
      ((Tag.innerText? s.exhausted rest).map fun x => x.2.2).getD s.exhausted) := by
  have hfirst := firstEnd?_eq h
  cases hs : s.exhausted with
  | true =>
    have hterminator : s.terminator? pos = some (none, true) := by
      rw [terminator?, hs]
      rfl
    simp only [tagEnd?, hterminator, hfirst, Option.bind_eq_bind, Option.bind_some, Tag.innerText?,
      if_true]
    cases Delimiter.firstTagEnd? rest <;> rfl
  | false =>
    by_cases hrest : '>' ∈ rest
    · have hterminator := terminator?_eq_of_mem h hrest hs
      obtain ⟨before, after, hcut⟩ := Text.exists_cutAt hrest
      have hend : Delimiter.firstTagEnd? rest = some (before, after) := hcut
      rw [hend] at hfirst
      cases htag : Delimiter.tagEnd? rest with
      | some x =>
        rw [htag] at hterminator
        simp only [tagEnd?, hterminator, Tag.innerText?, htag]
        rfl
      | none =>
        rw [htag] at hterminator
        simp only [tagEnd?, hterminator, hfirst, Tag.innerText?, htag, hend]
        rfl
    · have hterminator := terminator?_eq_of_notMem h hrest
      have hnone : ∀ {next : Option (Text × Text)},
          (∀ x, next = some x → rest = x.1 ++ '>' :: x.2) → next = none := by
        intro next hnext
        cases next with
        | none => rfl
        | some x => exact absurd (by rw [hnext x rfl]; simp) hrest
      have htag : Delimiter.tagEnd? rest = none := hnone fun _ => Delimiter.eq_append_of_tagEnd?
      have hend : Delimiter.firstTagEnd? rest = none :=
        hnone fun _ => Delimiter.eq_append_of_firstTagEnd?
      rw [hs] at hterminator
      rw [hend] at hfirst
      simp only [tagEnd?, hterminator, hfirst, Tag.innerText?, htag, hend]
      rfl

theorem closingTag?_eq (h : RestAt s.text lt ('<' :: t)) :
    s.closingTag? lt = some ((Tag.readClosing? lt t).map fun x => (x.1, x.1.stop)) := by
  have ht : RestAt s.text (lt + 1) t := h.cons_of_lt (by decide)
  unfold closingTag?
  by_cases hslash : t.head? = some '/'
  · obtain ⟨t, rfl⟩ : ∃ t', t = '/' :: t' := List.head?_eq_some_iff.1 hslash
    have hname : RestAt s.text (lt + 2) t := ht.cons_of_lt (by decide)
    rw [if_pos ((octet?_eq_some_iff ht (by decide)).2 hslash), nameEnd?_eq hname, Tag.readClosing?]
    cases hread : Name.read? t with
    | none => rfl
    | some x =>
      obtain ⟨name, rest⟩ := x
      rw [Name.eq_append_of_read? hread] at hname
      have hrest := hname.append
      have hgt := hrest.dropWhile isBlank
      have htail : Text.slice? s.text (lt + 2 + byteSize name)
          (lt + 2 + byteSize name + byteSize (rest.takeWhile isBlank)) =
            some (rest.takeWhile isBlank) := by
        rw [← List.takeWhile_append_dropWhile (p := isBlank) (l := rest)] at hrest
        exact hrest.slice?_eq
      simp only [Option.map_some, Option.bind_eq_bind, Option.bind_some,
        hrest.skipWhile_eq Text.seesAscii_isBlank, hname.slice?_eq, htail]
      by_cases hend : (rest.dropWhile isBlank).head? = some '>'
      · obtain ⟨rest', hrest'⟩ := List.head?_eq_some_iff.1 hend
        have hstop : Tag.stop ⟨.closing, name, [], rest.takeWhile isBlank, lt⟩ =
            lt + 2 + byteSize name + byteSize (rest.takeWhile isBlank) + 1 := by
          exact Tag.stop_eq _
        rw [if_pos ((octet?_eq_some_iff hgt (by decide)).2 hend), hrest', ← hstop]
        rfl
      · rw [if_neg (mt (octet?_eq_some_iff hgt (by decide)).1 hend)]
        split
        · next heq => exact absurd (by rw [heq]; rfl) hend
        · rfl
  · rw [if_neg (mt (octet?_eq_some_iff ht (by decide)).1 hslash),
      Tag.readClosing?_eq_none (fun t' heq => hslash (by rw [heq]; rfl))]
    rfl

/-- What a scanner gives for the outcome of reading a tag. -/
def found (exhausted : Bool) (result : Option (Tag × Text × Bool)) : Option (Tag × Nat) × Bool :=
  (result.map fun x => (x.1, x.1.stop), (result.map fun x => x.2.2).getD exhausted)

theorem stop_ofInner (lt : Nat) (name inner : Text) :
    (Tag.ofInner lt name inner).stop = lt + 1 + byteSize name + byteSize inner + 1 := by
  have hgt : '>'.utf8Size = 1 := Text.utf8Size_of_lt (by decide)
  have hlt : '<'.utf8Size = 1 := Text.utf8Size_of_lt (by decide)
  rw [Tag.stop, Tag.text_ofInner, Tag.start_ofInner]
  simp only [Text.byteSize_cons, Text.byteSize_append, Text.byteSize_nil, hlt, hgt]
  omega

theorem openingTag?_eq (h : RestAt s.text lt ('<' :: t)) :
    s.openingTag? lt = some (found s.exhausted (Tag.readOpening? s.exhausted lt t)) := by
  have ht : RestAt s.text (lt + 1) t := h.cons_of_lt (by decide)
  unfold openingTag?
  rw [nameEnd?_eq ht]
  cases hread : Name.read? t with
  | none =>
    rw [Tag.readOpening?, hread]
    rfl
  | some x =>
    obtain ⟨name, rest⟩ := x
    rw [Name.eq_append_of_read? hread] at ht
    have hrest := ht.append
    simp only [Option.map_some, Option.bind_eq_bind, Option.bind_some, ht.slice?_eq]
    cases rest with
    | nil =>
      have hoctet : s.octet? (lt + 1 + byteSize name) = none := by
        rw [octet?, hrest.octet_eq]
        rfl
      rw [hoctet, Tag.readOpening?, hread]
      rfl
    | cons c rest =>
      obtain ⟨b, hb, hoctet⟩ := hrest.exists_octet
      rw [← octet?] at hoctet
      have heq : ∀ d : Char, d.toNat < 128 → (b = d ↔ c = d) := fun d hd =>
        Text.eq_iff_of_mem_octetsOf hd hb
      have hblank : isBlank b = isBlank c := Text.seesAscii_isBlank.eq_of_mem hb
      have hsecond : c = '/' → (s.octet? (lt + 1 + byteSize name + 1) = some '>' ↔
          rest.head? = some '>') := by
        rintro rfl
        exact octet?_eq_some_iff (hrest.cons_of_lt (by decide)) (by decide)
      simp only [hoctet, heq '>' (by decide), heq '/' (by decide), hblank]
      split_ifs with hgt hslash hc
      · subst hgt
        have hstop : Tag.stop ⟨.opening, name, [], [], lt⟩ = lt + 1 + byteSize name + 1 :=
          Tag.stop_eq _
        rw [Tag.readOpening?, hread, ← hstop]
        rfl
      · obtain ⟨rfl, hoctet'⟩ := hslash
        obtain ⟨rest', rfl⟩ := List.head?_eq_some_iff.1 ((hsecond rfl).1 hoctet')
        have hstop : Tag.stop ⟨.selfClosing, name, [], ['/'], lt⟩ = lt + 1 + byteSize name + 2 :=
          Tag.stop_eq _
        rw [Tag.readOpening?, hread, ← hstop]
        rfl
      · rw [tagEnd?_eq hrest, PrintedTag.readOpening?_of_isBlank hread hc]
        cases hinner : Tag.innerText? s.exhausted (c :: rest) with
        | none => rfl
        | some x =>
          obtain ⟨inner, after, exhausted⟩ := x
          rw [Tag.eq_append_of_innerText? hinner] at hrest
          have hslice := hrest.slice?_eq
          have hstop := stop_ofInner lt name inner
          simp only [Option.map_some, Option.bind_some, hslice, found, hstop]
          rfl
      · have hslash' : ¬ (c = '/' ∧ rest.head? = some '>') := fun hboth =>
          hslash ⟨hboth.1, (hsecond hboth.1).2 hboth.2⟩
        rw [Tag.readOpening?_eq_none hread hgt hslash' hc]
        rfl

end ByteScanner

/-! ## The search -/

namespace ByteScanner

variable {s : ByteScanner} {t u : Text} {last pos start : Nat} {b c : Char}

theorem search?_of_le (h : last ≤ pos) : s.search? last pos = some (none, s) := by
  rw [search?, if_neg (Nat.not_lt.2 h)]
  rfl

theorem slice?_window (hpos : pos < last) (hlast : last ≤ (octets s.text).length)
    (hb : (octets s.text)[pos]? = some b) :
    slice? (octets s.text) pos last = some (b :: ((octets s.text).take last).drop (pos + 1)) := by
  have hwindow : ((octets s.text).take last).drop pos =
      b :: ((octets s.text).take last).drop (pos + 1) := by
    rw [List.drop_eq_getElem?_toList_append, List.getElem?_take_of_lt hpos, hb]
    rfl
  rw [slice?, if_pos ⟨Nat.le_of_lt hpos, hlast⟩, hwindow]

theorem search?_succ (hlast : last ≤ (octets s.text).length)
    (hb : (octets s.text)[pos]? = some b) (hne : b ≠ '<') :
    s.search? last pos = s.search? last (pos + 1) := by
  by_cases hpos : pos < last
  · have hbeq : ¬ (b == '<') = true := by simpa using hne
    rw [search?, if_pos hpos, slice?_window hpos hlast hb]
    simp only [Option.bind_eq_bind, Option.bind_some, List.idxOf?_cons, if_neg hbeq]
    by_cases hnext : pos + 1 < last
    · conv_rhs => rw [search?, if_pos hnext, slice?, if_pos ⟨Nat.le_of_lt hnext, hlast⟩]
      simp only [Option.bind_eq_bind, Option.bind_some]
      cases (((octets s.text).take last).drop (pos + 1)).idxOf? '<' with
      | none => rfl
      | some i =>
        have hplace : pos + (i + 1) = pos + 1 + i := by omega
        simp only [Option.map_some, hplace]
    · have hempty : ((octets s.text).take last).drop (pos + 1) = [] := by
        rw [List.drop_eq_nil_iff, List.length_take]
        omega
      rw [hempty, search?_of_le (Nat.le_of_not_lt hnext)]
      rfl
  · rw [search?_of_le (Nat.le_of_not_lt hpos), search?_of_le (by omega)]

/-- At a `<` before the last `>`, the search ends with the tag that is read there, or goes on behind
the `<`. -/
theorem search?_lt (hlast : last ≤ (octets s.text).length) (hpos : pos < last)
    (h : RestAt s.text pos ('<' :: t)) :
    s.search? last pos = (Tag.read? s.exhausted pos t).elim (s.search? last (pos + 1)) fun x =>
      some (some (x.1, x.1.stop), { s with exhausted := x.2.2 }) := by
  have hlt : (octets s.text)[pos]? = some '<' := (octet?_eq_some_iff h (by decide)).2 rfl
  rw [search?, if_pos hpos, slice?_window hpos hlast hlt]
  simp only [Option.bind_eq_bind, Option.bind_some, List.idxOf?_cons, beq_self_eq_true, if_true,
    Nat.add_zero, closingTag?_eq h, openingTag?_eq h, Tag.read?]
  cases Tag.readClosing? pos t with
  | some x => rfl
  | none => cases Tag.readOpening? s.exhausted pos t <;> rfl

/-- From inside a character that is no `<`, the search goes on behind it. -/
theorem search?_char (hlast : last ≤ (octets s.text).length) (h : RestAt s.text start (c :: t))
    (hc : c ≠ '<') {n : Nat} (hn : n ≤ c.utf8Size) :
    s.search? last (start + c.utf8Size - n) = s.search? last (start + c.utf8Size) := by
  refine h.skip_char (f := s.search? last) (q := (· ≠ '<')) ?_ ?_ hn
  · intro pos b hb hne
    exact search?_succ hlast hb hne
  · intro b hb heq
    exact hc ((Text.eq_iff_of_mem_octetsOf (by decide) hb).1 heq)

/-- What a scanner gives for the tag that is found. -/
def answer (s : ByteScanner) (found : Option Found) : Option (Tag × Nat) × ByteScanner :=
  (found.map fun f => (f.tag, f.tag.stop),
    { s with exhausted := (found.map Found.exhausted).getD s.exhausted })

/-- Over bytes, the search finds the tag that is found over characters. -/
theorem search?_eq {tail : Text} (htail : '>' ∉ tail)
    (h : RestAt s.text pos (u ++ '>' :: tail)) (passed : Text) :
    s.search? (pos + byteSize u) pos =
      some (s.answer (findTagAfter s.exhausted passed pos (u ++ ['>']))) := by
  induction u generalizing pos passed with
  | nil =>
    rw [search?_of_le (by simp)]
    rfl
  | cons c u ih =>
    have hlast : pos + byteSize (c :: u) ≤ (octets s.text).length := by
      rw [Text.length_octets, h.byteSize_eq, Text.byteSize_append]
      omega
    have hsize : pos + byteSize (c :: u) = pos + c.utf8Size + byteSize u := by
      rw [Text.byteSize_cons]
      omega
    have hlater := ih h.cons (c :: passed)
    rw [← hsize] at hlater
    by_cases hc : c = '<'
    · subst hc
      have hone : '<'.utf8Size = 1 := Text.utf8Size_of_lt (by decide)
      have hpos : pos < pos + byteSize ('<' :: u) := by
        rw [Text.byteSize_cons, hone]
        omega
      have hmem : '>' ∈ u ++ ['>'] := by simp
      have hsplit : '<' :: u ++ '>' :: tail = '<' :: ((u ++ ['>']) ++ tail) := by simp
      rw [hsplit] at h
      rw [hone] at hlater
      rw [search?_lt hlast hpos h, Tag.read?_append_of_mem hmem htail, hlater, List.cons_append,
        findTagAfter, if_pos rfl, hone]
      cases Tag.read? s.exhausted pos (u ++ ['>']) <;> rfl
    · have hskip := search?_char hlast h hc (Nat.le_refl _)
      rw [Nat.add_sub_cancel] at hskip
      rw [hskip, hlater, List.cons_append, findTagAfter, if_neg hc]

/-- From an offset, the search goes on at the first character that begins there or behind it. -/
theorem search?_seek {tail : Text} (htail : '>' ∉ tail)
    (h : RestAt s.text start (u ++ '>' :: tail)) (offset : Nat) :
    s.search? (start + byteSize u) (max offset start) =
      some (s.answer (findTag? s.exhausted (Text.seek offset start (u ++ ['>'])).1
        (Text.seek offset start (u ++ ['>'])).2)) := by
  induction u generalizing start with
  | nil =>
    rw [Text.byteSize_nil, Nat.add_zero, search?_of_le (Nat.le_max_right offset start),
      List.nil_append, Text.seek]
    split <;> rfl
  | cons c u ih =>
    rw [List.cons_append, Text.seek]
    by_cases hle : offset ≤ start
    · rw [if_pos hle, Nat.max_eq_right hle]
      exact search?_eq htail h []
    · have hsize : start + byteSize (c :: u) = start + c.utf8Size + byteSize u := by
        rw [Text.byteSize_cons]
        omega
      have hlast : start + c.utf8Size + byteSize u ≤ (octets s.text).length := by
        rw [Text.length_octets, h.byteSize_eq, Text.byteSize_append, hsize.symm]
        omega
      rw [if_neg hle, hsize, ← ih h.cons, Nat.max_eq_left (by omega)]
      by_cases hinside : offset < start + c.utf8Size
      · -- An offset inside a character: the character has more than one byte, so it is no `<`.
        have hc : c ≠ '<' := by
          rintro rfl
          rw [Text.utf8Size_of_lt (by decide)] at hinside
          omega
        have hskip := search?_char hlast h hc (n := start + c.utf8Size - offset) (by omega)
        rw [Nat.sub_sub_self (Nat.le_of_lt hinside)] at hskip
        rw [hskip, Nat.max_eq_right (Nat.le_of_lt hinside)]
      · rw [Nat.max_eq_left (Nat.le_of_not_lt hinside)]

/-- The scanner over characters that a scanner over bytes stands for. -/
def toScanner (s : ByteScanner) : Scanner := ⟨(Scanner.searchable s.text).1, s.exhausted⟩

/-- A scanner over bytes finds what the scanner over characters finds, from any byte offset on. -/
theorem nextTag?_eq (s : ByteScanner) (offset : Nat) :
    s.nextTag? offset = some ((s.toScanner.next offset).1.map fun tag => (tag, tag.stop),
      { s with exhausted := (s.toScanner.next offset).2.exhausted }) := by
  by_cases h : '>' ∈ s.text
  · obtain ⟨body, tail, htext, htail⟩ := Scanner.exists_last_of_mem h
    have hrest : RestAt s.text 0 (body ++ '>' :: tail) := htext ▸ RestAt.zero s.text
    have hlast := last_eq_some hrest htail
    have hsearch := search?_seek htail hrest offset
    rw [Nat.max_eq_left (Nat.zero_le offset)] at hsearch
    have hnext : s.nextTag? offset = s.search? (0 + byteSize body) offset := by
      simp only [nextTag?, hlast]
    have hscanner : s.toScanner = ⟨body ++ ['>'], s.exhausted⟩ := by
      rw [toScanner, htext, Scanner.searchable_append htail]
    rw [hnext, hsearch, hscanner, Scanner.next_eq, answer, Option.map_map]
    rfl
  · have hlast : s.last = none := by
      rw [s.last_eq]
      exact Octets.lastIdx?_eq_none (by rwa [Text.mem_octets_iff (by decide)])
    have hnext : s.nextTag? offset = some (none, s) := by
      simp only [nextTag?, hlast]
    have hscanner : s.toScanner = ⟨[], s.exhausted⟩ := by
      rw [toScanner, Scanner.searchable_of_notMem h]
    rw [hnext, hscanner]
    rfl

/-- From a place between characters on, the scanner over bytes finds the tag that is found in the
text from there on. -/
theorem nextTag?_of_restAt {cursor : Nat}
    (h : RestAt (Scanner.searchable s.text).1 cursor t) :
    s.nextTag? cursor = some ((findTag? s.exhausted cursor t).map fun f => (f.tag, f.tag.stop),
      { s with
        exhausted := ((findTag? s.exhausted cursor t).map Found.exhausted).getD s.exhausted }) := by
  have hnext : s.toScanner.next cursor = ((findTag? s.exhausted cursor t).map Found.tag,
      ⟨(Scanner.searchable s.text).1,
        ((findTag? s.exhausted cursor t).map Found.exhausted).getD s.exhausted⟩) := by
    rw [Scanner.next_eq, toScanner, h.seek_eq]
  rw [nextTag?_eq, hnext, Option.map_map]
  rfl

theorem restAt_of_searchable {source : Text} {cursor : Nat}
    (h : RestAt (Scanner.searchable source).1 cursor (t ++ u)) :
    RestAt source cursor (t ++ (u ++ (Scanner.searchable source).2)) := by
  have hrest := h.append_right (Scanner.searchable source).2
  rwa [Scanner.searchable, Text.splitLast_append, List.append_assoc] at hrest

theorem nextAll?_eq (s : ByteScanner) (offsets : List Nat) :
    s.nextAll? offsets =
      some ((s.toScanner.nextAll offsets).map (Option.map fun tag => (tag, tag.stop))) := by
  induction offsets generalizing s with
  | nil => rfl
  | cons offset offsets ih =>
    have hscanner : toScanner { s with exhausted := (s.toScanner.next offset).2.exhausted } =
        (s.toScanner.next offset).2 := by
      rw [Scanner.next_eq]
      rfl
    simp only [nextAll?, nextTag?_eq, Option.bind_eq_bind, Option.bind_some, ih, hscanner,
      Scanner.nextAll]
    rfl

end ByteScanner

end ErbTags
