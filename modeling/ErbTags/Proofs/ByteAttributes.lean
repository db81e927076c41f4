import ErbTags.Proofs.Octets
import ErbTags.Proofs.PrintedAttributes
import ErbTags.Text.Position

/-!
# Attributes and positions over bytes

The attributes of a tag, read by a loop over the bytes of their text (`attributes?`), and the line
and column of a byte offset, counted over the bytes before it (`position?`). As in a scanner over
bytes, every part that is cut out, every count of open braces and every difference of offsets is
checked. So is that each round of the loop gets on. A result `none` says that a check failed.

The loop may stand inside a character: it passes over a character that belongs to no key byte by
byte. One round at a key (`attributeRound?_readPiece`), or a number of rounds over the bytes of one
character, does what reading one piece does (`attributesFrom?_readPiece`), so the loop reads what
`Attributes.read` reads (`attributes?_eq`). The position is that of `Text.position` for any offset
(`position?_eq`).
-/

namespace ErbTags

open Attribute
open Octets (slice? subtract? skipWhile stop? lastIdx? steady_quote steady_brace)
open Text (octets byteSize isBlank SeesAscii RestAt)
open Delimiter (isQuote)

/-! ## The reader -/

/-- Takes up a keyword argument. A string under the alias key names the block variable instead,
unless it is blank. -/
def Attributes.register (a : Attributes) (key : Text) (value : AttributeValue) : Attributes :=
  match value with
  | .string text =>
    if key = aliasKey then
      if Text.trim text = [] then a else { a with blockVariable := some (Text.trim text) }
    else { a with entries := a.entries ++ [⟨key, value⟩] }
  | .expression _ | .yes => { a with entries := a.entries ++ [⟨key, value⟩] }

/-- Takes up a value that could not be read. -/
def Attributes.degrade (a : Attributes) (fault : AttributeFault) : Attributes :=
  { a with faults := a.faults ++ [fault] }

/-- The string in the quotes `q` that opens at `pos`, and the place behind it. -/
def quotedValue? (raw : Text) (q : Char) (pos : Nat) : Option (Option (Text × Nat)) := do
  match ← stop? (fun escaped b => some (Delimiter.quote q escaped b)) false (pos + 1)
      ((octets raw).drop (pos + 1)) with
  | none => return none
  | some stop => return some (← Text.slice? raw (pos + 1) stop, stop + 1)

/-- One byte of an expression in braces, with the number of open braces. -/
def braceStep (depth : Nat) (b : Char) : Option (Option Nat) :=
  if b = '{' then some (some (depth + 1))
  else if b = '}' then
    (subtract? depth 1).map fun depth' => if depth' = 0 then none else some depth'
  else some (some depth)

/-- The expression in braces that opens at `pos`, and the place behind it. -/
def bracedValue? (raw : Text) (pos : Nat) : Option (Option (Text × Nat)) := do
  match ← stop? braceStep 0 pos ((octets raw).drop pos) with
  | none => return none
  | some stop => return some (← Text.slice? raw (pos + 1) stop, stop + 1)

/-- The value at `pos` and the place behind it, or what is wrong with it. -/
def value? (raw : Text) (pos : Nat) :
    Option (Except (Text → AttributeFault) (AttributeValue × Nat)) := do
  if let some q := (octets raw)[pos]?.filter isQuote then
    match ← quotedValue? raw q pos with
    | some (text, stop) => return .ok (.string text, stop)
    | none => return .error .unterminated
  else if (octets raw)[pos]? = some '{' then
    match ← bracedValue? raw pos with
    | some (code, stop) => return .ok (.expression code, stop)
    | none => return .error .unbalanced
  else return .ok (.yes, skipWhile (!isBlank ·) (octets raw) pos)

/-- One round of the loop, at a byte that is no blank: the attributes with those read in the round,
and the place where the next round begins, if there is one. -/
def attributeRound? (raw : Text) (start : Nat) (a : Attributes) :
    Option (Attributes × Option Nat) := do
  if (octets raw)[start]? = none then return (a, none)
  if (octets raw)[start]?.any isKeyChar then
    let keyStop := skipWhile isKeyChar (octets raw) start
    let key := normalizeKey (← Text.slice? raw start keyStop)
    let equals := skipWhile isBlank (octets raw) keyStop
    if (octets raw)[equals]? = some '=' then
      match ← value? raw (skipWhile isBlank (octets raw) (equals + 1)) with
      | .ok (value, stop) => return (a.register key value, some stop)
      | .error fault => return ((a.degrade (fault key)).register key .yes, none)
    else return (a.register key .yes, some keyStop)
  else return (a, some (start + 1))

/-- The attributes from byte `pos` on, added to those read before. Each round has to get on, and to
stay inside the text. -/
def attributesFrom? (raw : Text) (pos : Nat) (a : Attributes) : Option Attributes := do
  let start := skipWhile isBlank (octets raw) pos
  match ← attributeRound? raw start a with
  | (a', none) => return a'
  | (a', some next) =>
    if start < next ∧ next ≤ byteSize raw then attributesFrom? raw next a' else none
termination_by byteSize raw - pos
decreasing_by
  have hle : pos ≤ skipWhile isBlank (octets raw) pos := Nat.le_add_right _ _
  omega

/-- The attributes in the text between the name and the end of a tag. -/
def attributes? (raw : Text) : Option Attributes := attributesFrom? raw 0 ⟨[], none, []⟩

/-- A column wraps around past the end of the text. -/
def wrapColumn (t : Text) (offset column : Nat) : Nat :=
  if offset < byteSize t then column else column % (Text.maxOffset + 1)

/-- The position of a byte offset. -/
def position? (t : Text) (offset : Nat) : Option Position := do
  let before ← slice? (octets t) 0 (min offset (octets t).length)
  let line := before.count '\n' + 1
  match lastIdx? '\n' before with
  | some newline => return ⟨line, wrapColumn t offset (← subtract? offset newline)⟩
  | none => return ⟨line, wrapColumn t offset (offset + 1)⟩

/-! ## Values -/

section Values

variable {raw t : Text} {pos : Nat}

theorem seesAscii_isQuote : SeesAscii isQuote :=
  (Text.seesAscii_beq (by decide)).or (Text.seesAscii_beq (by decide))

theorem seesAscii_isKeyChar : SeesAscii isKeyChar :=
  (Text.seesAscii_isAlphanum.or (Text.seesAscii_beq (by decide))).or
    (Text.seesAscii_beq (by decide))

theorem quotedValue?_eq {q : Char} (h : RestAt raw pos (q :: t)) (hq : isQuote q = true) :
    quotedValue? raw q pos =
      some ((Delimiter.quoted? q t).map fun x => (x.1, pos + 1 + byteSize x.1 + 1)) := by
  have hlt : q.toNat < 128 := by rcases Delimiter.eq_of_isQuote hq with rfl | rfl <;> decide
  have ht : RestAt raw (pos + 1) t := h.cons_of_lt hlt
  have hstop : stop? (fun escaped b => some (Delimiter.quote q escaped b)) false (pos + 1)
      (octets t) = some ((Delimiter.quoted? q t).map fun x => pos + 1 + byteSize x.1) :=
    Octets.stop?_octets (f := id) (fun _ _ => by simp) (steady_quote hq) trivial (pos + 1) t
  rw [quotedValue?, ht.drop_eq, hstop]
  cases hcut : Delimiter.quoted? q t with
  | none => rfl
  | some x =>
    obtain ⟨body, rest⟩ := x
    rw [Delimiter.eq_append_of_quoted? hcut] at ht
    simp only [Option.map_some, Option.bind_eq_bind, Option.bind_some, ht.slice?_eq]
    rfl

/-- Counted with the opening brace, the count is above zero until the expression ends. -/
theorem braceStep_succ (inner : Nat) (b : Char) :
    braceStep (inner + 1) b = some ((Delimiter.brace inner b).map (· + 1)) := by
  rw [braceStep]
  by_cases hopen : b = '{'
  · simp only [Delimiter.brace, if_pos hopen, Option.map_some]
  · by_cases hclose : b = '}'
    · rw [if_neg hopen, if_pos hclose, hclose]
      cases inner <;> rfl
    · rw [if_neg hopen, if_neg hclose, Delimiter.brace_of_ne inner hopen hclose]
      rfl

theorem bracedValue?_eq (h : RestAt raw pos ('{' :: t)) :
    bracedValue? raw pos =
      some ((Delimiter.braced? t).map fun x => (x.1, pos + 1 + byteSize x.1 + 1)) := by
  have ht : RestAt raw (pos + 1) t := h.cons_of_lt (by decide)
  have hstop : stop? braceStep 1 (pos + 1) (octets t) =
      some ((Delimiter.braced? t).map fun x => pos + 1 + byteSize x.1) :=
    Octets.stop?_octets (s := 0) braceStep_succ steady_brace trivial (pos + 1) t
  have hopen : stop? braceStep 0 pos (octets ('{' :: t)) =
      stop? braceStep 1 (pos + 1) (octets t) := by
    rw [Text.octets_cons, Text.octetsOf_of_lt (by decide)]
    rfl
  rw [bracedValue?, h.drop_eq, hopen, hstop]
  cases hcut : Delimiter.braced? t with
  | none => rfl
  | some x =>
    obtain ⟨body, rest⟩ := x
    rw [Delimiter.eq_append_of_braced? hcut] at ht
    simp only [Option.map_some, Option.bind_eq_bind, Option.bind_some, ht.slice?_eq]
    rfl

/-- The value that is read where a value is written, or what is wrong with it. -/
def outcome : Written → Except (Text → AttributeFault) AttributeValue
  | .quoted _ body => .ok (.string body)
  | .braced body => .ok (.expression body)
  | .bare _ => .ok .yes
  | .openQuoted _ _ => .error .unterminated
  | .openBraced _ => .error .unbalanced

theorem value?_eq (h : RestAt raw pos t) :
    value? raw pos =
      some ((outcome (readValue t).1).map (·, pos + byteSize (readValue t).1.text)) := by
  have hbare := h.skipWhile_eq (p := fun c => !isBlank c) Text.seesAscii_isBlank.not
  cases t with
  | nil =>
    have hoctet : (octets raw)[pos]? = none := h.octet_eq
    rw [value?, hoctet, hbare]
    rfl
  | cons c t =>
    by_cases hq : isQuote c = true
    · have hlt : c.toNat < 128 := by rcases Delimiter.eq_of_isQuote hq with rfl | rfl <;> decide
      have hoctet : (octets raw)[pos]? = some c := by
        rw [h.octet_eq, Text.octets_eq_some_iff hlt]
        rfl
      have hone : c.utf8Size = 1 := Text.utf8Size_of_lt hlt
      simp only [value?, hoctet, Option.filter_some, if_pos hq, quotedValue?_eq h hq, readValue]
      cases hcut : Delimiter.quoted? c t with
      | none => rfl
      | some x =>
        have hsize : pos + byteSize (Written.quoted c x.1).text = pos + 1 + byteSize x.1 + 1 := by
          simp only [Written.text, Text.byteSize_cons, Text.byteSize_append, Text.byteSize_nil,
            hone]
          omega
        rw [hsize]
        rfl
    · obtain ⟨b, hb, hoctet⟩ := h.exists_octet
      have hfilter : (some b).filter isQuote = none := by
        rw [Option.filter_some, if_neg]
        rw [seesAscii_isQuote.eq_of_mem hb]
        exact hq
      have hbrace : some b = some '{' ↔ c = '{' := by
        rw [Option.some.injEq]
        exact Text.eq_iff_of_mem_octetsOf (by decide) hb
      simp only [value?, hoctet, hfilter, hbrace, readValue, if_neg hq]
      by_cases hc : c = '{'
      · subst hc
        rw [if_pos rfl, if_pos rfl, bracedValue?_eq h]
        cases hcut : Delimiter.braced? t with
        | none => rfl
        | some x =>
          have hopen : '{'.utf8Size = 1 := Text.utf8Size_of_lt (by decide)
          have hclose : '}'.utf8Size = 1 := Text.utf8Size_of_lt (by decide)
          have hsize : pos + byteSize (Written.braced x.1).text = pos + 1 + byteSize x.1 + 1 := by
            simp only [Written.text, Text.byteSize_cons, Text.byteSize_append, Text.byteSize_nil,
              hopen, hclose]
            omega
          show _ = some (Except.ok
            (AttributeValue.expression x.1, pos + byteSize (Written.braced x.1).text))
          rw [hsize]
          rfl
      · rw [if_neg hc, if_neg hc, hbare]
        rfl

end Values

/-! ## The loop -/

/-- Takes up what a piece means. -/
def Attributes.add (a : Attributes) (p : Piece) : Attributes :=
  ⟨a.entries ++ p.entry?.toList, p.blockVariable?.or a.blockVariable, a.faults ++ p.fault?.toList⟩

section Loop

variable {raw t : Text} {pos : Nat} {a : Attributes} {b c : Char}

/-- Taking up one piece after the other gives what the pieces together mean. -/
theorem foldl_add (ps : List Piece) (a : Attributes) :
    ps.foldl Attributes.add a =
      ⟨a.entries ++ ps.filterMap Piece.entry?,
        ((ps.filterMap Piece.blockVariable?).getLast?).or a.blockVariable,
        a.faults ++ ps.filterMap Piece.fault?⟩ := by
  induction ps generalizing a with
  | nil => simp
  | cons p ps ih =>
    have hcons : ∀ {β : Type} (f : Piece → Option β),
        (p :: ps).filterMap f = (f p).toList ++ ps.filterMap f := by
      intro β f
      cases hp : f p <;> simp [hp]
    have hlast : p.blockVariable?.toList.getLast? = p.blockVariable? := by
      cases p.blockVariable? <;> rfl
    simp only [List.foldl_cons, ih, Attributes.add, hcons, List.append_assoc,
      List.getLast?_append, hlast, Option.or_assoc]

@[simp] theorem add_filler (a : Attributes) (c : Char) : a.add (.filler c) = a := by
  simp [Attributes.add, Piece.entry?, Piece.blockVariable?, Piece.fault?]

theorem add_flag (a : Attributes) (key : Text) :
    a.add (.flag key) = a.register (normalizeKey key) .yes := by
  simp [Attributes.add, Attributes.register, Piece.entry?, Piece.blockVariable?, Piece.fault?]

/-- What the loop makes of the outcome of a value is what the piece with that value means. -/
theorem add_assigned (a : Attributes) (key before after : Text) (value : Written) :
    a.add (.assigned key before after value) =
      match outcome value with
      | .ok v => a.register (normalizeKey key) v
      | .error fault =>
        (a.degrade (fault (normalizeKey key))).register (normalizeKey key) .yes := by
  cases value with
  | quoted q body =>
    by_cases hkey : normalizeKey key = aliasKey <;> by_cases htrim : Text.trim body = [] <;>
      simp [Attributes.add, outcome, Attributes.register, Piece.entry?, Piece.blockVariable?,
        Piece.fault?, hkey, htrim]
  | _ =>
    simp [Attributes.add, outcome, Attributes.register, Attributes.degrade, Piece.entry?,
      Piece.blockVariable?, Piece.fault?]

theorem attributesFrom?_next {a' : Attributes} {next : Nat}
    (hskip : skipWhile isBlank (octets raw) pos = pos)
    (hround : attributeRound? raw pos a = some (a', some next))
    (hnext : pos < next ∧ next ≤ byteSize raw) :
    attributesFrom? raw pos a = attributesFrom? raw next a' := by
  rw [attributesFrom?]
  simp only [hskip, hround, Option.bind_eq_bind, Option.bind_some, if_pos hnext]

theorem attributesFrom?_last {a' : Attributes}
    (hskip : skipWhile isBlank (octets raw) pos = pos)
    (hround : attributeRound? raw pos a = some (a', none)) :
    attributesFrom? raw pos a = some a' := by
  rw [attributesFrom?]
  simp only [hskip, hround, Option.bind_eq_bind, Option.bind_some]
  rfl

theorem attributesFrom?_end (h : RestAt raw pos []) : attributesFrom? raw pos a = some a := by
  have hskip := h.skipWhile_eq Text.seesAscii_isBlank
  have hoctet : (octets raw)[pos]? = none := h.octet_eq
  refine attributesFrom?_last hskip ?_
  rw [attributeRound?, if_pos hoctet]
  rfl

theorem attributesFrom?_succ (hb : (octets raw)[pos]? = some b) (hkey : isKeyChar b = false) :
    attributesFrom? raw pos a = attributesFrom? raw (pos + 1) a := by
  have hdrop : (octets raw).drop pos = b :: (octets raw).drop (pos + 1) := by
    rw [List.drop_eq_getElem?_toList_append, hb]
    rfl
  by_cases hblank : isBlank b = true
  · have hskip : skipWhile isBlank (octets raw) pos =
        skipWhile isBlank (octets raw) (pos + 1) := by
      rw [skipWhile, skipWhile, hdrop, List.takeWhile_cons_of_pos hblank, List.length_cons]
      omega
    rw [attributesFrom?, hskip]
    conv_rhs => rw [attributesFrom?]
  · have hskip : skipWhile isBlank (octets raw) pos = pos := by
      rw [skipWhile, hdrop, List.takeWhile_cons_of_neg hblank]
      rfl
    have hle : pos + 1 ≤ byteSize raw := by
      rw [← Text.length_octets]
      exact (List.getElem?_eq_some_iff.1 hb).1
    refine attributesFrom?_next hskip ?_ ⟨Nat.lt_succ_self pos, hle⟩
    simp [attributeRound?, hb, hkey]

/-- A value that cannot be read takes the whole rest of the text. -/
theorem readValue_of_error {fault : Text → AttributeFault}
    (h : outcome (readValue t).1 = .error fault) : (readValue t).2 = [] := by
  fun_cases readValue t with
  | case1 => rfl
  | case2 c t hq body rest hcut =>
    simp only [readValue, if_pos hq, hcut] at h
    cases h
  | case3 => rfl
  | case4 t body rest hcut hq =>
    simp only [readValue, if_neg hq, if_true, hcut] at h
    cases h
  | case5 => rfl
  | case6 c t hq hc =>
    simp only [readValue, if_neg hq, if_neg hc] at h
    cases h

/-- A round at a key reads the piece that begins with it. No round follows if the piece takes the
rest of the text. -/
theorem attributeRound?_readPiece (h : RestAt raw pos (c :: t)) (hc : isKeyChar c = true) :
    attributeRound? raw pos a =
        some (a.add (readPiece c t).1, some (pos + byteSize (readPiece c t).1.text)) ∨
      attributeRound? raw pos a = some (a.add (readPiece c t).1, none) ∧
        (readPiece c t).2 = [] := by
  have hfirst : (octets raw)[pos]?.any isKeyChar = true := by
    rw [h.octet_eq, Text.any_octets seesAscii_isKeyChar]
    exact hc
  have hsome : (octets raw)[pos]? ≠ none := by
    intro hnone
    rw [hnone] at hfirst
    cases hfirst
  have hstop := h.skipWhile_eq seesAscii_isKeyChar
  have hrest := h.dropWhile isKeyChar
  have hkey : Text.slice? raw pos (pos + byteSize ((c :: t).takeWhile isKeyChar)) =
      some ((c :: t).takeWhile isKeyChar) := by
    refine RestAt.slice?_eq (t := (c :: t).dropWhile isKeyChar) ?_
    rwa [List.takeWhile_append_dropWhile]
  rw [readPiece, if_pos hc]
  generalize (c :: t).takeWhile isKeyChar = key at *
  generalize (c :: t).dropWhile isKeyChar = rest at *
  have hequals := hrest.skipWhile_eq Text.seesAscii_isBlank
  have hbehind := hrest.dropWhile isBlank
  simp only [attributeRound?, if_neg hsome, if_pos hfirst, hstop, hkey, Option.bind_eq_bind,
    Option.bind_some, hequals, hbehind.octet_eq,
    Text.octets_eq_some_iff (by decide : '='.toNat < 128)]
  by_cases heq : (rest.dropWhile isBlank).head? = some '='
  · obtain ⟨u, hu⟩ := List.head?_eq_some_iff.1 heq
    rw [hu] at hbehind
    have hvalue := (hbehind.cons_of_lt (by decide)).dropWhile isBlank
    have hblanks := (hbehind.cons_of_lt (by decide)).skipWhile_eq Text.seesAscii_isBlank
    have hread : readKeyed key rest =
        (.assigned key (rest.takeWhile isBlank) (u.takeWhile isBlank)
          (readValue (u.dropWhile isBlank)).1, (readValue (u.dropWhile isBlank)).2) := by
      simp only [readKeyed, assignment?, hu]
    have hsize : pos + byteSize (Piece.assigned key (rest.takeWhile isBlank) (u.takeWhile isBlank)
          (readValue (u.dropWhile isBlank)).1).text =
        pos + byteSize key + byteSize (rest.takeWhile isBlank) + 1 +
          byteSize (u.takeWhile isBlank) + byteSize (readValue (u.dropWhile isBlank)).1.text := by
      simp only [Piece.text, Text.byteSize_append, Text.byteSize_cons,
        Text.utf8Size_of_lt (by decide : '='.toNat < 128)]
      omega
    rw [if_pos heq, hblanks, value?_eq hvalue, hread, hsize, add_assigned]
    cases houtcome : outcome (readValue (u.dropWhile isBlank)).1 with
    | ok value => exact Or.inl rfl
    | error fault => exact Or.inr ⟨rfl, readValue_of_error houtcome⟩
  · have hassign : assignment? rest = none := by
      rw [assignment?]
      split
      · next hcons => exact absurd (by rw [hcons]; rfl) heq
      · rfl
    have hread : readKeyed key rest = (.flag key, rest) := by rw [readKeyed, hassign]
    rw [if_neg heq, hread, add_flag]
    exact Or.inl rfl

theorem readPiece_text_ne_nil (c : Char) (t : Text) : (readPiece c t).1.text ≠ [] := by
  intro hnil
  have hlength := congrArg List.length (readPiece_text c t)
  have hle := length_readPiece_le c t
  simp only [hnil, List.nil_append, List.length_cons] at hlength
  omega

/-- Reading one piece over bytes takes up what it means, and goes on behind it. -/
theorem attributesFrom?_readPiece (h : RestAt raw pos (c :: t)) :
    attributesFrom? raw pos a =
      attributesFrom? raw (pos + byteSize (readPiece c t).1.text) (a.add (readPiece c t).1) := by
  cases hkey : isKeyChar c with
  | false =>
    -- Each byte of the character begins no key, so the loop gets behind it byte by byte.
    have hskip := h.skip_char (f := fun pos => attributesFrom? raw pos a)
      (q := fun b => isKeyChar b = false) (fun _ _ => attributesFrom?_succ)
      (fun b hb => (seesAscii_isKeyChar.eq_of_mem hb).trans hkey) (Nat.le_refl _)
    have hread : readPiece c t = (.filler c, t) := if_neg (by simp [hkey])
    rw [hread]
    simpa [Piece.text] using hskip
  | true =>
    have hskip : skipWhile isBlank (octets raw) pos = pos := by
      rw [h.skipWhile_eq Text.seesAscii_isBlank, List.takeWhile_cons_of_neg]
      · rfl
      · simp [isBlank_of_isKeyChar hkey]
    have hpiece : RestAt raw pos ((readPiece c t).1.text ++ (readPiece c t).2) :=
      (readPiece_text c t).symm ▸ h
    rcases attributeRound?_readPiece h hkey with hround | ⟨hround, hrest⟩
    · exact attributesFrom?_next hskip hround (hpiece.progress (readPiece_text_ne_nil c t))
    · have hend := hpiece.append
      rw [hrest] at hend
      rw [attributesFrom?_last hskip hround, attributesFrom?_end hend]

theorem attributesFrom?_eq (h : RestAt raw pos t) :
    attributesFrom? raw pos a = some ((pieces t).foldl Attributes.add a) := by
  fun_induction pieces t generalizing pos a with
  | case1 => exact attributesFrom?_end h
  | case2 c t ih =>
    rw [attributesFrom?_readPiece h, List.foldl_cons]
    refine ih (RestAt.append ?_)
    rwa [readPiece_text]

/-- The loop over bytes passes every check, and reads what the attributes are. -/
theorem attributes?_eq (raw : Text) : attributes? raw = some (Attributes.read raw) := by
  rw [attributes?, attributesFrom?_eq (RestAt.zero raw), foldl_add]
  simp [Attributes.read]

end Loop

/-! ## Positions -/

section Positions

variable {t : Text} {n : Nat}

theorem wrapColumn_cons {c : Char} (hsize : c.utf8Size ≤ n) (column : Nat) :
    wrapColumn (c :: t) n column = wrapColumn t (n - c.utf8Size) column := by
  have hiff : n < byteSize (c :: t) ↔ n - c.utf8Size < byteSize t := by
    rw [Text.byteSize_cons]
    omega
  simp only [wrapColumn, hiff]

theorem advance_eq (p : Position) (n : Nat) (t : Text) :
    Text.advance p n t =
      ⟨p.line + ((octets t).take n).count '\n',
        wrapColumn t n
          (((lastIdx? '\n' ((octets t).take n)).map (n - ·)).getD (p.column + n))⟩ := by
  induction t generalizing p n with
  | nil => cases n <;> rfl
  | cons c t ih =>
    have hpos := c.utf8Size_pos
    cases n with
    | zero =>
      rw [wrapColumn, if_pos (by rw [Text.byteSize_cons]; omega)]
      rfl
    | succ n =>
      rw [Text.advance]
      by_cases hc : c = '\n'
      · subst hc
        have hone : '\n'.utf8Size = 1 := by decide
        rw [if_pos rfl, ih, Text.octets_cons, Text.octetsOf_of_lt (by decide), List.cons_append,
          List.nil_append, List.take_succ_cons, List.count_cons_self, lastIdx?,
          wrapColumn_cons (by omega), hone, Nat.add_sub_cancel, Position.mk.injEq]
        refine ⟨Nat.add_right_comm _ _ _, congrArg (wrapColumn t n) ?_⟩
        cases lastIdx? '\n' ((octets t).take n) with
        | none => simp [Nat.add_comm]
        | some i => simp
      · have hnot : '\n' ∉ (Text.octetsOf c).take (n + 1) := by
          intro hmem
          exact hc ((Text.eq_iff_of_mem_octetsOf (by decide) (List.mem_of_mem_take hmem)).1 rfl)
        rw [if_neg hc, Text.octets_cons, List.take_append, Text.length_octetsOf, List.count_append,
          List.count_eq_zero_of_not_mem hnot, Nat.zero_add, Octets.lastIdx?_append_left hnot,
          List.length_take, Text.length_octetsOf]
        -- The place may lie inside the character; then all bytes before it belong to the character.
        by_cases hsize : c.utf8Size ≤ n + 1
        · rw [if_pos hsize, ih, Nat.min_eq_right hsize, wrapColumn_cons hsize, Position.mk.injEq]
          refine ⟨rfl, congrArg (wrapColumn t _) ?_⟩
          cases lastIdx? '\n' ((octets t).take (n + 1 - c.utf8Size)) with
          | none =>
            show p.column + c.utf8Size + (n + 1 - c.utf8Size) = p.column + (n + 1)
            omega
          | some i =>
            show n + 1 - c.utf8Size - i = n + 1 - (i + c.utf8Size)
            omega
        · rw [if_neg hsize, Nat.sub_eq_zero_of_le (by omega), wrapColumn,
            if_pos (by rw [Text.byteSize_cons]; omega)]
          rfl

/-- The position of an offset is found without a difference below zero. -/
theorem position?_eq (t : Text) (offset : Nat) :
    position? t offset = some (Text.position t offset) := by
  have htake : (octets t).take (min offset (octets t).length) = (octets t).take offset := by
    rw [← List.take_take, List.take_length]
  have hslice : slice? (octets t) 0 (min offset (octets t).length) =
      some ((octets t).take offset) := by
    rw [slice?, if_pos ⟨Nat.zero_le _, Nat.min_le_right _ _⟩, htake, List.drop_zero]
  rw [position?, hslice, Text.position, advance_eq]
  cases hlast : lastIdx? '\n' ((octets t).take offset) with
  | none => simp [hlast, Nat.add_comm]
  | some i =>
    have hi : i ≤ offset := by
      have hlt := Octets.lt_length_of_lastIdx? hlast
      rw [List.length_take] at hlt
      omega
    simp [hlast, subtract?, hi, Nat.add_comm]

end Positions

end ErbTags
