import ErbTags.Proofs.TagStarts

/-!
# Names in snake case

The variables and methods of the generated code are named after tags, in snake case. What a name
becomes is told here place by place (`spelled`): a capital turns into its small letter, with an
underscore before it if a word begins there (`beginsWord`), `::` turns into one underscore, and all
else stays. The definition gets there in another way: it first replaces each `::`, which gives the
characters around it a new neighbour, and then goes along the text with the character before. Both
come to the same for a name (`snakeCase_eq_flatMap`), and from the places it is seen that an
underscore is never put in beside another one (`spelled_alone`). The main result is
`snakeCase_names`.
-/

namespace ErbTags.Name

/-! ## What a name becomes -/

/-- A character that an identifier may hold after its first one. -/
def isIdentifierChar (c : Char) : Bool := c.isLower || c.isDigit || c == '_'

/-- Whether the text is an identifier of the generated code: a small letter, then small letters,
digits and underscores. -/
def isIdentifier : Text → Bool
  | [] => false
  | c :: t => c.isLower && t.all isIdentifierChar

/-- The name with each `::` taken out. -/
def unjoined : Text → Text
  | ':' :: ':' :: t => unjoined t
  | c :: t => c :: unjoined t
  | [] => []

/-- Whether a word begins at the given place of the name: a capital stands there, right after a
small letter or a digit, or after another capital and before a small letter. -/
def beginsWord (name : Text) : Nat → Bool
  | 0 => false
  | i + 1 =>
    name[i + 1]?.any Char.isUpper && name[i]?.any fun b =>
      b.isLower || b.isDigit || (b.isUpper && name[i + 2]?.any Char.isLower)

/-- What a character of a name becomes, given the next one: the first colon of a `::` becomes an
underscore and the second one nothing, all else is put in small letters. -/
def kept (c : Char) (next : Option Char) : Text :=
  if c = ':' then if next = some ':' then ['_'] else [] else [c.toLower]

/-- What becomes of the given place of the name. -/
def spelled (name : Text) (i : Nat) : Text :=
  match name[i]? with
  | none => []
  | some c => (if beginsWord name i then ['_'] else []) ++ kept c name[i + 1]?

/-- The text is what the name becomes in snake case. -/
structure SnakeCaseOf (name t : Text) : Prop where
  isIdentifier : isIdentifier t = true
  /-- But for underscores, it is the name in small letters. -/
  filter_eq : t.filter (· ≠ '_') = ((unjoined name).map Char.toLower).filter (· ≠ '_')
  /-- Underscores are put in exactly where words begin. -/
  eq_flatMap : t = (List.range name.length).flatMap (spelled name)
  /-- An underscore that is put in has none beside it. -/
  alone : ∀ i, beginsWord name i = true → ∃ front b c back,
    (List.range i).flatMap (spelled name) = front ++ [b] ∧ t = front ++ b :: '_' :: c :: back ∧
      b ≠ '_' ∧ c ≠ '_'

section Texts

variable {t u : Text} {c : Char} {before : Option Char}

/-! ## Letters -/

theorem snakeAfter_cons (before : Option Char) (c : Char) (t : Text) :
    snakeAfter before (c :: t) =
      (if c.isUpper && startsWord before t.head? then ['_'] else []) ++
        c.toLower :: snakeAfter (some c) t := by
  rw [snakeAfter]
  cases hc : c.isUpper with
  | true => cases startsWord before t.head? <;> rfl
  | false =>
    rw [toLower_of_isUpper_eq_false hc]
    rfl

theorem filter_snakeAfter (before : Option Char) (t : Text) :
    (snakeAfter before t).filter (· ≠ '_') = (t.map Char.toLower).filter (· ≠ '_') := by
  induction t generalizing before with
  | nil => rfl
  | cons c t ih =>
    rw [snakeAfter_cons, List.filter_append, List.filter_cons, ih, List.map_cons, List.filter_cons]
    split <;> rfl

theorem filter_joined (t : Text) :
    ((joined t).map Char.toLower).filter (· ≠ '_') =
      ((unjoined t).map Char.toLower).filter (· ≠ '_') := by
  fun_induction joined t with
  | case1 t ih =>
    rw [unjoined, ← ih]
    rfl
  | case2 c t hc ih =>
    rw [unjoined]
    · rw [List.map_cons, List.map_cons, List.filter_cons, List.filter_cons, ih]
    · exact hc
  | case3 => rfl

theorem filter_snakeCase (t : Text) :
    (snakeCase t).filter (· ≠ '_') = ((unjoined t).map Char.toLower).filter (· ≠ '_') :=
  (filter_snakeAfter none (joined t)).trans (filter_joined t)

/-! ## Snake case twice -/

theorem isUpper_of_mem_snakeAfter (h : c ∈ snakeAfter before t) : c.isUpper = false := by
  induction t generalizing before with
  | nil => cases h
  | cons d t ih =>
    rw [snakeAfter_cons, List.mem_append, List.mem_cons] at h
    rcases h with h | rfl | h
    · split at h
      · rw [List.mem_singleton.1 h]
        rfl
      · cases h
    · exact isUpper_toLower d
    · exact ih h

theorem snakeAfter_of_isUpper_eq_false (h : ∀ c ∈ t, c.isUpper = false) :
    snakeAfter before t = t := by
  induction t generalizing before with
  | nil => rfl
  | cons c t ih =>
    have hc := h c List.mem_cons_self
    rw [snakeAfter_cons, hc, toLower_of_isUpper_eq_false hc,
      ih fun d hd => h d (List.mem_cons_of_mem c hd)]
    rfl

theorem isNamespaced_cons (c : Char) (t : Text) :
    isNamespaced (c :: t) = true ↔ (c = ':' ∧ t.head? = some ':') ∨ isNamespaced t = true := by
  by_cases h : c = ':' ∧ t.head? = some ':'
  · obtain ⟨rfl, ht⟩ := h
    obtain ⟨u, rfl⟩ := List.head?_eq_some_iff.1 ht
    exact iff_of_true rfl (Or.inl ⟨rfl, rfl⟩)
  · rw [isNamespaced, or_iff_right h]
    rintro u rfl rfl
    exact h ⟨rfl, rfl⟩

theorem isNamespaced_iff (t : Text) : isNamespaced t = true ↔ [':', ':'] <:+: t := by
  induction t with
  | nil => exact iff_of_false (by decide) (by simp)
  | cons c t ih =>
    have hhead : [':'] <+: t ↔ t.head? = some ':' := by
      cases t <;> simp [List.cons_prefix_cons, eq_comm]
    rw [isNamespaced_cons, ih, List.infix_cons_iff, List.cons_prefix_cons, hhead, eq_comm]

theorem joined_of_not_isNamespaced (h : ¬ isNamespaced t = true) : joined t = t := by
  fun_induction joined t with
  | case1 t ih => exact absurd rfl h
  | case2 c t hc ih =>
    rw [isNamespaced_cons, not_or] at h
    rw [ih h.2]
  | case3 => rfl

/-- A colon comes first in the joined name only if it is the first one of the name. -/
theorem head?_of_joined (h : (joined t).head? = some ':') : t.head? = some ':' := by
  fun_cases joined t with
  | case1 t => rfl
  | case2 c t hc =>
    rw [joined] at h
    · exact h
    · exact hc
  | case3 => exact h

theorem not_isNamespaced_joined (t : Text) : ¬ isNamespaced (joined t) = true := by
  fun_induction joined t with
  | case1 t ih =>
    rw [isNamespaced_cons]
    rintro (⟨h, _⟩ | h)
    · cases h
    · exact ih h
  | case2 c t hc ih =>
    rw [isNamespaced_cons]
    rintro (⟨rfl, h⟩ | h)
    · obtain ⟨u, rfl⟩ := List.head?_eq_some_iff.1 (head?_of_joined h)
      exact hc u rfl rfl
    · exact ih h
  | case3 => decide

theorem head?_of_snakeAfter (h : (snakeAfter before t).head? = some ':') : t.head? = some ':' := by
  cases t with
  | nil => exact h
  | cons c t =>
    rw [snakeAfter_cons] at h
    split at h
    · cases h
    · exact congrArg some (eq_of_toLower_eq (by decide) (Option.some.inj h))

theorem not_isNamespaced_snakeAfter (h : ¬ isNamespaced t = true) :
    ¬ isNamespaced (snakeAfter before t) = true := by
  induction t generalizing before with
  | nil => exact h
  | cons c t ih =>
    rw [isNamespaced_cons, not_or] at h
    have hrest : ¬ isNamespaced (c.toLower :: snakeAfter (some c) t) = true := by
      rw [isNamespaced_cons]
      rintro (⟨hc, ht⟩ | ht)
      · exact h.1 ⟨eq_of_toLower_eq (by decide) hc, head?_of_snakeAfter ht⟩
      · exact ih h.2 ht
    rw [snakeAfter_cons]
    split
    · rw [List.singleton_append, isNamespaced_cons]
      rintro (⟨hc, _⟩ | ht)
      · cases hc
      · exact hrest ht
    · exact hrest

/-- Snake case stays as it is. -/
theorem snakeCase_snakeCase (t : Text) : snakeCase (snakeCase t) = snakeCase t := by
  have hjoined : joined (snakeCase t) = snakeCase t :=
    joined_of_not_isNamespaced (not_isNamespaced_snakeAfter (not_isNamespaced_joined t))
  rw [snakeCase, hjoined]
  exact snakeAfter_of_isUpper_eq_false fun c hc => isUpper_of_mem_snakeAfter hc

/-! ## Names that are read -/

/-- The text continues a name: it is made of characters of a word, and of `::` with a capital. -/
inductive Continues : Text → Prop
  | nil : Continues []
  | word {c : Char} {t : Text} (isWordChar : isWordChar c = true) (rest : Continues t) :
      Continues (c :: t)
  | segment {c : Char} {t : Text} (isUpper : c.isUpper = true) (rest : Continues t) :
      Continues (':' :: ':' :: c :: t)

theorem continues_continuation (t : Text) : Continues (continuation t).1 := by
  fun_induction continuation t with
  | case1 c t hc name rest heq ih =>
    rw [heq] at ih
    exact .segment hc ih
  | case2 | case4 | case5 => exact .nil
  | case3 c t _ hc name rest heq ih =>
    rw [heq] at ih
    exact .word hc ih

/-- A name that is read is a capital and what continues it. -/
theorem exists_continues_of_read? {name rest : Text} (h : read? t = some (name, rest)) :
    ∃ c u, name = c :: u ∧ c.isUpper = true ∧ Continues u := by
  cases t with
  | nil => cases h
  | cons c t =>
    rw [read?] at h
    split at h
    · next hc =>
      obtain ⟨rfl, -⟩ := Prod.mk.inj (Option.some.inj h)
      exact ⟨c, _, rfl, hc, continues_continuation t⟩
    · cases h

theorem joined_cons (hc : isWordChar c = true) (t : Text) : joined (c :: t) = c :: joined t := by
  rw [joined]
  rintro u rfl
  exact absurd rfl (isWordChar_ne_colon hc)

theorem all_joined (h : Continues u) : (joined u).all isWordChar = true := by
  induction h with
  | nil => rfl
  | word hc rest ih => rw [joined_cons hc, List.all_cons, hc, ih]; rfl
  | segment hc rest ih =>
    have hword := isWordChar_of_isUpper hc
    rw [joined, joined_cons hword, List.all_cons, List.all_cons, hword, ih]
    decide

theorem isIdentifierChar_toLower (h : isWordChar c = true) : isIdentifierChar c.toLower = true := by
  cases hc : c.isUpper with
  | true =>
    show ((c.toLower.isLower || c.toLower.isDigit) || c.toLower == '_') = true
    rw [isLower_toLower hc]
    rfl
  | false =>
    have hword : (((c.isUpper || c.isLower) || c.isDigit) || c == '_') = true := h
    rw [hc, Bool.false_or] at hword
    rw [toLower_of_isUpper_eq_false hc]
    exact hword

theorem all_snakeAfter (h : t.all isWordChar = true) :
    (snakeAfter before t).all isIdentifierChar = true := by
  induction t generalizing before with
  | nil => rfl
  | cons c t ih =>
    rw [List.all_cons, Bool.and_eq_true] at h
    rw [snakeAfter_cons, List.all_append, List.all_cons, isIdentifierChar_toLower h.1, ih h.2]
    split <;> decide

theorem isIdentifier_snakeCase (hc : c.isUpper = true) (hu : Continues u) :
    isIdentifier (snakeCase (c :: u)) = true := by
  rw [snakeCase, joined_cons (isWordChar_of_isUpper hc), snakeAfter, if_pos hc]
  show (c.toLower.isLower && (snakeAfter (some c) (joined u)).all isIdentifierChar) = true
  rw [isLower_toLower hc, all_snakeAfter (all_joined hu)]
  rfl

/-! ## Place by place -/

/-- What becomes of the text after `before`, character by character. -/
def spelledAfter (before : Option Char) : Text → Text
  | [] => []
  | c :: t =>
    (if c.isUpper && startsWord before t.head? then ['_'] else []) ++
      (kept c t.head? ++ spelledAfter (some c) t)

/-- What comes next says the same about a capital before and after each `::` is replaced. -/
theorem startsWord_joined (before : Option Char) (t : Text) :
    startsWord before (joined t).head? = startsWord before t.head? := by
  have hlower : (joined t).head?.any Char.isLower = t.head?.any Char.isLower := by
    fun_cases joined t <;> rfl
  cases before with
  | none => rfl
  | some b => rw [startsWord, startsWord, hlower]

theorem snakeAfter_joined_cons {before' : Option Char} (hc : isWordChar c = true)
    (hbefore : startsWord before = startsWord before')
    (hrest : snakeAfter (some c) (joined t) = spelledAfter (some c) t) :
    snakeAfter before (joined (c :: t)) = spelledAfter before' (c :: t) := by
  rw [joined_cons hc, snakeAfter_cons, startsWord_joined, hbefore, hrest, spelledAfter, kept,
    if_neg (isWordChar_ne_colon hc)]
  rfl

theorem snakeAfter_joined (h : Continues u) :
    snakeAfter before (joined u) = spelledAfter before u := by
  induction h generalizing before with
  | nil => rfl
  | word hc rest ih => exact snakeAfter_joined_cons hc rfl ih
  | @segment c t hc rest ih =>
    have hword := isWordChar_of_isUpper hc
    have hnext : kept ':' (some c) = [] := by
      rw [kept, if_pos rfl, if_neg]
      exact fun h => isWordChar_ne_colon hword (Option.some.inj h)
    -- Neither the underscore nor the second colon lets a word begin.
    have hsegment : snakeAfter (some '_') (joined (c :: t)) = spelledAfter (some ':') (c :: t) :=
      snakeAfter_joined_cons hword rfl ih
    have hcolons : spelledAfter before (':' :: ':' :: c :: t) =
        '_' :: (kept ':' (some c) ++ spelledAfter (some ':') (c :: t)) := rfl
    rw [joined, snakeAfter_cons, hsegment, hcolons, hnext]
    rfl

theorem getElem?_append_succ (front : Text) (c : Char) (t : Text) :
    (front ++ c :: t)[front.length + 1]? = t.head? := by
  rw [List.getElem?_append_right (Nat.le_add_right _ 1), Nat.add_sub_cancel_left,
    List.getElem?_cons_succ, List.head?_eq_getElem?]

/-- A capital starts a word in a text just if a word begins at its place. -/
theorem beginsWord_append (front : Text) (c : Char) (t : Text) :
    beginsWord (front ++ c :: t) front.length =
      (c.isUpper && startsWord front.getLast? t.head?) := by
  rcases List.eq_nil_or_concat' front with rfl | ⟨front, b, rfl⟩
  · exact (Bool.and_false _).symm
  · have hb : (front ++ [b] ++ c :: t)[front.length]? = some b := by simp
    have hc : (front ++ [b] ++ c :: t)[front.length + 1]? = some c := by simp
    have ht := getElem?_append_succ (front ++ [b]) c t
    rw [List.length_append, List.length_singleton] at ht ⊢
    rw [beginsWord, hb, hc, ht, List.getLast?_concat]
    rfl

theorem spelled_append (front : Text) (c : Char) (t : Text) :
    spelled (front ++ c :: t) front.length =
      (if c.isUpper && startsWord front.getLast? t.head? then ['_'] else []) ++ kept c t.head? := by
  have hc : (front ++ c :: t)[front.length]? = some c := by simp
  rw [spelled, hc, getElem?_append_succ, beginsWord_append]

theorem flatMap_spelled (front t : Text) :
    (List.range' front.length t.length).flatMap (spelled (front ++ t)) =
      spelledAfter front.getLast? t := by
  induction t generalizing front with
  | nil => rfl
  | cons c t ih =>
    have hrest := ih (front ++ [c])
    rw [List.length_append, List.length_singleton, List.append_assoc, List.singleton_append,
      List.getLast?_concat] at hrest
    rw [List.length_cons, List.range'_succ, List.flatMap_cons, spelled_append, hrest,
      List.append_assoc, spelledAfter]

/-- A name in snake case is what its places become, one after the other. -/
theorem snakeCase_eq_flatMap (hc : c.isUpper = true) (hu : Continues u) :
    snakeCase (c :: u) = (List.range (c :: u).length).flatMap (spelled (c :: u)) := by
  rw [List.range_eq_range']
  exact (snakeAfter_joined (.word (isWordChar_of_isUpper hc) hu)).trans (flatMap_spelled [] _).symm

theorem spelled_of_getElem? {name : Text} {i : Nat} (h : name[i]? = some c) (hc : c ≠ ':') :
    spelled name i = (if beginsWord name i then ['_'] else []) ++ [c.toLower] := by
  rw [spelled, h]
  dsimp only
  rw [kept, if_neg hc]

/-- A word begins between two letters or digits. -/
theorem exists_of_beginsWord {name : Text} {i : Nat} (h : beginsWord name i = true) :
    ∃ j b c, i = j + 1 ∧ name[j]? = some b ∧ name[i]? = some c ∧ b.isAlphanum = true ∧
      c.isAlphanum = true := by
  cases i with
  | zero => cases h
  | succ j =>
    rw [beginsWord, Bool.and_eq_true, Option.any_eq_true, Option.any_eq_true] at h
    obtain ⟨⟨c, hc, hupper⟩, b, hb, hkind⟩ := h
    refine ⟨j, b, c, rfl, hb, hc, ?_, ?_⟩
    · show ((b.isUpper || b.isLower) || b.isDigit) = true
      cases hu : b.isUpper with
      | true => rfl
      | false => simpa [hu] using hkind
    · show ((c.isUpper || c.isLower) || c.isDigit) = true
      rw [hupper]
      rfl

/-- An underscore that is put in has no other one beside it. -/
theorem spelled_alone {name : Text} {i : Nat} (h : beginsWord name i = true) :
    ∃ front b c back, (List.range i).flatMap (spelled name) = front ++ [b] ∧
      (List.range name.length).flatMap (spelled name) = front ++ b :: '_' :: c :: back ∧
        b ≠ '_' ∧ c ≠ '_' := by
  obtain ⟨j, b, c, rfl, hb, hc, hleft, hright⟩ := exists_of_beginsWord h
  have hne : ∀ {d : Char}, d.isAlphanum = true → d ≠ ':' ∧ d.toLower ≠ '_' := by
    intro d hd
    refine ⟨?_, fun hlower => ?_⟩
    · rintro rfl
      cases hd
    · rw [eq_of_toLower_eq (by decide) hlower] at hd
      cases hd
  have hbefore : (List.range (j + 1)).flatMap (spelled name) =
      ((List.range j).flatMap (spelled name) ++ if beginsWord name j then ['_'] else []) ++
        [b.toLower] := by
    rw [List.range_succ, List.flatMap_append, List.flatMap_singleton,
      spelled_of_getElem? hb (hne hleft).1, List.append_assoc]
  have hplace : spelled name (j + 1) = ['_', c.toLower] := by
    rw [spelled_of_getElem? hc (hne hright).1, if_pos h]
    rfl
  have hlt : j + 1 < name.length := (List.getElem?_eq_some_iff.1 hc).1
  obtain ⟨m, hm⟩ : ∃ m, name.length = j + 1 + (m + 1) := ⟨name.length - (j + 2), by omega⟩
  refine ⟨_, b.toLower, c.toLower,
    ((List.range m).map fun k => j + 1 + (k + 1)).flatMap (spelled name), hbefore, ?_,
    (hne hleft).2, (hne hright).2⟩
  rw [hm, List.range_add, List.flatMap_append, hbefore, List.range_succ_eq_map, List.map_cons,
    List.flatMap_cons, Nat.add_zero, hplace, List.map_map, List.append_assoc _ [b.toLower]]
  rfl

theorem snakeCaseOf_snakeCase (hc : c.isUpper = true) (hu : Continues u) :
    SnakeCaseOf (c :: u) (snakeCase (c :: u)) where
  isIdentifier := isIdentifier_snakeCase hc hu
  filter_eq := filter_snakeCase (c :: u)
  eq_flatMap := snakeCase_eq_flatMap hc hu
  alone := fun i hi => by
    rw [snakeCase_eq_flatMap hc hu]
    exact spelled_alone hi

/-! ## Slots -/

/-- A tag fills a slot just if its name has one segment, made of the slot prefix and a rest that
starts with a capital. The slot is named after the rest. -/
theorem slotName_eq_some_iff {name slotPrefix slot : Text} :
    slotName name slotPrefix = some slot ↔ ¬ [':', ':'] <:+: name ∧
      ∃ c rest, name = slotPrefix ++ c :: rest ∧ c.isUpper = true ∧
        slot = snakeCase (c :: rest) := by
  rw [← isNamespaced_iff, slotName]
  split
  · next h => exact iff_of_false (by simp) fun hslot => hslot.1 h
  · next h =>
    rw [and_iff_right h]
    constructor
    · intro hslot
      split at hslot
      · next c rest hafter =>
        split at hslot
        · next hc =>
          exact ⟨c, rest, Text.after?_eq_some_iff.1 hafter, hc, (Option.some.inj hslot).symm⟩
        · cases hslot
      · cases hslot
    · rintro ⟨c, rest, hname, hc, rfl⟩
      rw [Text.after?_eq_some_iff.2 hname]
      exact if_pos hc

theorem Continues.all (h : Continues u) (hone : ¬ [':', ':'] <:+: u) : u.all isWordChar = true := by
  induction h with
  | nil => rfl
  | @word c t hc rest ih =>
    rw [List.all_cons, hc, ih fun ht => hone (List.infix_cons ht)]
    rfl
  | @segment c t hc rest ih => exact absurd (List.prefix_append [':', ':'] (c :: t)).isInfix hone

theorem continues_of_all (h : u.all isWordChar = true) : Continues u := by
  induction u with
  | nil => exact .nil
  | cons c u ih =>
    rw [List.all_cons, Bool.and_eq_true] at h
    exact .word h.1 (ih h.2)

end Texts

/-- The names of the generated code. A name that is read becomes an identifier, spelled as the name
is but for underscores, which are put in exactly where words begin and never beside another one. It
gives a slot just if it has one segment, made of the slot prefix and a rest that starts with a
capital; the slot is the rest in snake case, and again an identifier. Whatever is in snake case
stays as it is. -/
theorem snakeCase_names :
    (∀ t name rest, read? t = some (name, rest) → SnakeCaseOf name (snakeCase name) ∧
      ∀ slotPrefix slot, slotName name slotPrefix = some slot ↔ ¬ [':', ':'] <:+: name ∧
        ∃ c after, name = slotPrefix ++ c :: after ∧ c.isUpper = true ∧
          slot = snakeCase (c :: after) ∧ isIdentifier slot = true) ∧
    ∀ t, snakeCase (snakeCase t) = snakeCase t := by
  refine ⟨fun t name rest hread => ?_, snakeCase_snakeCase⟩
  obtain ⟨c, u, rfl, hc, hu⟩ := exists_continues_of_read? hread
  refine ⟨snakeCaseOf_snakeCase hc hu, fun slotPrefix slot => ⟨fun hslot => ?_, ?_⟩⟩
  · obtain ⟨hone, d, after, hname, hd, rfl⟩ := slotName_eq_some_iff.1 hslot
    -- A name of one segment is a word, and so is the part after the slot prefix.
    have hall := (Continues.word (isWordChar_of_isUpper hc) hu).all hone
    rw [hname, List.all_append, List.all_cons, Bool.and_eq_true, Bool.and_eq_true] at hall
    exact ⟨hone, d, after, hname, hd, rfl,
      isIdentifier_snakeCase hd (continues_of_all hall.2.2)⟩
  · rintro ⟨hone, d, after, hname, hd, hslot, -⟩
    exact slotName_eq_some_iff.2 ⟨hone, d, after, hname, hd, hslot⟩

/-- An acronym, a digit, an underscore and a `::` before a capital; and a slot. -/
theorem snakeCase_names_acronym :
    read? "UI::HTMLCard2Go_X>".toList = some ("UI::HTMLCard2Go_X".toList, ['>']) ∧
      SnakeCaseOf "UI::HTMLCard2Go_X".toList "ui_html_card2_go_x".toList ∧
      read? "WithHTMLCard />".toList = some ("WithHTMLCard".toList, " />".toList) ∧
      slotName "WithHTMLCard".toList "With".toList = some "html_card".toList ∧
      isIdentifier "html_card".toList = true := by
  have hname : read? "UI::HTMLCard2Go_X>".toList = some ("UI::HTMLCard2Go_X".toList, ['>']) := by
    decide
  have hslotName : read? "WithHTMLCard />".toList =
      some ("WithHTMLCard".toList, " />".toList) := by decide
  have hslot : slotName "WithHTMLCard".toList "With".toList = some "html_card".toList := by decide
  have hsnake : snakeCase "UI::HTMLCard2Go_X".toList = "ui_html_card2_go_x".toList := by decide
  refine ⟨hname, hsnake ▸ (snakeCase_names.1 _ _ _ hname).1, hslotName, hslot, ?_⟩
  obtain ⟨-, _, _, -, -, -, hidentifier⟩ := ((snakeCase_names.1 _ _ _ hslotName).2 _ _).1 hslot
  exact hidentifier

end ErbTags.Name
