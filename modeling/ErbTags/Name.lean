import ErbTags.Text

/-!
# Tag names

A tag name is one or more segments joined by `::`. A segment starts with a capital and goes on with
letters, digits and underscores, all of them ASCII. This file reads such names and derives from
them the names that the generated code uses: the class to render, the block variable, and the slot
that a tag fills.
-/

namespace ErbTags.Name

/-- A character that a name may hold after the capital of a segment. -/
def isWordChar (c : Char) : Bool := c.isAlphanum || c == '_'

/-- The longest continuation of a name, and the text after it. A further segment is joined on only
if a capital follows the `::`. -/
def continuation : Text → Text × Text
  | ':' :: ':' :: c :: t =>
    if c.isUpper then
      let (name, rest) := continuation t
      (':' :: ':' :: c :: name, rest)
    else ([], ':' :: ':' :: c :: t)
  | c :: t =>
    if isWordChar c then
      let (name, rest) := continuation t
      (c :: name, rest)
    else ([], c :: t)
  | [] => ([], [])

/-- The longest name at the front of a text, and the text after it. -/
def read? : Text → Option (Text × Text)
  | c :: t =>
    if c.isUpper then
      let (name, rest) := continuation t
      some (c :: name, rest)
    else none
  | [] => none

theorem continuation_append (t : Text) : (continuation t).1 ++ (continuation t).2 = t := by
  fun_induction continuation t <;> simp_all

/-- Reading a name loses nothing. -/
theorem eq_append_of_read? {t name rest : Text} (h : read? t = some (name, rest)) :
    t = name ++ rest := by
  cases t with
  | nil => simp [read?] at h
  | cons c t =>
    have hc := continuation_append t
    simp only [read?] at h
    split at h
    · simp only [Option.some.injEq, Prod.mk.injEq] at h
      obtain ⟨rfl, rfl⟩ := h
      simp [hc]
    · simp at h

/-! ## Letters -/

section Letters

variable {c : Char}

theorem isUpper_iff : c.isUpper = true ↔ 65 ≤ c.toNat ∧ c.toNat ≤ 90 := by
  show decide ('A'.val ≤ c.val ∧ c.val ≤ 'Z'.val) = true ↔ _
  rw [decide_eq_true_eq, UInt32.le_iff_toNat_le, UInt32.le_iff_toNat_le]
  exact Iff.rfl

theorem isLower_iff : c.isLower = true ↔ 97 ≤ c.toNat ∧ c.toNat ≤ 122 := by
  show (decide ('a'.val ≤ c.val) && decide (c.val ≤ 'z'.val)) = true ↔ _
  rw [Bool.and_eq_true, decide_eq_true_eq, decide_eq_true_eq, UInt32.le_iff_toNat_le,
    UInt32.le_iff_toNat_le]
  exact Iff.rfl

theorem isUpper_eq_false_of_isLower (h : c.isLower = true) : c.isUpper = false := by
  have hlower := isLower_iff.1 h
  rw [Bool.eq_false_iff, Ne, isUpper_iff]
  omega

theorem isLower_toLower (h : c.isUpper = true) : c.toLower.isLower = true := by
  have hbounds := isUpper_iff.1 h
  have hval : c.toLower.val = c.val + 32 := congrArg Char.val (dif_pos (of_decide_eq_true h))
  have hsum : c.toLower.toNat = (c.toNat + 32) % 2 ^ 32 :=
    (congrArg UInt32.toNat hval).trans (UInt32.toNat_add c.val 32)
  rw [isLower_iff]
  omega

theorem toLower_of_isUpper_eq_false (h : c.isUpper = false) : c.toLower = c :=
  dif_neg (of_decide_eq_false h)

theorem isUpper_toLower (c : Char) : c.toLower.isUpper = false := by
  cases hc : c.isUpper with
  | true => exact isUpper_eq_false_of_isLower (isLower_toLower hc)
  | false => rw [toLower_of_isUpper_eq_false hc, hc]

/-- What becomes a character that is no small letter was that character. -/
theorem eq_of_toLower_eq {d : Char} (hd : d.isLower = false) (h : c.toLower = d) : c = d := by
  cases hc : c.isUpper with
  | true =>
    rw [← h, isLower_toLower hc] at hd
    cases hd
  | false => rwa [toLower_of_isUpper_eq_false hc] at h

end Letters

/-! ## Derived names -/

/-- Whether the name has more than one segment. -/
def isNamespaced : Text → Bool
  | ':' :: ':' :: _ => true
  | _ :: t => isNamespaced t
  | [] => false

/-- The name with each `::` replaced by an underscore. -/
def joined : Text → Text
  | ':' :: ':' :: t => '_' :: joined t
  | c :: t => c :: joined t
  | [] => []

/-- Whether a capital starts a new word, given its neighbours: it does after a small letter or a
digit, and after a capital if a small letter comes next, so that an acronym stays one word. -/
def startsWord (before after : Option Char) : Bool :=
  match before with
  | none => false
  | some b => b.isLower || b.isDigit || (b.isUpper && after.any Char.isLower)

/-- Snake case of the text after `before`. -/
def snakeAfter (before : Option Char) : Text → Text
  | [] => []
  | c :: t =>
    if c.isUpper then
      if startsWord before t.head? then '_' :: c.toLower :: snakeAfter (some c) t
      else c.toLower :: snakeAfter (some c) t
    else c :: snakeAfter (some c) t

/-- Snake case of the text after `before`, put behind what is given out already. Here no underscore
is put behind another one. -/
def snakeOnto (out : Text) (before : Option Char) : Text → Text
  | [] => out
  | c :: t =>
    if c.isUpper then
      if startsWord before t.head? && out.getLast? ≠ some '_' then
        snakeOnto (out ++ ['_', c.toLower]) (some c) t
      else snakeOnto (out ++ [c.toLower]) (some c) t
    else snakeOnto (out ++ [c]) (some c) t

theorem toLower_ne_of_startsWord {before after : Option Char} (h : startsWord before after = true) :
    before.map Char.toLower ≠ some '_' := by
  cases before with
  | none => cases h
  | some b =>
    intro hlast
    obtain rfl := eq_of_toLower_eq (by decide) (Option.some.inj hlast)
    cases after <;> cases h

/-- A word never starts behind an underscore, so it makes no difference that `snakeAfter` does not
look at what is given out. -/
theorem snakeOnto_eq {out : Text} {before : Option Char}
    (h : out.getLast? = before.map Char.toLower) (t : Text) :
    snakeOnto out before t = out ++ snakeAfter before t := by
  induction t generalizing out before with
  | nil => rw [snakeOnto, snakeAfter, List.append_nil]
  | cons c t ih =>
    rw [snakeOnto, snakeAfter]
    cases hc : c.isUpper with
    | false =>
      have hlast : (out ++ [c]).getLast? = (some c).map Char.toLower := by
        rw [List.getLast?_concat, Option.map_some, toLower_of_isUpper_eq_false hc]
      simp only [Bool.false_eq_true, if_false, ih hlast, List.append_assoc, List.singleton_append]
    | true =>
      have hlast : (out ++ [c.toLower]).getLast? = (some c).map Char.toLower := List.getLast?_concat
      cases hword : startsWord before t.head? with
      | false =>
        simp only [if_true, Bool.false_and, Bool.false_eq_true, if_false, ih hlast,
          List.append_assoc, List.singleton_append]
      | true =>
        have hnew : (out ++ ['_', c.toLower]).getLast? = (some c).map Char.toLower := by
          simp
        have hguard : out.getLast? ≠ some '_' := h ▸ toLower_ne_of_startsWord hword
        simp [hguard, ih hnew]

/-- The name in snake case: `Admin::HTMLCard` becomes `admin_html_card`. -/
def snakeCase (name : Text) : Text := snakeAfter none (joined name)

theorem snakeCase_eq_snakeOnto (name : Text) :
    snakeCase name = snakeOnto [] none (joined name) := by
  have hnil : ([] : Text).getLast? = (none : Option Char).map Char.toLower := rfl
  rw [snakeOnto_eq hnil, List.nil_append, snakeCase]

/-- The class that a component tag renders: `Admin::Card` with the suffix `Component` becomes
`Admin::CardComponent`. -/
def renderIdentifier (name suffix : Text) : Text := name ++ suffix

/-- The slot that a tag of this name fills, if the name is slot-shaped: one segment, made of the
slot prefix and a rest that starts with a capital. -/
def slotName (name slotPrefix : Text) : Option Text :=
  if isNamespaced name then none
  else
    match Text.after? slotPrefix name with
    | some (c :: rest) => if c.isUpper then some (snakeCase (c :: rest)) else none
    | _ => none

end ErbTags.Name
