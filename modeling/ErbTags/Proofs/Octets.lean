import ErbTags.Proofs.Delimited
import ErbTags.Proofs.Offsets

/-!
# Text as bytes

The readers of the library go over characters. The same can be done over the bytes of a text in
UTF-8, with byte offsets for places. Such a reader has to cut parts out of the text at the places
where it stopped; that fails out of bounds and inside a character. This file has what readers over
bytes are made of: the bytes of a text (`octets`), parts of them and differences of offsets that may
not exist (`slice?`, `subtract?`), and the two loops that all of them share (`skipWhile`, `stop?`).

The tag language is made of ASCII characters, and no byte of another character is the byte of an
ASCII character. So a reader that treats all other characters alike (`SeesAscii`, `Steady`) stops
over bytes at the place where it stops over characters (`RestAt.skipWhile_eq`, `stop?_octets`).
-/

namespace ErbTags

/-- Bytes, each as the character of its number. -/
abbrev Octets := List Char

namespace Text

/-- The bytes of a character in UTF-8. -/
def octetsOf (c : Char) : Octets := (String.utf8EncodeChar c).map Char.ofUInt8

/-- The bytes of a text in UTF-8. -/
def octets (t : Text) : Octets := t.flatMap octetsOf

@[simp] theorem octets_nil : octets [] = [] := rfl

@[simp] theorem octets_cons (c : Char) (t : Text) : octets (c :: t) = octetsOf c ++ octets t := rfl

@[simp] theorem octets_append (s t : Text) : octets (s ++ t) = octets s ++ octets t :=
  List.flatMap_append

@[simp] theorem length_octetsOf (c : Char) : (octetsOf c).length = c.utf8Size := by
  rw [octetsOf, List.length_map, String.length_utf8EncodeChar]

@[simp] theorem length_octets (t : Text) : (octets t).length = byteSize t := by
  induction t with
  | nil => rfl
  | cons c t ih => rw [octets_cons, List.length_append, length_octetsOf, ih, byteSize_cons]

/-! ## ASCII and other characters -/

theorem utf8Size_of_lt {c : Char} (h : c.toNat < 128) : c.utf8Size = 1 := by
  rw [Char.utf8Size_eq_one_iff, UInt32.le_iff_toNat_le]
  exact Nat.le_of_lt_succ h

theorem octetsOf_of_lt {c : Char} (h : c.toNat < 128) : octetsOf c = [c] := by
  have hval : c.val.toNat < 128 := h
  have hbyte : Char.ofUInt8 c.val.toUInt8 = c := by
    apply Char.ext
    apply UInt32.toNat_inj.1
    show (c.val.toUInt8.toUInt32).toNat = c.val.toNat
    rw [UInt8.toNat_toUInt32, UInt32.toNat_toUInt8]
    omega
  rw [octetsOf, String.utf8EncodeChar_eq_singleton (utf8Size_of_lt h), List.map_singleton, hbyte]

/-- The bytes of a character outside ASCII are no ASCII characters. -/
theorem le_of_mem_octetsOf {b c : Char} (h : 128 ≤ c.toNat) (hb : b ∈ octetsOf c) :
    128 ≤ b.toNat := by
  obtain ⟨u, hu, rfl⟩ := List.mem_map.1 hb
  have hbytes : ∀ n, 128 ≤ n → n < 256 → 128 ≤ (Char.ofUInt8 (UInt8.ofNat n)).toNat := by
    intro n hlow hhigh
    show 128 ≤ (UInt8.ofNat n).toUInt32.toNat
    rw [UInt8.toNat_toUInt32, UInt8.toNat_ofNat']
    omega
  have hval : ¬ c.val.toNat ≤ 127 := by
    have : c.val.toNat = c.toNat := rfl
    omega
  -- Two, three or four bytes, all of them at least 128.
  simp only [String.utf8EncodeChar, if_neg hval] at hu
  split at hu
  · simp only [List.mem_cons, List.not_mem_nil, or_false] at hu
    rcases hu with rfl | rfl <;> exact hbytes _ (by omega) (by omega)
  · split at hu
    · simp only [List.mem_cons, List.not_mem_nil, or_false] at hu
      rcases hu with rfl | rfl | rfl <;> exact hbytes _ (by omega) (by omega)
    · simp only [List.mem_cons, List.not_mem_nil, or_false] at hu
      rcases hu with rfl | rfl | rfl | rfl <;> exact hbytes _ (by omega) (by omega)

theorem octetsOf_ne_nil (c : Char) : octetsOf c ≠ [] := by
  intro h
  have hlength := length_octetsOf c
  have := c.utf8Size_pos
  rw [h, List.length_nil] at hlength
  omega

theorem ne_of_le {c d : Char} (hc : 128 ≤ c.toNat) (hd : d.toNat < 128) : c ≠ d := by
  rintro rfl
  omega

/-- The function treats all characters outside ASCII alike. -/
def SeesAscii {α : Type} (f : Char → α) : Prop :=
  ∀ b c : Char, 128 ≤ b.toNat → 128 ≤ c.toNat → f b = f c

section SeesAscii

variable {α : Type} {f : Char → α} {p q : Char → Bool} {b c d : Char}

/-- Such a function does not tell a character from its bytes. -/
theorem SeesAscii.eq_of_mem (h : SeesAscii f) (hb : b ∈ octetsOf c) : f b = f c := by
  by_cases hc : c.toNat < 128
  · rw [octetsOf_of_lt hc, List.mem_singleton] at hb
    rw [hb]
  · have hle : 128 ≤ c.toNat := Nat.le_of_not_lt hc
    exact h b c (le_of_mem_octetsOf hle hb) hle

theorem SeesAscii.or (hp : SeesAscii p) (hq : SeesAscii q) : SeesAscii fun c => p c || q c := by
  intro b c hb hc
  show (p b || q b) = (p c || q c)
  rw [hp b c hb hc, hq b c hb hc]

theorem SeesAscii.not (hp : SeesAscii p) : SeesAscii fun c => !p c := by
  intro b c hb hc
  show (!p b) = !p c
  rw [hp b c hb hc]

theorem seesAscii_of_forall_lt (h : ∀ c, p c = true → c.toNat < 128) : SeesAscii p := by
  have hfalse : ∀ c, 128 ≤ c.toNat → p c = false := by
    intro c hc
    cases hp : p c with
    | false => rfl
    | true =>
      have := h c hp
      omega
  intro b c hb hc
  rw [hfalse b hb, hfalse c hc]

theorem seesAscii_beq (hd : d.toNat < 128) : SeesAscii (· == d) := by
  refine seesAscii_of_forall_lt ?_
  intro c hc
  rw [eq_of_beq hc]
  exact hd

theorem lt_of_isUpper (h : c.isUpper = true) : c.toNat < 128 := by
  have hbounds : 'A'.val ≤ c.val ∧ c.val ≤ 'Z'.val := of_decide_eq_true h
  have hhigh : c.val.toNat ≤ 90 := UInt32.le_iff_toNat_le.1 hbounds.2
  show c.val.toNat < 128
  omega

theorem seesAscii_isUpper : SeesAscii Char.isUpper :=
  seesAscii_of_forall_lt fun _ => lt_of_isUpper

theorem seesAscii_range {lo hi : UInt32} (h : hi.toNat < 128) :
    SeesAscii fun c => decide (c.val ≥ lo) && decide (c.val ≤ hi) := by
  refine seesAscii_of_forall_lt ?_
  intro c hc
  simp only [Bool.and_eq_true, decide_eq_true_eq] at hc
  have hhigh : c.val.toNat ≤ hi.toNat := UInt32.le_iff_toNat_le.1 hc.2
  exact Nat.lt_of_le_of_lt hhigh h

theorem seesAscii_isAlphanum : SeesAscii Char.isAlphanum :=
  (seesAscii_isUpper.or (seesAscii_range (by decide))).or (seesAscii_range (by decide))

theorem seesAscii_isBlank : SeesAscii isBlank := by
  refine seesAscii_of_forall_lt ?_
  intro c hc
  simp only [isBlank, Bool.or_eq_true, beq_iff_eq] at hc
  rcases hc with (((rfl | rfl) | rfl) | rfl) | rfl <;> decide

end SeesAscii

section Octets

variable {p : Char → Bool} {b c d : Char}

theorem eq_iff_of_mem_octetsOf (hd : d.toNat < 128) (hb : b ∈ octetsOf c) : b = d ↔ c = d := by
  have heq : (b == d) = (c == d) := (seesAscii_beq hd).eq_of_mem hb
  rw [← beq_iff_eq, heq, beq_iff_eq]

theorem mem_octets_iff (hd : d.toNat < 128) (t : Text) : d ∈ octets t ↔ d ∈ t := by
  constructor
  · intro h
    obtain ⟨c, hc, hd'⟩ := List.mem_flatMap.1 h
    rwa [← (eq_iff_of_mem_octetsOf hd hd').1 rfl]
  · intro h
    refine List.mem_flatMap.2 ⟨d, h, ?_⟩
    rw [octetsOf_of_lt hd]
    exact List.mem_singleton_self d

theorem any_octets (h : SeesAscii p) (t : Text) : (octets t)[0]?.any p = t.head?.any p := by
  cases t with
  | nil => rfl
  | cons c t =>
    obtain ⟨b, bs, hbytes⟩ := List.exists_cons_of_ne_nil (octetsOf_ne_nil c)
    have hb : p b = p c := h.eq_of_mem (hbytes ▸ List.mem_cons_self)
    simp [hbytes, hb]

theorem octets_eq_some_iff (hd : d.toNat < 128) (t : Text) :
    (octets t)[0]? = some d ↔ t.head? = some d := by
  have hany : ∀ o : Option Char, o.any (· == d) = true ↔ o = some d := by
    intro o
    cases o <;> simp
  rw [← hany, any_octets (seesAscii_beq hd), hany]

theorem isPrefixOf_octets {front : Text} (hfront : ∀ c ∈ front, c.toNat < 128) (t : Text) :
    front.isPrefixOf (octets t) = front.isPrefixOf t := by
  induction front generalizing t with
  | nil => simp
  | cons d front ih =>
    have hd := hfront d List.mem_cons_self
    cases t with
    | nil => rfl
    | cons c t =>
      by_cases hc : c = d
      · rw [octets_cons, hc, octetsOf_of_lt hd, List.singleton_append, List.isPrefixOf_cons_cons,
          List.isPrefixOf_cons_cons, ih fun e he => hfront e (List.mem_cons_of_mem d he)]
      · obtain ⟨b, bs, hbytes⟩ := List.exists_cons_of_ne_nil (octetsOf_ne_nil c)
        have hb : b ≠ d := by
          rw [Ne, eq_iff_of_mem_octetsOf hd (hbytes ▸ List.mem_cons_self)]
          exact hc
        rw [octets_cons, hbytes, List.cons_append, List.isPrefixOf_cons_cons,
          List.isPrefixOf_cons_cons, beq_false_of_ne hb.symm, beq_false_of_ne (Ne.symm hc),
          Bool.false_and, Bool.false_and]

theorem takeWhile_octets (h : SeesAscii p) (t : Text) :
    (octets t).takeWhile p = octets (t.takeWhile p) := by
  induction t with
  | nil => rfl
  | cons c t ih =>
    by_cases hc : p c = true
    · have hbytes : ∀ b ∈ octetsOf c, p b = true := fun b hb => (h.eq_of_mem hb).trans hc
      rw [octets_cons, List.takeWhile_append_of_pos hbytes, ih, List.takeWhile_cons_of_pos hc,
        octets_cons]
    · obtain ⟨b, bs, hbytes⟩ := List.exists_cons_of_ne_nil (octetsOf_ne_nil c)
      have hb : ¬ p b = true := by
        rw [h.eq_of_mem (hbytes ▸ List.mem_cons_self)]
        exact hc
      rw [octets_cons, hbytes, List.cons_append, List.takeWhile_cons_of_neg hb,
        List.takeWhile_cons_of_neg hc, octets_nil]

end Octets

end Text

/-! ## Readers over bytes -/

namespace Octets

/-- The bytes from `start` up to `stop`. There are none if the bounds are out of order or past the
end. -/
def slice? (bs : Octets) (start stop : Nat) : Option Octets :=
  if start ≤ stop ∧ stop ≤ bs.length then some ((bs.take stop).drop start) else none

/-- The difference of two numbers. There is none if it would be negative. -/
def subtract? (m n : Nat) : Option Nat := if n ≤ m then some (m - n) else none

/-- The first place at `pos` or later where no byte with the given property stands. -/
def skipWhile (p : Char → Bool) (bs : Octets) (pos : Nat) : Nat :=
  pos + ((bs.drop pos).takeWhile p).length

/-- The place of the byte at which an automaton stops, if it does so, for bytes from place `pos` on.
A step of the automaton can fail. -/
def stop? {σ : Type} (step : σ → Char → Option (Option σ)) (s : σ) (pos : Nat) :
    Octets → Option (Option Nat)
  | [] => some none
  | b :: bs => do
    match ← step s b with
    | none => return some pos
    | some s' => stop? step s' (pos + 1) bs

/-- The place of the last `d`. -/
def lastIdx? (d : Char) : Octets → Option Nat
  | [] => none
  | b :: bs =>
    match lastIdx? d bs with
    | some i => some (i + 1)
    | none => if b = d then some 0 else none

theorem lt_length_of_any {p : Char → Bool} {bs : Octets} {pos : Nat}
    (h : bs[pos]?.any p = true) : pos < bs.length := by
  refine Nat.lt_of_not_le fun hle => ?_
  rw [List.getElem?_eq_none hle] at h
  cases h

section Readers

variable {σ σ' : Type} {p : Char → Bool} {bs front : Octets} {d : Char} {before t u : Text}

open Text (octets byteSize SeesAscii octetsOf)

/-- In the states that it can get into, the automaton does the same at all characters outside ASCII,
and at the second of two such characters it stays in its state. -/
structure Steady (next : σ → Char → Option σ) (reaches : σ → Prop) : Prop where
  keeps : ∀ s s' c, reaches s → next s c = some s' → reaches s'
  steady : ∀ s, reaches s →
    ∃ s', ∀ c : Char, 128 ≤ c.toNat → next s c = some s' ∧ next s' c = some s'

/-- A steady automaton does over the bytes of a character what it does at the character. -/
theorem stop?_append {next : σ → Char → Option σ} {step : σ' → Char → Option (Option σ')}
    {f : σ → σ'} (hstep : ∀ s b, step (f s) b = some ((next s b).map f)) {s s' : σ}
    (hs : ∀ c : Char, 128 ≤ c.toNat → next s c = some s' ∧ next s' c = some s')
    (hfront : ∀ b ∈ front, 128 ≤ b.toNat) (hne : front ≠ []) (pos : Nat) (bs : Octets) :
    stop? step (f s) pos (front ++ bs) = stop? step (f s') (pos + front.length) bs := by
  induction front generalizing s pos with
  | nil => exact absurd rfl hne
  | cons b front ih =>
    obtain ⟨hfirst, hagain⟩ := hs b (hfront b List.mem_cons_self)
    have hstep' : stop? step (f s) pos (b :: front ++ bs) =
        stop? step (f s') (pos + 1) (front ++ bs) := by
      rw [List.cons_append, stop?, hstep, hfirst]
      rfl
    rw [hstep']
    cases front with
    | nil => rfl
    | cons d front =>
      have hrest : ∀ b ∈ d :: front, 128 ≤ b.toNat := fun b hb =>
        hfront b (List.mem_cons_of_mem _ hb)
      have hs' : ∀ c : Char, 128 ≤ c.toNat → next s' c = some s' ∧ next s' c = some s' :=
        fun c hc => ⟨(hs c hc).2, (hs c hc).2⟩
      rw [ih hs' hrest (List.cons_ne_nil d front), List.length_cons (a := b)]
      congr 1
      omega

/-- Let each step of a reader over bytes be the step of an automaton over characters. If the
automaton is steady, the reader stops at the place where the automaton cuts the text. -/
theorem stop?_octets {next : σ → Char → Option σ} {reaches : σ → Prop}
    {step : σ' → Char → Option (Option σ')} {f : σ → σ'}
    (hstep : ∀ s b, step (f s) b = some ((next s b).map f)) (h : Steady next reaches) {s : σ}
    (hs : reaches s) (pos : Nat) (t : Text) :
    stop? step (f s) pos (octets t) =
      some ((Text.cut next s t).map fun x => pos + byteSize x.1) := by
  induction t generalizing s pos with
  | nil => rfl
  | cons c t ih =>
    rw [Text.octets_cons]
    have hshift : ∀ s' n, n = pos + c.utf8Size → next s c = some s' →
        stop? step (f s') n (octets t) =
          some ((Text.cut next s (c :: t)).map fun x => pos + byteSize x.1) := by
      rintro s' n rfl hnext
      rw [ih (h.keeps s s' c hs hnext)]
      simp only [Text.cut_cons, hnext, Option.map_map]
      congr 2
      funext x
      simp only [Function.comp_apply, Text.byteSize_cons]
      omega
    by_cases hc : c.toNat < 128
    · rw [Text.octetsOf_of_lt hc, List.singleton_append, stop?, hstep]
      cases hnext : next s c with
      | none =>
        simp only [Text.cut_cons, hnext]
        rfl
      | some s' => exact hshift s' (pos + 1) (by rw [Text.utf8Size_of_lt hc]) hnext
    · -- The first byte does what the character does, and the others change nothing.
      have hle : 128 ≤ c.toNat := Nat.le_of_not_lt hc
      obtain ⟨s', hs'⟩ := h.steady s hs
      rw [stop?_append hstep hs' (fun b hb => Text.le_of_mem_octetsOf hle hb)
        (Text.octetsOf_ne_nil c), Text.length_octetsOf]
      exact hshift s' _ rfl (hs' c hle).1

theorem quote_of_le {q c : Char} (hq : Delimiter.isQuote q = true) (hc : 128 ≤ c.toNat)
    (escaped : Bool) : Delimiter.quote q escaped c = some false := by
  have hslash : c ≠ '\\' := Text.ne_of_le hc (by decide)
  have hne : c ≠ q := by
    rcases Delimiter.eq_of_isQuote hq with rfl | rfl
    · exact Text.ne_of_le hc (by decide)
    · exact Text.ne_of_le hc (by decide)
  simp [Delimiter.quote, hslash, hne]

theorem brace_of_le {c : Char} (hc : 128 ≤ c.toNat) (inner : Nat) :
    Delimiter.brace inner c = some inner :=
  Delimiter.brace_of_ne inner (Text.ne_of_le hc (by decide)) (Text.ne_of_le hc (by decide))

theorem steady_quote {q : Char} (hq : Delimiter.isQuote q = true) :
    Steady (Delimiter.quote q) fun _ => True where
  keeps _ _ _ _ _ := trivial
  steady escaped _ :=
    ⟨false, fun _ hc => ⟨quote_of_le hq hc escaped, quote_of_le hq hc false⟩⟩

theorem steady_brace : Steady Delimiter.brace fun _ => True where
  keeps _ _ _ _ _ := trivial
  steady inner _ := ⟨inner, fun _ hc => ⟨brace_of_le hc inner, brace_of_le hc inner⟩⟩

theorem idxOf?_append (h : d ∉ front) (bs : Octets) :
    (front ++ bs).idxOf? d = (bs.idxOf? d).map (front.length + ·) := by
  induction front with
  | nil => simp
  | cons b front ih =>
    rw [List.mem_cons, not_or] at h
    have hb : ¬ (b == d) = true := by simpa using Ne.symm h.1
    rw [List.cons_append, List.idxOf?_cons, if_neg hb, ih h.2, Option.map_map, List.length_cons]
    congr 1
    funext i
    simp only [Function.comp_apply]
    omega

theorem idxOf?_octets (hd : d.toNat < 128) (t : Text) :
    (octets t).idxOf? d = (Text.cutAt d t).map fun x => byteSize x.1 := by
  induction t with
  | nil => rfl
  | cons c t ih =>
    rw [Text.octets_cons, Text.cutAt]
    simp only [Text.cut_cons]
    by_cases hc : c = d
    · rw [hc, Text.octetsOf_of_lt hd, List.singleton_append, List.idxOf?_cons,
        if_pos (beq_self_eq_true d), if_pos rfl]
      rfl
    · have hnot : d ∉ octetsOf c := fun hmem => hc ((Text.eq_iff_of_mem_octetsOf hd hmem).1 rfl)
      rw [idxOf?_append hnot, ih, if_neg hc, Option.map_map, Option.map_map, Text.length_octetsOf]
      rfl

theorem lastIdx?_eq_none (h : d ∉ bs) : lastIdx? d bs = none := by
  induction bs with
  | nil => rfl
  | cons b bs ih =>
    rw [List.mem_cons, not_or] at h
    rw [lastIdx?, ih h.2]
    exact if_neg (Ne.symm h.1)

theorem lt_length_of_lastIdx? {i : Nat} (h : lastIdx? d bs = some i) : i < bs.length := by
  induction bs generalizing i with
  | nil => cases h
  | cons b bs ih =>
    rw [lastIdx?] at h
    cases hlater : lastIdx? d bs with
    | some j =>
      have hj := ih hlater
      rw [hlater] at h
      rw [← Option.some.inj h, List.length_cons]
      omega
    | none =>
      simp only [hlater, Option.ite_none_right_eq_some, Option.some.injEq] at h
      rw [← h.2]
      exact Nat.succ_pos _

theorem lastIdx?_append (h : d ∉ bs) (front : Octets) :
    lastIdx? d (front ++ bs) = lastIdx? d front := by
  induction front with
  | nil => exact lastIdx?_eq_none h
  | cons b front ih => rw [List.cons_append, lastIdx?, lastIdx?, ih]

theorem lastIdx?_append_left (h : d ∉ front) (bs : Octets) :
    lastIdx? d (front ++ bs) = (lastIdx? d bs).map (· + front.length) := by
  induction front with
  | nil => simp
  | cons b front ih =>
    rw [List.mem_cons, not_or] at h
    rw [List.cons_append, lastIdx?, ih h.2, List.length_cons]
    cases lastIdx? d bs with
    | none => exact if_neg (Ne.symm h.1)
    | some i => rfl

theorem lastIdx?_append_cons (h : d ∉ bs) (front : Octets) :
    lastIdx? d (front ++ d :: bs) = some front.length := by
  induction front with
  | nil =>
    rw [List.nil_append, lastIdx?, lastIdx?_eq_none h]
    exact if_pos rfl
  | cons b front ih =>
    rw [List.cons_append, lastIdx?, ih]
    rfl

end Readers

end Octets

/-! ## Places -/

/-- From byte `pos` on, the text is `t`. -/
def Text.RestAt (text : Text) (pos : Nat) (t : Text) : Prop :=
  ∃ before, text = before ++ t ∧ Text.byteSize before = pos

namespace Text.RestAt

variable {text s t : Text} {pos : Nat} {p : Char → Bool} {c d : Char}

theorem zero (text : Text) : RestAt text 0 text := ⟨[], rfl, rfl⟩

theorem append (h : RestAt text pos (s ++ t)) : RestAt text (pos + byteSize s) t := by
  obtain ⟨before, rfl, rfl⟩ := h
  exact ⟨before ++ s, (List.append_assoc before s t).symm, byteSize_append before s⟩

theorem cons (h : RestAt text pos (c :: t)) : RestAt text (pos + c.utf8Size) t :=
  append (s := [c]) h

theorem cons_of_lt (h : RestAt text pos (c :: t)) (hc : c.toNat < 128) :
    RestAt text (pos + 1) t := by
  rw [← utf8Size_of_lt hc]
  exact h.cons

theorem append_right (h : RestAt text pos t) (u : Text) : RestAt (text ++ u) pos (t ++ u) := by
  obtain ⟨before, rfl, hsize⟩ := h
  exact ⟨before, List.append_assoc before t u, hsize⟩

theorem progress (h : RestAt text pos (s ++ t)) (hs : s ≠ []) :
    pos < pos + byteSize s ∧ pos + byteSize s ≤ byteSize text := by
  obtain ⟨before, rfl, rfl⟩ := h
  obtain ⟨c, s, rfl⟩ := List.exists_cons_of_ne_nil hs
  have hpos := c.utf8Size_pos
  simp only [Text.byteSize_append, Text.byteSize_cons]
  omega

theorem byteSize_eq (h : RestAt text pos t) : byteSize text = pos + byteSize t := by
  obtain ⟨before, rfl, rfl⟩ := h
  exact byteSize_append before t

theorem drop_eq (h : RestAt text pos t) : (octets text).drop pos = octets t := by
  obtain ⟨before, rfl, rfl⟩ := h
  rw [octets_append, ← length_octets before, List.drop_left]

theorem getElem?_eq (h : RestAt text pos t) (n : Nat) :
    (octets text)[pos + n]? = (octets t)[n]? := by
  rw [← h.drop_eq, List.getElem?_drop]

theorem octet_eq (h : RestAt text pos t) : (octets text)[pos]? = (octets t)[0]? := h.getElem?_eq 0

theorem exists_octet (h : RestAt text pos (c :: t)) :
    ∃ b ∈ octetsOf c, (octets text)[pos]? = some b := by
  obtain ⟨b, bs, hbytes⟩ := List.exists_cons_of_ne_nil (octetsOf_ne_nil c)
  refine ⟨b, hbytes ▸ List.mem_cons_self, ?_⟩
  rw [h.octet_eq, octets_cons, hbytes]
  rfl

theorem slice?_eq (h : RestAt text pos (s ++ t)) :
    slice? text pos (pos + byteSize s) = some s := by
  obtain ⟨before, rfl, rfl⟩ := h
  exact slice?_append before s t

theorem drop_take_eq (h : RestAt text pos (s ++ t)) :
    ((octets text).take (pos + byteSize s)).drop pos = octets s := by
  rw [List.drop_take, h.drop_eq, Nat.add_sub_cancel_left, octets_append, ← length_octets s,
    List.take_left]

theorem octets_slice?_eq (h : RestAt text pos t) :
    Octets.slice? (octets text) pos (octets text).length = some (octets t) := by
  have hle : pos ≤ (octets text).length := by
    rw [length_octets, h.byteSize_eq]
    omega
  rw [Octets.slice?, if_pos ⟨hle, Nat.le_refl _⟩, List.take_length, h.drop_eq]

theorem skipWhile_eq (h : RestAt text pos t) (hp : SeesAscii p) :
    Octets.skipWhile p (octets text) pos = pos + byteSize (t.takeWhile p) := by
  rw [Octets.skipWhile, h.drop_eq, takeWhile_octets hp, length_octets]

theorem dropWhile (h : RestAt text pos t) (p : Char → Bool) :
    RestAt text (pos + byteSize (t.takeWhile p)) (t.dropWhile p) := by
  refine append (s := t.takeWhile p) ?_
  rwa [List.takeWhile_append_dropWhile]

theorem seek_eq (h : RestAt text pos t) : Text.seek pos 0 text = (pos, t) := by
  obtain ⟨before, rfl, rfl⟩ := h
  have hseek : ∀ start, Text.seek (start + byteSize before) start (before ++ t) =
      (start + byteSize before, t) := by
    induction before with
    | nil =>
      intro start
      cases t with
      | nil => rfl
      | cons c t => exact if_pos (Nat.le_refl start)
    | cons c before ih =>
      intro start
      have hpos := c.utf8Size_pos
      rw [List.cons_append, Text.seek, Text.byteSize_cons, if_neg (by omega), ← Nat.add_assoc]
      exact ih (start + c.utf8Size)
  simpa using hseek 0

/-- A function of places that does not tell the bytes of a character from the ones behind them gives
for each of them what it gives behind the character. -/
theorem skip_char {α : Type} {f : Nat → α} {q : Char → Prop} {start : Nat}
    (h : RestAt text start (c :: t))
    (hf : ∀ pos b, (octets text)[pos]? = some b → q b → f pos = f (pos + 1))
    (hq : ∀ b ∈ octetsOf c, q b) {n : Nat} (hn : n ≤ c.utf8Size) :
    f (start + c.utf8Size - n) = f (start + c.utf8Size) := by
  induction n with
  | zero => rfl
  | succ n ih =>
    have hsucc : start + c.utf8Size - n = start + c.utf8Size - (n + 1) + 1 := by omega
    have hlt : c.utf8Size - (n + 1) < (octetsOf c).length := by
      rw [length_octetsOf]
      omega
    have hb : (octets text)[start + c.utf8Size - (n + 1)]? =
        (octetsOf c)[c.utf8Size - (n + 1)]? := by
      rw [Nat.add_sub_assoc hn, h.getElem?_eq, octets_cons, List.getElem?_append_left hlt]
    rw [List.getElem?_eq_getElem hlt] at hb
    rw [← ih (by omega), hsucc]
    exact hf _ _ hb (hq _ (List.getElem_mem hlt))

end Text.RestAt

end ErbTags
