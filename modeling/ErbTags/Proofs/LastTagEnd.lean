import ErbTags.Proofs.PrintedTags
import ErbTags.Proofs.ValueEnds

/-!
# Text behind the last tag

A tag ends at a `>`. What stands behind the last `>` of a text takes no part in reading a tag from
it (`Tag.read?_append_of_mem`): the readers of names, of blanks and of the text inside a tag all
stop at the `>` or before it. So a scanner may search a template as a whole or only the part of it
up to the last `>`, which is what `Scanner.searchable` gives.
-/

namespace ErbTags

section Behind

variable {t u : Text} {d : Char} {p : Char → Bool}

/-! ## Names -/

theorem Name.read?_cons {c : Char} (hc : c.isUpper = true) (t : Text) :
    Name.read? (c :: t) = some (c :: (Name.continuation t).1, (Name.continuation t).2) := by
  simp only [Name.read?, if_pos hc]

theorem Name.read?_of_head (h : t.head?.any Char.isUpper = false) : Name.read? t = none := by
  cases t with
  | nil => rfl
  | cons c t =>
    have hc : ¬ c.isUpper = true := by simpa using h
    simp only [Name.read?, if_neg hc]

theorem Name.continuation_colons {c : Char} (hc : c.isUpper = true) (t : Text) :
    Name.continuation (':' :: ':' :: c :: t) =
      (':' :: ':' :: c :: (Name.continuation t).1, (Name.continuation t).2) := by
  rw [Name.continuation, if_pos hc]

theorem mem_of_mem_cons {c : Char} (h : d ∈ c :: t) (hc : p c = true) (hd : p d = false) :
    d ∈ t := by
  refine (List.mem_cons.1 h).resolve_left ?_
  rintro rfl
  rw [hd] at hc
  cases hc

theorem Name.continuation_append_of_mem (h : '>' ∈ t) (u : Text) :
    Name.continuation (t ++ u) = ((Name.continuation t).1, (Name.continuation t).2 ++ u) := by
  fun_induction Name.continuation t with
  | case1 c t hc name rest heq ih =>
    have hmem := List.mem_of_ne_of_mem (by decide) (List.mem_of_ne_of_mem (by decide) h)
    have hlater := ih (mem_of_mem_cons hmem hc (by decide))
    rw [heq] at hlater
    rw [List.cons_append, List.cons_append, List.cons_append, Name.continuation_colons hc, hlater]
  | case2 c t hc =>
    rw [List.cons_append, List.cons_append, List.cons_append, Name.continuation, if_neg hc]
  | case3 c t hcolons hc name rest heq ih =>
    have hlater := ih (mem_of_mem_cons h hc (by decide))
    rw [heq] at hlater
    rw [List.cons_append, Name.continuation_cons hc, hlater]
  | case4 c t hcolons hc =>
    rw [List.cons_append, Name.continuation.eq_def]
    split
    · next d v heq =>
      -- Two colons that go on behind `t` would leave no `>` in it.
      obtain ⟨rfl, htail⟩ := List.cons.inj heq
      cases t with
      | nil => exact absurd h (by decide)
      | cons e t =>
        cases t with
        | nil =>
          obtain ⟨rfl, -⟩ := List.cons.inj htail
          exact absurd h (by decide)
        | cons f t =>
          obtain ⟨rfl, -⟩ := List.cons.inj htail
          exact absurd rfl (hcolons f t rfl)
    · next heq =>
      obtain ⟨rfl, rfl⟩ := List.cons.inj heq
      rw [if_neg hc]
    · next heq => cases heq
  | case5 => cases h

theorem Name.read?_append_of_mem (h : '>' ∈ t) (u : Text) :
    Name.read? (t ++ u) = (Name.read? t).map fun x => (x.1, x.2 ++ u) := by
  cases t with
  | nil => cases h
  | cons c t =>
    by_cases hc : c.isUpper = true
    · have hmem := mem_of_mem_cons h hc (by decide)
      rw [List.cons_append, Name.read?_cons hc, Name.read?_cons hc,
        Name.continuation_append_of_mem hmem]
      rfl
    · rw [Name.read?_of_head (by simpa using hc), Name.read?_of_head (by simpa using hc)]
      rfl

/-- No `>` stands in a name, so that of a text stands behind it. -/
theorem mem_of_read? {name rest : Text} (h : '>' ∈ t) (hread : Name.read? t = some (name, rest)) :
    '>' ∈ rest := by
  rw [Name.eq_append_of_read? hread, List.mem_append] at h
  refine h.resolve_left ?_
  intro hmem
  rcases (Name.isName_of_read? hread).isWordChar_or_colon '>' hmem with hword | hcolon
  · exact absurd hword (by decide)
  · exact absurd hcolon (by decide)

/-! ## Tags -/

theorem dropWhile_ne_nil_of_mem (hd : d ∈ t) (hp : p d = false) : t.dropWhile p ≠ [] := by
  intro hnil
  have hall := List.dropWhile_eq_nil_iff.1 hnil d hd
  rw [hp] at hall
  cases hall

theorem dropWhile_append_of_mem (hd : d ∈ t) (hp : p d = false) (u : Text) :
    (t ++ u).dropWhile p = t.dropWhile p ++ u ∧ (t ++ u).takeWhile p = t.takeWhile p := by
  have hne := dropWhile_ne_nil_of_mem hd hp
  have hempty : ¬ (t.dropWhile p).isEmpty = true := by simpa using hne
  have hlength : (t.takeWhile p).length ≠ t.length := by
    intro heq
    have hsplit := congrArg List.length (List.takeWhile_append_dropWhile (p := p) (l := t))
    rw [List.length_append] at hsplit
    exact hne (List.length_eq_zero_iff.1 (by omega))
  rw [List.dropWhile_append, if_neg hempty, List.takeWhile_append, if_neg hlength]
  exact ⟨rfl, rfl⟩

theorem Tag.readClosing?_eq_none {start : Nat} (h : ∀ t', t ≠ '/' :: t') :
    Tag.readClosing? start t = none := by
  unfold Tag.readClosing?
  split
  · next t' => exact absurd rfl (h t')
  · rfl

theorem Tag.readClosing?_append_of_mem (h : '>' ∈ t) (start : Nat) (u : Text) :
    Tag.readClosing? start (t ++ u) =
      (Tag.readClosing? start t).map fun x => (x.1, x.2 ++ u) := by
  cases t with
  | nil => cases h
  | cons c t =>
    by_cases hc : c = '/'
    · subst hc
      have hmem : '>' ∈ t := List.mem_of_ne_of_mem (by decide) h
      rw [List.cons_append, Tag.readClosing?, Tag.readClosing?, Name.read?_append_of_mem hmem]
      cases hread : Name.read? t with
      | none => rfl
      | some x =>
        obtain ⟨name, rest⟩ := x
        obtain ⟨hdrop, htake⟩ :=
          dropWhile_append_of_mem (p := Text.isBlank) (mem_of_read? hmem hread) (by decide) u
        simp only [Option.map_some, Option.bind_eq_bind, Option.bind_some, hdrop, htake]
        obtain ⟨e, v, hbehind⟩ := List.exists_cons_of_ne_nil
          (dropWhile_ne_nil_of_mem (p := Text.isBlank) (mem_of_read? hmem hread) (by decide))
        rw [hbehind, List.cons_append]
        by_cases he : e = '>'
        · subst he
          rfl
        · split
          · next heq => exact absurd (List.cons.inj heq).1 he
          · split
            · next heq => exact absurd (List.cons.inj heq).1 he
            · rfl
    · have hnone : ∀ v, Tag.readClosing? start (c :: v) = none := fun v =>
        Tag.readClosing?_eq_none fun t' heq => hc (List.cons.inj heq).1
      rw [List.cons_append, hnone, hnone]
      rfl

/-- Text behind the last possible delimiter takes no part in cutting. -/
theorem Text.cut_append_of_notMem {σ : Type} {next : σ → Char → Option σ} {d : Char} {u : Text}
    (hnext : ∀ s c, next s c = none → c = d) (hu : d ∉ u) (s : σ) (t : Text) :
    Text.cut next s (t ++ u) = (Text.cut next s t).map fun x => (x.1, x.2 ++ u) := by
  induction t generalizing s with
  | nil =>
    cases hcut : Text.cut next s u with
    | none => exact hcut
    | some x =>
      obtain ⟨before, after⟩ := x
      obtain ⟨s', c, hc, rfl⟩ := Text.exists_of_cut hcut
      exact absurd (by simp [hnext s' c hc]) hu
  | cons c t ih =>
    simp only [List.cons_append, Text.cut_cons]
    cases next s c with
    | none => rfl
    | some s' =>
      simp only [ih, Option.map_map]
      rfl

theorem Tag.innerText?_append (hu : '>' ∉ u) (exhausted : Bool) (t : Text) :
    Tag.innerText? exhausted (t ++ u) =
      (Tag.innerText? exhausted t).map fun x => (x.1, x.2.1 ++ u, x.2.2) := by
  have htag : Delimiter.tagEnd? (t ++ u) =
      (Delimiter.tagEnd? t).map fun x => (x.1, x.2 ++ u) :=
    Text.cut_append_of_notMem (fun _ _ => Delimiter.eq_of_tagEnd_eq_none) hu _ t
  have hfirst : Delimiter.firstTagEnd? (t ++ u) =
      (Delimiter.firstTagEnd? t).map fun x => (x.1, x.2 ++ u) := by
    refine Text.cut_append_of_notMem ?_ hu _ t
    intro _ c hc
    by_contra hne
    rw [if_neg hne] at hc
    cases hc
  rw [Tag.innerText?, Tag.innerText?, htag, hfirst]
  cases exhausted with
  | true => cases Delimiter.firstTagEnd? t <;> rfl
  | false =>
    cases Delimiter.tagEnd? t with
    | some x => rfl
    | none => cases Delimiter.firstTagEnd? t <;> rfl

theorem Tag.readOpening?_eq_none {exhausted : Bool} {start : Nat} {c : Char} {name rest : Text}
    (hname : Name.read? t = some (name, c :: rest)) (hgt : c ≠ '>')
    (hslash : ¬ (c = '/' ∧ rest.head? = some '>')) (hblank : ¬ Text.isBlank c = true) :
    Tag.readOpening? exhausted start t = none := by
  simp only [Tag.readOpening?, hname, Option.bind_eq_bind, Option.bind_some]
  split
  · next heq => exact absurd (List.cons.inj heq).1 hgt
  · next heq =>
    obtain ⟨rfl, rfl⟩ := List.cons.inj heq
    exact absurd ⟨rfl, rfl⟩ hslash
  · next heq =>
    obtain ⟨rfl, rfl⟩ := List.cons.inj heq
    exact if_neg hblank
  · next heq => cases heq

theorem Tag.readOpening?_append_of_mem (h : '>' ∈ t) (hu : '>' ∉ u) (exhausted : Bool)
    (start : Nat) :
    Tag.readOpening? exhausted start (t ++ u) =
      (Tag.readOpening? exhausted start t).map fun x => (x.1, x.2.1 ++ u, x.2.2) := by
  have hname := Name.read?_append_of_mem h u
  cases hread : Name.read? t with
  | none =>
    rw [Tag.readOpening?, Tag.readOpening?, hname, hread]
    rfl
  | some x =>
    obtain ⟨name, rest⟩ := x
    have hmem := mem_of_read? h hread
    rw [hread] at hname
    cases rest with
    | nil => cases hmem
    | cons c rest =>
      by_cases hgt : c = '>'
      · subst hgt
        rw [Tag.readOpening?, Tag.readOpening?, hname, hread]
        rfl
      · -- The `>` stands behind `c`, so `u` is not next to it.
        obtain ⟨d, rest, rfl⟩ : ∃ d v, rest = d :: v := by
          cases rest with
          | nil => exact absurd (List.mem_singleton.1 hmem).symm hgt
          | cons d v => exact ⟨d, v, rfl⟩
        replace hname : Name.read? (t ++ u) = some (name, c :: d :: (rest ++ u)) := hname
        by_cases hslash : c = '/' ∧ d = '>'
        · obtain ⟨rfl, rfl⟩ := hslash
          rw [Tag.readOpening?, Tag.readOpening?, hname, hread]
          rfl
        · by_cases hc : Text.isBlank c = true
          · rw [PrintedTag.readOpening?_of_isBlank hname hc,
              PrintedTag.readOpening?_of_isBlank hread hc]
            have hinner := Tag.innerText?_append hu exhausted (c :: d :: rest)
            rw [List.cons_append, List.cons_append] at hinner
            rw [hinner, Option.map_map, Option.map_map]
            rfl
          · rw [Tag.readOpening?_eq_none hname hgt (by simpa using hslash) hc,
              Tag.readOpening?_eq_none hread hgt (by simpa using hslash) hc]
            rfl

/-- Text behind the last `>` takes no part in reading a tag. -/
theorem Tag.read?_append_of_mem (h : '>' ∈ t) (hu : '>' ∉ u) (exhausted : Bool) (start : Nat) :
    Tag.read? exhausted start (t ++ u) =
      (Tag.read? exhausted start t).map fun x => (x.1, x.2.1 ++ u, x.2.2) := by
  rw [Tag.read?, Tag.read?, Tag.readClosing?_append_of_mem h,
    Tag.readOpening?_append_of_mem h hu]
  cases Tag.readClosing? start t <;> rfl

end Behind

/-! ## Scanners -/

namespace Scanner

variable {t : Text}

theorem exists_last_of_mem {d : Char} {t : Text} (h : d ∈ t) :
    ∃ body tail, t = body ++ d :: tail ∧ d ∉ tail := by
  obtain ⟨tail, body, hsplit, htail⟩ := List.eq_append_cons_of_mem (List.mem_reverse.2 h)
  refine ⟨body.reverse, tail.reverse, ?_, by rwa [List.mem_reverse]⟩
  rw [← List.reverse_reverse t, hsplit]
  simp

theorem searchable_of_notMem (h : '>' ∉ t) : (Scanner.searchable t).1 = [] := by
  have hall : ∀ c ∈ t.reverse, decide (c ≠ '>') = true := by
    intro c hc
    refine decide_eq_true ?_
    rintro rfl
    exact h (List.mem_reverse.1 hc)
  rw [Scanner.searchable, Text.splitLast, List.dropWhile_eq_nil_iff.2 hall, List.reverse_nil]

theorem searchable_append {body tail : Text} (h : '>' ∉ tail) :
    (Scanner.searchable (body ++ '>' :: tail)).1 = body ++ ['>'] := by
  have hall : ∀ c ∈ tail.reverse, decide (c ≠ '>') = true := by
    intro c hc
    refine decide_eq_true ?_
    rintro rfl
    exact h (List.mem_reverse.1 hc)
  rw [Scanner.searchable, Text.splitLast, List.reverse_append, List.reverse_cons,
    List.append_assoc, List.dropWhile_append_of_pos hall]
  simp

theorem next_eq (m : Scanner) (offset : Nat) :
    m.next offset =
      ((findTag? m.exhausted (Text.seek offset 0 m.text).1 (Text.seek offset 0 m.text).2).map
        Found.tag,
      ⟨m.text, ((findTag? m.exhausted (Text.seek offset 0 m.text).1
        (Text.seek offset 0 m.text).2).map Found.exhausted).getD m.exhausted⟩) := by
  rw [Scanner.next]
  cases hfind : findTag? m.exhausted (Text.seek offset 0 m.text).1
      (Text.seek offset 0 m.text).2 with
  | none => simp [hfind]
  | some f => simp [hfind]

end Scanner

end ErbTags
