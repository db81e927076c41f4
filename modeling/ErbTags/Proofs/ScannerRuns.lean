import ErbTags.Proofs.LastTagEnd
import ErbTags.Proofs.Octets

/-!
# Running a scanner over a template

A scanner is asked for one tag after the other, from where the last one stops (`Scanner.drive`).
What it finds in that way are the tags of the template (`Scanner.drive_ofText`).

From tag to tag it remembers whether the search for the end of some tag came to the last `>` inside
a value. The tags are compared here with those that are found by searches without a memory
(`afresh`). Up to the first tag that is left open (`Found.leftOpen`) the two are the same; behind it
every tag ends at its first `>` (`drive_follows_afresh`).
-/

namespace ErbTags

open Delimiter
open Text (RestAt)

/-! ## One tag after the other -/

namespace Scanner

variable {s s' : Scanner} {offset cursor : Nat} {tag : Tag} {t : Text}

theorem next_progress (h : s.next offset = (some tag, s')) :
    s'.text = s.text ∧ offset < tag.stop ∧ tag.stop ≤ Text.byteSize s.text := by
  have htext : s'.text = s.text := by
    rw [next_eq] at h
    rw [← (Prod.mk.inj h).2]
  have htag : ((⟨s.text, s.exhausted⟩ : Scanner).next offset).1 = some tag := by
    rw [h]
  obtain ⟨hle, -, before, rest, hsplit, hstart, -, -⟩ := spelled_of_next htag
  have hlt := tag.start_lt_stop
  have hsize := congrArg Text.byteSize hsplit
  rw [Text.byteSize_append, Text.byteSize_append] at hsize
  refine ⟨htext, by omega, ?_⟩
  unfold Tag.stop
  omega

/-- The tags that a scanner finds from byte `offset` on, each looked for from where the one before
stops. -/
def drive (s : Scanner) (offset : Nat) : List Tag :=
  match _h : s.next offset with
  | (none, _) => []
  | (some tag, s') => tag :: s'.drive tag.stop
termination_by Text.byteSize s.text - offset
decreasing_by
  obtain ⟨htext, hlt, hle⟩ := next_progress ‹_›
  rw [htext]
  omega

theorem next_of_restAt (h : RestAt s.text cursor t) :
    s.next cursor = ((findTag? s.exhausted cursor t).map Found.tag,
      ⟨s.text, ((findTag? s.exhausted cursor t).map Found.exhausted).getD s.exhausted⟩) := by
  rw [next_eq, h.seek_eq]

end Scanner

theorem segmentsFrom_of_none {exhausted : Bool} {start : Nat} {t : Text}
    (h : findTag? exhausted start t = none) : (segmentsFrom exhausted start t).1 = [] := by
  rw [segmentsFrom]
  split
  · rfl
  · next hfind => cases h.symm.trans hfind

theorem segmentsFrom_of_some {exhausted : Bool} {start : Nat} {t : Text} {f : Found}
    (h : findTag? exhausted start t = some f) :
    (segmentsFrom exhausted start t).1 =
      ⟨f.gap, f.tag⟩ :: (segmentsFrom f.exhausted f.tag.stop f.rest).1 := by
  rw [segmentsFrom]
  split
  · next hfind => cases h.symm.trans hfind
  · next f' hfind =>
    obtain rfl : f = f' := Option.some.inj (h.symm.trans hfind)
    rfl

/-- A tag that is found stands in the text, and so does what is left behind it. -/
theorem restAt_of_findTag? {exhausted : Bool} {start : Nat} {text t : Text} {f : Found}
    (h : RestAt text start t) (hfind : findTag? exhausted start t = some f) :
    RestAt text f.tag.start (f.tag.text ++ f.rest) ∧ RestAt text f.tag.stop f.rest := by
  rw [text_of_findTag? hfind] at h
  have htag := h.append
  rw [← start_of_findTag? hfind] at htag
  exact ⟨htag, htag.append⟩

namespace Scanner

/-- From a place between characters on, a scanner finds the tags of the text from there on. -/
theorem drive_of_restAt {s : Scanner} {exhausted : Bool} {cursor : Nat} {t : Text}
    (hs : s.exhausted = exhausted) (h : RestAt s.text cursor t) :
    s.drive cursor = (segmentsFrom exhausted cursor t).1.map Segment.tag := by
  fun_induction segmentsFrom exhausted cursor t generalizing s with
  | case1 exhausted cursor t hfind =>
    have hnext := next_of_restAt h
    rw [hs, hfind] at hnext
    rw [drive]
    split
    · rfl
    · next hnext' => cases hnext.symm.trans hnext'
  | case2 exhausted cursor t f hfind segments tail heq ih =>
    rw [heq] at ih
    have hnext := next_of_restAt h
    rw [hs, hfind] at hnext
    have hrest := (restAt_of_findTag? h hfind).2
    rw [drive]
    split
    · next hnext' => cases hnext.symm.trans hnext'
    · next tag s' hnext' =>
      obtain ⟨htag, rfl⟩ := Prod.mk.inj (hnext.symm.trans hnext')
      obtain rfl : f.tag = tag := Option.some.inj htag
      have hlater := ih (s := ⟨s.text, f.exhausted⟩) rfl hrest
      exact congrArg (f.tag :: ·) hlater

/-- A new scanner finds the tags of the template. -/
theorem drive_ofText (t : Text) : (ofText t).drive 0 = tags t :=
  drive_of_restAt rfl (RestAt.zero _)

end Scanner

/-! ## Where a tag ends -/

theorem Text.cutAt_eq_some_iff {d : Char} {t before after : Text} :
    Text.cutAt d t = some (before, after) ↔ t = before ++ d :: after ∧ d ∉ before := by
  induction t generalizing before after with
  | nil => simp [Text.cutAt]
  | cons c t ih =>
    unfold Text.cutAt at ih ⊢
    rw [Text.cut_cons]
    by_cases hc : c = d
    · rw [if_pos hc]
      constructor
      · intro h
        obtain ⟨rfl, rfl⟩ := Prod.mk.inj (Option.some.inj h)
        exact ⟨by rw [hc]; rfl, List.not_mem_nil⟩
      · rintro ⟨hsplit, hnot⟩
        cases before with
        | nil => rw [(List.cons.inj hsplit).2]
        | cons e before =>
          rw [← (List.cons.inj hsplit).1, hc] at hnot
          exact absurd List.mem_cons_self hnot
    · rw [if_neg hc]
      simp only [Option.map_eq_some_iff, Prod.mk.injEq, Prod.exists, ih]
      constructor
      · rintro ⟨front, _, ⟨rfl, hnot⟩, rfl, rfl⟩
        refine ⟨rfl, ?_⟩
        intro hmem
        rcases List.mem_cons.1 hmem with rfl | hmem
        · exact hc rfl
        · exact hnot hmem
      · rintro ⟨hsplit, hnot⟩
        cases before with
        | nil => exact absurd (List.cons.inj hsplit).1 hc
        | cons e before =>
          obtain ⟨rfl, rfl⟩ := List.cons.inj hsplit
          exact ⟨before, after, ⟨rfl, fun hmem => hnot (List.mem_cons_of_mem c hmem)⟩, rfl, rfl⟩

theorem Delimiter.firstTagEnd?_eq_some_iff {t inner rest : Text} :
    firstTagEnd? t = some (inner, rest) ↔ t = inner ++ '>' :: rest ∧ '>' ∉ inner :=
  Text.cutAt_eq_some_iff

namespace Tag

variable {exhausted exhausted' : Bool} {start : Nat} {t inner rest : Text} {tag : Tag}

theorem innerText?_cases (h : innerText? exhausted t = some (inner, rest, exhausted')) :
    (exhausted = false ∧ exhausted' = false ∧ tagEnd? t = some (inner, rest)) ∨
      (exhausted = true ∨ tagEnd? t = none) ∧ exhausted' = true ∧ '>' ∉ inner := by
  unfold innerText? at h
  cases exhausted with
  | true =>
    simp only [if_true, Option.map_eq_some_iff, Prod.mk.injEq, Prod.exists] at h
    obtain ⟨_, _, hfirst, rfl, rfl, rfl⟩ := h
    exact Or.inr ⟨Or.inl rfl, rfl, (firstTagEnd?_eq_some_iff.1 hfirst).2⟩
  | false =>
    simp only [Bool.false_eq_true, if_false] at h
    cases hend : tagEnd? t with
    | some found =>
      rw [hend] at h
      obtain ⟨inner', rest'⟩ := found
      obtain ⟨rfl, rfl, rfl⟩ : inner' = inner ∧ rest' = rest ∧ false = exhausted' := by
        simpa using h
      exact Or.inl ⟨rfl, rfl, rfl⟩
    | none =>
      simp only [hend, Option.map_eq_some_iff, Prod.mk.injEq, Prod.exists] at h
      obtain ⟨_, _, hfirst, rfl, rfl, rfl⟩ := h
      exact Or.inr ⟨Or.inr rfl, rfl, (firstTagEnd?_eq_some_iff.1 hfirst).2⟩

/-- What stands between the name and the `>` of a tag is a slash or blanks, whatever is known about
the end of tags, or else the end of the tag was searched for behind the name. -/
theorem read?_cases (h : read? exhausted start t = some (tag, rest, exhausted')) :
    (exhausted' = exhausted ∧ (tag.inner = ['/'] ∨ ∀ c ∈ tag.inner, Text.isBlank c = true)) ∨
      innerText? exhausted (tag.inner ++ '>' :: rest) = some (tag.inner, rest, exhausted') := by
  unfold read? at h
  split at h
  · next hclosing =>
    simp only [Option.some.injEq, Prod.mk.injEq] at h
    obtain ⟨rfl, -, rfl⟩ := h
    unfold readClosing? at hclosing
    split at hclosing
    · simp only [Option.bind_eq_bind, Option.bind_eq_some_iff, Prod.exists] at hclosing
      obtain ⟨name, afterName, -, hclosing⟩ := hclosing
      split at hclosing
      · obtain ⟨rfl, -⟩ := Prod.mk.inj (Option.some.inj hclosing)
        exact Or.inl ⟨rfl, Or.inr fun c hc => List.mem_takeWhile_imp hc⟩
      · cases hclosing
    · cases hclosing
  · simp only [readOpening?, Option.bind_eq_bind, Option.bind_eq_some_iff, Prod.exists] at h
    obtain ⟨name, afterName, -, h⟩ := h
    split at h
    · simp only [Option.some.injEq, Prod.mk.injEq] at h
      obtain ⟨rfl, -, rfl⟩ := h
      exact Or.inl ⟨rfl, Or.inr fun c hc => absurd hc List.not_mem_nil⟩
    · simp only [Option.some.injEq, Prod.mk.injEq] at h
      obtain ⟨rfl, -, rfl⟩ := h
      exact Or.inl ⟨rfl, Or.inl rfl⟩
    · split at h
      · simp only [Option.map_eq_some_iff, Prod.mk.injEq, Prod.exists] at h
        obtain ⟨inner, rest', _, hinner, rfl, rfl, rfl⟩ := h
        rw [inner_ofInner, ← eq_append_of_innerText? hinner]
        exact Or.inr hinner
      · cases h
    · cases h

/-- A slash or blanks lead into no value. -/
theorem tagEnd?_of_slash_or_blanks
    (h : inner = ['/'] ∨ ∀ c ∈ inner, Text.isBlank c = true) (rest : Text) :
    tagEnd? (inner ++ '>' :: rest) = some (inner, rest) ∧ '>' ∉ inner := by
  have hfold : inner.foldlM tagEnd (.plain false) = some (.plain false) := by
    rcases h with rfl | hblanks
    · rfl
    · exact foldlM_tagEnd_blanks false hblanks
  constructor
  · rw [tagEnd?, Text.cut_append hfold, Text.cut_cons]
    simp [tagEnd]
  · intro hmem
    rcases h with rfl | hblanks
    · exact absurd hmem (by decide)
    · exact absurd (hblanks '>' hmem) (by decide)

/-- A reader that knows nothing ends a tag outside all values, or else at its first `>`, and then it
knows that from now on. -/
theorem ends_of_read?_false (h : read? false start t = some (tag, rest, exhausted')) :
    (exhausted' = false ∧ tagEnd? (tag.inner ++ '>' :: rest) = some (tag.inner, rest)) ∨
      exhausted' = true ∧ tagEnd? (tag.inner ++ '>' :: rest) = none ∧ '>' ∉ tag.inner := by
  rcases read?_cases h with ⟨hstays, hinner⟩ | hinner
  · exact Or.inl ⟨hstays, (tagEnd?_of_slash_or_blanks hinner rest).1⟩
  · rcases innerText?_cases hinner with ⟨-, hstays, hend⟩ | ⟨hnone, hknows, hfirst⟩
    · exact Or.inl ⟨hstays, hend⟩
    · rcases hnone with hfalse | hnone
      · cases hfalse
      · exact Or.inr ⟨hknows, hnone, hfirst⟩

theorem ends_of_read?_true (h : read? true start t = some (tag, rest, exhausted')) :
    exhausted' = true ∧ '>' ∉ tag.inner := by
  rcases read?_cases h with ⟨hstays, hinner⟩ | hinner
  · exact ⟨hstays, (tagEnd?_of_slash_or_blanks hinner rest).2⟩
  · rcases innerText?_cases hinner with ⟨htrue, -, -⟩ | ⟨-, hknows, hfirst⟩
    · cases htrue
    · exact ⟨hknows, hfirst⟩

end Tag

/-! ## Searches without a memory -/

/-- The tags of a text that begins at byte `start`, each found by a search that knows nothing of the
tags before. -/
def afreshFrom (start : Nat) (t : Text) : List Found :=
  match _h : findTag? false start t with
  | none => []
  | some f => f :: afreshFrom f.tag.stop f.rest
termination_by t.length
decreasing_by exact length_rest_lt ‹_›

/-- The tags of a template, each found by a search that knows nothing of the tags before. -/
def afresh (t : Text) : List Found := afreshFrom 0 (Scanner.searchable t).1

namespace Found

/-- The text behind the name of the tag. -/
def behindName (f : Found) : Text := f.tag.inner ++ '>' :: f.rest

/-- Whether the search for the end of the tag comes to the last character inside a value. -/
def leftOpen (f : Found) : Bool :=
  match f.behindName.dropLast.foldlM tagEnd (.plain false) with
  | none | some (.plain _) => false
  | some (.quoted _ _) | some (.braced _) => true

end Found

theorem Text.cut_eq_none_iff {σ : Type} {next : σ → Char → Option σ} {s : σ} {t : Text} :
    Text.cut next s t = none ↔ ∃ s', t.foldlM next s = some s' := by
  induction t generalizing s with
  | nil => exact ⟨fun _ => ⟨s, rfl⟩, fun _ => rfl⟩
  | cons c t ih =>
    rw [Text.cut_cons, List.foldlM_cons]
    cases next s c with
    | none =>
      constructor
      · intro h
        cases h
      · rintro ⟨s', h⟩
        cases h
    | some s₁ => exact Option.map_eq_none_iff.trans ih

/-- In a text up to its last `>`, a tag is left open just if its end is not found. -/
theorem Found.leftOpen_iff {f : Found} {body : Text} (h : f.behindName = body ++ ['>']) :
    f.leftOpen = true ↔ tagEnd? f.behindName = none := by
  have hlast : ∀ r, (body ++ ['>']).foldlM tagEnd (.plain false) = some r ↔
      ∃ r₁, body.foldlM tagEnd (.plain false) = some r₁ ∧ tagEnd r₁ '>' = some r := by
    intro r
    rw [List.foldlM_append, Option.bind_eq_bind, Option.bind_eq_some_iff]
    simp [List.foldlM_cons]
  rw [tagEnd?, Text.cut_eq_none_iff, leftOpen, h, List.dropLast_concat]
  simp only [hlast]
  cases hbody : body.foldlM tagEnd (.plain false) with
  | none => simp
  | some r =>
    cases r with
    | plain afterEquals => simp [tagEnd]
    | quoted q escaped => simpa using ⟨_, (runsInside_quote q).step escaped '>'⟩
    | braced n => simpa using ⟨_, runsInside_brace.step n '>'⟩

section Compared

variable {start : Nat} {text t : Text} {f : Found} {front back : List Found}

theorem afreshFrom_of_none (h : findTag? false start t = none) : afreshFrom start t = [] := by
  rw [afreshFrom]
  split
  · rfl
  · next hfind => cases h.symm.trans hfind

theorem afreshFrom_of_some (h : findTag? false start t = some f) :
    afreshFrom start t = f :: afreshFrom f.tag.stop f.rest := by
  rw [afreshFrom]
  split
  · next hfind => cases h.symm.trans hfind
  · next f' hfind =>
    obtain rfl : f = f' := Option.some.inj (h.symm.trans hfind)
    rfl

theorem exists_of_mem_afreshFrom (h : RestAt text start t) (hf : f ∈ afreshFrom start t) :
    RestAt text f.tag.start (f.tag.text ++ f.rest) ∧
      ∃ start' t', Tag.read? false start' t' = some (f.tag, f.rest, f.exhausted) := by
  fun_induction afreshFrom start t with
  | case1 => cases hf
  | case2 start t g hfind ih =>
    obtain ⟨htag, hrest⟩ := restAt_of_findTag? h hfind
    rcases List.mem_cons.1 hf with rfl | hf
    · obtain ⟨gap, after, -, -, hread, -⟩ := read?_of_findTagAfter hfind
      exact ⟨htag, _, after, hread⟩
    · exact ih hrest hf

/-- While no search fails, both ways to find tags give the same ones and come to the same place. -/
theorem segmentsFrom_of_afreshFrom (h : afreshFrom start t = front ++ back)
    (hfront : ∀ g ∈ front, g.exhausted = false) :
    ∃ start' t', afreshFrom start' t' = back ∧ (segmentsFrom false start t).1.map Segment.tag =
      front.map Found.tag ++ (segmentsFrom false start' t').1.map Segment.tag := by
  induction front generalizing start t with
  | nil => exact ⟨start, t, h, rfl⟩
  | cons g front ih =>
    cases hfind : findTag? false start t with
    | none =>
      rw [afreshFrom_of_none hfind] at h
      cases h
    | some g' =>
      rw [afreshFrom_of_some hfind] at h
      obtain ⟨rfl, hrest⟩ := List.cons.inj h
      obtain ⟨start', t', hback, hsame⟩ :=
        ih hrest fun g hg => hfront g (List.mem_cons_of_mem _ hg)
      refine ⟨start', t', hback, ?_⟩
      rw [segmentsFrom_of_some hfind, hfront _ List.mem_cons_self, List.map_cons, hsame]
      rfl

/-- Once a search has failed, every tag ends at its first `>`. -/
theorem notMem_inner_of_exhausted {s : Segment} (h : s ∈ (segmentsFrom true start t).1) :
    '>' ∉ s.tag.inner := by
  generalize hknows : true = exhausted at h
  fun_induction segmentsFrom exhausted start t with
  | case1 => cases h
  | case2 exhausted start t g hfind segments tail heq ih =>
    subst hknows
    obtain ⟨gap, after, -, -, hread, -⟩ := read?_of_findTagAfter hfind
    obtain ⟨hstays, hinner⟩ := Tag.ends_of_read?_true hread
    rw [heq] at ih
    rcases List.mem_cons.1 h with rfl | h
    · exact hinner
    · exact ih hstays.symm h

theorem exists_concat_of_searchable {before u : Text} (h : (Scanner.searchable t).1 = before ++ u)
    (hu : u ≠ []) : ∃ body, u = body ++ ['>'] := by
  by_cases hmem : '>' ∈ t
  · obtain ⟨body, tail, rfl, htail⟩ := Scanner.exists_last_of_mem hmem
    rw [Scanner.searchable_append htail] at h
    obtain ⟨u', c, rfl⟩ := (List.eq_nil_or_concat u).resolve_left hu
    rw [List.concat_eq_append, ← List.append_assoc] at h
    obtain ⟨-, hlast⟩ := List.append_inj' h rfl
    exact ⟨u', by rw [List.concat_eq_append, hlast]⟩
  · rw [Scanner.searchable_of_notMem hmem] at h
    exact absurd (List.append_eq_nil_iff.1 h.symm).2 hu

theorem leftOpen_iff_of_mem_afresh (h : f ∈ afresh t) :
    f.leftOpen = true ↔ tagEnd? f.behindName = none := by
  obtain ⟨⟨before, hsplit, -⟩, -⟩ := exists_of_mem_afreshFrom (RestAt.zero _) h
  have hbehind : (Scanner.searchable t).1 =
      (before ++ (f.tag.kind.opener ++ f.tag.name)) ++ f.behindName := by
    rw [hsplit]
    simp [Tag.text, Tag.inner, Found.behindName]
  have hne : f.behindName ≠ [] := by simp [Found.behindName]
  obtain ⟨body, hbody⟩ := exists_concat_of_searchable hbehind hne
  exact Found.leftOpen_iff hbody

/-- The search for the end of a tag tells what is known behind it. -/
theorem leftOpen_of_mem_afresh (h : f ∈ afresh t) : f.leftOpen = f.exhausted := by
  obtain ⟨-, start', t', hread⟩ := exists_of_mem_afreshFrom (RestAt.zero _) h
  rw [Bool.eq_iff_iff, leftOpen_iff_of_mem_afresh h, Found.behindName]
  rcases Tag.ends_of_read?_false hread with ⟨hstays, hend⟩ | ⟨hknows, hnone, -⟩
  · rw [hstays, hend]
    simp
  · rw [hknows, hnone]
    simp

/-- While no tag is left open, the scanner finds the same tags as searches without a memory, and it
goes on from the same place. -/
theorem drive_of_afresh_append (h : afresh t = front ++ back)
    (hfront : ∀ g ∈ front, g.leftOpen = false) :
    ∃ start' t', afreshFrom start' t' = back ∧ (Scanner.ofText t).drive 0 =
      front.map Found.tag ++ (segmentsFrom false start' t').1.map Segment.tag := by
  have hclosed : ∀ g ∈ front, g.exhausted = false := by
    intro g hg
    have hmem : g ∈ afresh t := by
      rw [h]
      exact List.mem_append_left back hg
    rw [← leftOpen_of_mem_afresh hmem]
    exact hfront g hg
  rw [Scanner.drive_ofText]
  exact segmentsFrom_of_afreshFrom h hclosed

/-- Searches without a memory end each tag at the first `>` outside all values or, if a value is
open up to the last `>` of the template, at the first `>` behind the name. The scanner finds the
same tags as they do if no tag is left open. Otherwise it finds the same ones up to the first tag
that is left open and with it, and every later one ends at the first `>` behind its name. -/
theorem drive_follows_afresh (t : Text) :
    (∀ f ∈ afresh t, RestAt (Scanner.searchable t).1 f.tag.start (f.tag.text ++ f.rest) ∧
      (f.leftOpen = true ↔ tagEnd? f.behindName = none) ∧
      (tagEnd? f.behindName).or (firstTagEnd? f.behindName) = some (f.tag.inner, f.rest)) ∧
    ((∀ f ∈ afresh t, f.leftOpen = false) →
      (Scanner.ofText t).drive 0 = (afresh t).map Found.tag) ∧
    ∀ front f back, afresh t = front ++ f :: back → (∀ g ∈ front, g.leftOpen = false) →
      f.leftOpen = true →
      ∃ later, (Scanner.ofText t).drive 0 = front.map Found.tag ++ f.tag :: later ∧
        ∀ tag ∈ later, '>' ∉ tag.inner := by
  refine ⟨?_, ?_, ?_⟩
  · intro f hf
    obtain ⟨hplace, start', t', hread⟩ := exists_of_mem_afreshFrom (RestAt.zero _) hf
    refine ⟨hplace, leftOpen_iff_of_mem_afresh hf, ?_⟩
    rw [Found.behindName]
    rcases Tag.ends_of_read?_false hread with ⟨-, hend⟩ | ⟨-, hnone, hinner⟩
    · rw [hend]
      rfl
    · rw [hnone, firstTagEnd?_eq_some_iff.2 ⟨rfl, hinner⟩]
      rfl
  · intro hclosed
    obtain ⟨start', t', hnil, hsame⟩ :=
      drive_of_afresh_append (List.append_nil (afresh t)).symm hclosed
    cases hfind : findTag? false start' t' with
    | some f =>
      rw [afreshFrom_of_some hfind] at hnil
      cases hnil
    | none =>
      rw [hsame, segmentsFrom_of_none hfind, List.map_nil, List.append_nil]
  · intro front f back hsplit hfront hopen
    have hmem : f ∈ afresh t := by
      rw [hsplit]
      exact List.mem_append_right front List.mem_cons_self
    have hknows : f.exhausted = true := by
      rw [← leftOpen_of_mem_afresh hmem]
      exact hopen
    obtain ⟨start', t', hback, hsame⟩ := drive_of_afresh_append hsplit hfront
    cases hfind : findTag? false start' t' with
    | none =>
      rw [afreshFrom_of_none hfind] at hback
      cases hback
    | some f' =>
      rw [afreshFrom_of_some hfind] at hback
      obtain ⟨rfl, -⟩ := List.cons.inj hback
      refine ⟨(segmentsFrom true f'.tag.stop f'.rest).1.map Segment.tag, ?_, ?_⟩
      · rw [hsame, segmentsFrom_of_some hfind, hknows]
        rfl
      · intro tag htag
        obtain ⟨s, hs, rfl⟩ := List.mem_map.1 htag
        exact notMem_inner_of_exhausted hs

/-- A brace that is never closed makes the scanner end the next tag inside its quotes. -/
theorem drive_follows_afresh_brace :
    let t := "<A x=\"1>2\"/> <B y=\x7b > <C z=\"3>4\"/>!".toList
    (afresh t).map (fun f => (f.tag.text, f.leftOpen)) =
        [("<A x=\"1>2\"/>".toList, false), ("<B y=\x7b >".toList, true),
          ("<C z=\"3>4\"/>".toList, false)] ∧
      ((Scanner.ofText t).drive 0).map Tag.text =
        ["<A x=\"1>2\"/>".toList, "<B y=\x7b >".toList, "<C z=\"3>".toList] ∧
      ∃ a b later, (Scanner.ofText t).drive 0 = a :: b :: later ∧
        ∀ tag ∈ later, '>' ∉ tag.inner := by
  intro t
  have hopen : (afresh t).map (fun f => (f.tag.text, f.leftOpen)) =
      [("<A x=\"1>2\"/>".toList, false), ("<B y=\x7b >".toList, true),
        ("<C z=\"3>4\"/>".toList, false)] := by decide +kernel
  refine ⟨hopen, by decide +kernel, ?_⟩
  obtain ⟨a, rest, hafresh, ha, hrest⟩ := List.map_eq_cons_iff.1 hopen
  obtain ⟨b, rest', rfl, hb, -⟩ := List.map_eq_cons_iff.1 hrest
  obtain ⟨later, hdrive, hlater⟩ := (drive_follows_afresh t).2.2 [a] b rest' hafresh
    (by simpa using (Prod.mk.inj ha).2) (Prod.mk.inj hb).2
  exact ⟨a.tag, b.tag, later, hdrive, hlater⟩

end Compared

end ErbTags
