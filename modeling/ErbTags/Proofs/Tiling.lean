import ErbTags.Proofs.ScannerRuns
import ErbTags.Proofs.ValueEnds

/-!
# Tags and gaps cover a template

A scanner is asked for one tag after the other, from where the last one stops, until it has none to
give (`Scanner.Yields`). Whatever the template, this comes to an end (`Scanner.yields_drive`). The
spans of the tags follow one another (`Yields.follows`), each tag is spelled out in the template at
its span (`Yields.spelled`), and what lies between the spans completes them to the template
(`tiles?_tags`), without a place in it where a tag starts (`Yields.covers`).
-/

namespace ErbTags

open Text (RestAt)

/-! ## Asking for tags until there are none -/

namespace Scanner

variable {s s' : Scanner} {cursor offset : Nat} {tag : Tag} {tags tags' : List Tag}

/-- The tags that a scanner gives from byte `cursor` on, each looked for from where the one before
stops, up to the first search that finds none. -/
inductive Yields : Scanner → Nat → List Tag → Prop
  | done {s : Scanner} {cursor : Nat} (h : (s.next cursor).1 = none) : Yields s cursor []
  | more {s s' : Scanner} {cursor : Nat} {tag : Tag} {tags : List Tag}
      (h : s.next cursor = (some tag, s')) (rest : Yields s' tag.stop tags) :
      Yields s cursor (tag :: tags)

theorem Yields.eq (h : s.Yields cursor tags) (h' : s.Yields cursor tags') : tags' = tags := by
  induction h generalizing tags' with
  | done hnone =>
    cases h' with
    | done => rfl
    | more hnext _ =>
      rw [hnext] at hnone
      cases hnone
  | more hnext _ ih =>
    cases h' with
    | done hnone =>
      rw [hnext] at hnone
      cases hnone
    | more hnext' rest' =>
      obtain ⟨htag, rfl⟩ := Prod.mk.inj (hnext.symm.trans hnext')
      obtain rfl := Option.some.inj htag
      rw [ih rest']

/-- Every search but the last moves on, so there is a last one. -/
theorem yields_drive (s : Scanner) (cursor : Nat) : s.Yields cursor (s.drive cursor) := by
  fun_induction drive s cursor with
  | case1 s cursor s' hnext =>
    apply Yields.done
    rw [hnext]
  | case2 s cursor tag s' hnext ih => exact Yields.more hnext ih

/-! ## One span after the other -/

/-- The spans of the tags follow one another from byte `cursor` on, and none of them goes beyond
`size`. -/
def Follows (size : Nat) : Nat → List Tag → Prop
  | _, [] => True
  | cursor, tag :: tags =>
    cursor ≤ tag.start ∧ tag.start < tag.stop ∧ tag.stop ≤ size ∧ Follows size tag.stop tags

theorem Follows.mono {size size' : Nat} (h : Follows size cursor tags) (hle : size ≤ size') :
    Follows size' cursor tags := by
  induction tags generalizing cursor with
  | nil => trivial
  | cons tag tags ih =>
    obtain ⟨hcursor, hlt, hstop, hrest⟩ := h
    exact ⟨hcursor, hlt, Nat.le_trans hstop hle, ih hrest⟩

theorem Follows.le_start {size : Nat} (h : Follows size cursor tags) :
    ∀ tag ∈ tags, cursor ≤ tag.start := by
  induction tags generalizing cursor with
  | nil =>
    intro tag htag
    cases htag
  | cons first tags ih =>
    obtain ⟨hcursor, hlt, -, hrest⟩ := h
    intro tag htag
    rcases List.mem_cons.1 htag with rfl | htag
    · exact hcursor
    · have hle := ih hrest tag htag
      omega

theorem Follows.pairwise {size : Nat} (h : Follows size cursor tags) :
    tags.Pairwise (fun a b => a.stop ≤ b.start) := by
  induction tags generalizing cursor with
  | nil => exact List.Pairwise.nil
  | cons tag tags ih =>
    obtain ⟨-, -, -, hrest⟩ := h
    exact List.pairwise_cons.2 ⟨hrest.le_start, ih hrest⟩

theorem found_of_next (h : s.next cursor = (some tag, s')) :
    ((⟨s.text, s.exhausted⟩ : Scanner).next cursor).1 = some tag := by
  rw [h]

theorem Yields.follows (h : s.Yields cursor tags) : Follows (Text.byteSize s.text) cursor tags := by
  induction h with
  | done => trivial
  | more hnext _ ih =>
    obtain ⟨htext, -, hstop⟩ := next_progress hnext
    rw [htext] at ih
    exact ⟨(spelled_of_next (found_of_next hnext)).1, Tag.start_lt_stop _, hstop, ih⟩

/-- What is skipped before a tag, or left over behind the last one, does not start a tag. -/
theorem Yields.covers (h : s.Yields cursor tags) {start : Nat} (hle : cursor ≤ start)
    (hstarts : TagStartsAt s.text start) : ∃ tag ∈ tags, tag.start ≤ start ∧ start < tag.stop := by
  induction h with
  | done hnone => exact absurd hstarts (next_eq_none_iff.1 hnone start hle)
  | @more s s' cursor tag tags hnext _ ih =>
    have hleast := (spelled_of_next (found_of_next hnext)).2.1 start hle hstarts
    by_cases hstop : start < tag.stop
    · exact ⟨tag, List.mem_cons_self, hleast, hstop⟩
    · rw [← (next_progress hnext).1] at hstarts
      obtain ⟨later, hlater, hspan⟩ := ih (Nat.le_of_not_lt hstop) hstarts
      exact ⟨later, List.mem_cons_of_mem tag hlater, hspan⟩

theorem Yields.exists_next (h : s.Yields cursor tags) (htag : tag ∈ tags) :
    ∃ s₁ s₂ : Scanner, ∃ offset, s₁.text = s.text ∧ s₁.next offset = (some tag, s₂) := by
  induction h with
  | done => cases htag
  | @more s s' cursor first tags hnext _ ih =>
    rcases List.mem_cons.1 htag with rfl | htag
    · exact ⟨s, s', cursor, rfl, hnext⟩
    · obtain ⟨s₁, s₂, offset, htext, hnext'⟩ := ih htag
      exact ⟨s₁, s₂, offset, htext.trans (next_progress hnext).1, hnext'⟩

end Scanner

/-! ## The end of a tag -/

/-- What may stand between the attributes of a tag and its `>`. -/
inductive TagKind.EndsIn : TagKind → Text → Prop
  | opening : EndsIn .opening []
  | selfClosing {blanks : Text} (h : ∀ c ∈ blanks, Text.isWhiteSpace c = true) :
      EndsIn .selfClosing ('/' :: blanks)
  | closing {blanks : Text} (h : ∀ c ∈ blanks, Text.isWhiteSpace c = true) : EndsIn .closing blanks

namespace Tag

variable {exhausted exhausted' : Bool} {start : Nat} {t rest : Text} {tag : Tag}

theorem endsIn_ofInner (start : Nat) (name inner : Text) :
    (ofInner start name inner).kind.EndsIn (ofInner start name inner).tail := by
  unfold ofInner
  split
  · exact .selfClosing fun c hc => List.mem_takeWhile_imp (List.mem_reverse.1 hc)
  · exact .opening

theorem endsIn_of_readClosing? (h : readClosing? start t = some (tag, rest)) :
    tag.kind.EndsIn tag.tail := by
  unfold readClosing? at h
  split at h
  · simp only [Option.bind_eq_bind, Option.bind_eq_some_iff, Prod.exists] at h
    obtain ⟨name, afterName, -, h⟩ := h
    split at h
    · obtain ⟨rfl, -⟩ := Prod.mk.inj (Option.some.inj h)
      exact .closing fun c hc => Text.isWhiteSpace_of_isBlank (List.mem_takeWhile_imp hc)
    · cases h
  · cases h

theorem endsIn_of_read? (h : read? exhausted start t = some (tag, rest, exhausted')) :
    tag.kind.EndsIn tag.tail := by
  unfold read? at h
  split at h
  · next hclosing =>
    obtain ⟨rfl, -⟩ := Prod.mk.inj (Option.some.inj h)
    exact endsIn_of_readClosing? hclosing
  · simp only [readOpening?, Option.bind_eq_bind, Option.bind_eq_some_iff, Prod.exists] at h
    obtain ⟨name, afterName, -, h⟩ := h
    split at h
    · cases h
      exact .opening
    · cases h
      exact .selfClosing fun c hc => absurd hc List.not_mem_nil
    · split at h
      · simp only [Option.map_eq_some_iff, Prod.mk.injEq, Prod.exists] at h
        obtain ⟨inner, _, _, -, rfl, -⟩ := h
        exact endsIn_ofInner start name inner
      · cases h
    · cases h

/-- The tag is spelled out in the template, from its `<` at byte `start` to its `>` before byte
`stop`: an opener, the name, the attributes right after it, and an end that goes with its kind. -/
structure SpelledIn (tag : Tag) (t : Text) : Prop where
  isName : Name.IsName tag.name
  endsIn : tag.kind.EndsIn tag.tail
  exists_eq : ∃ before after, t = before ++ (tag.kind.opener ++ (tag.name ++ (tag.attributes ++
    (tag.tail ++ '>' :: after)))) ∧ Text.byteSize before = tag.start ∧
    tag.stop + Text.byteSize after = Text.byteSize t

end Tag

theorem Scanner.Yields.spelled {s : Scanner} {cursor : Nat} {tags : List Tag} {tag : Tag}
    (h : s.Yields cursor tags) (htag : tag ∈ tags) (u : Text) : tag.SpelledIn (s.text ++ u) := by
  obtain ⟨s₁, s₂, offset, htext, hnext⟩ := h.exists_next htag
  obtain ⟨start, t, rest, hread⟩ := read?_of_next hnext
  obtain ⟨-, -, before, after, hsplit, hstart, hlongest, -⟩ :=
    spelled_of_next (found_of_next hnext)
  rw [htext] at hsplit
  refine ⟨hlongest.isName, Tag.endsIn_of_read? hread, before, after ++ u, ?_, hstart.symm, ?_⟩
  · rw [hsplit]
    simp [Tag.text]
  · rw [hsplit, Tag.stop, hstart]
    simp only [Text.byteSize_append]
    omega

/-! ## Tags and gaps together -/

/-- The gaps before, between and after the tags from byte `cursor` on, with the tags between them,
all cut out of the text by the places of the tags. -/
def tiles? (source : Text) (cursor : Nat) : List Tag → Option Text
  | [] => Text.slice? source cursor (Text.byteSize source)
  | tag :: tags => do
    let gap ← Text.slice? source cursor tag.start
    let text ← Text.slice? source tag.start tag.stop
    let rest ← tiles? source tag.stop tags
    return gap ++ (text ++ rest)

theorem Placed.tiles?_eq {source tail : Text} {cursor : Nat} {ss : List Segment}
    (h : Placed cursor ss) (hrest : RestAt source cursor (ss.flatMap Segment.text ++ tail)) :
    tiles? source cursor (ss.map Segment.tag) = some (ss.flatMap Segment.text ++ tail) := by
  induction ss generalizing cursor with
  | nil =>
    have hsize := hrest.byteSize_eq
    rw [List.flatMap_nil, List.nil_append] at hrest hsize ⊢
    rw [List.map_nil, tiles?, hsize]
    rw [← List.append_nil tail] at hrest
    exact hrest.slice?_eq
  | cons s ss ih =>
    obtain ⟨hstart, hplaced⟩ := h
    rw [List.flatMap_cons, Segment.text, List.append_assoc, List.append_assoc] at hrest ⊢
    have hgap := hrest.slice?_eq
    have htag := hrest.append
    rw [← hstart] at hgap htag
    have htext : Text.slice? source s.tag.start s.tag.stop = some s.tag.text := htag.slice?_eq
    have hlater := ih hplaced htag.append
    rw [List.map_cons, tiles?, hgap, htext, hlater]
    rfl

/-- The gaps and the tags are the whole template. -/
theorem tiles?_tags (t : Text) : tiles? t 0 (tags t) = some t := by
  have hzero := RestAt.zero t
  rw [← text_segments t] at hzero
  have htiles := (placed_segments t).tiles?_eq hzero
  rwa [text_segments] at htiles

/-- A scanner that is asked for tags until it has none gives out finitely many. Their spans are
disjoint and in order, each is spelled out in the template, and together with what lies between them
they are the template; no tag is passed over. -/
theorem scanner_tiles (t : Text) :
    ∃ found, (Scanner.ofText t).Yields 0 found ∧
      (∀ found', (Scanner.ofText t).Yields 0 found' → found' = found) ∧
      Scanner.Follows (Text.byteSize t) 0 found ∧
      found.Pairwise (fun a b => a.stop ≤ b.start) ∧
      tiles? t 0 found = some t ∧
      (∀ tag ∈ found, tag.SpelledIn t) ∧
      ∀ start, TagStartsAt t start → ∃ tag ∈ found, tag.start ≤ start ∧ start < tag.stop := by
  have hyields := Scanner.yields_drive (Scanner.ofText t) 0
  have htext : (Scanner.ofText t).text ++ (Scanner.searchable t).2 = t :=
    Text.splitLast_append '>' t
  have hsize : Text.byteSize (Scanner.ofText t).text ≤ Text.byteSize t := by
    have hsum := congrArg Text.byteSize htext
    rw [Text.byteSize_append] at hsum
    omega
  refine ⟨_, hyields, fun _ => hyields.eq, hyields.follows.mono hsize, hyields.follows.pairwise,
    ?_, fun tag htag => ?_, fun start hstarts => ?_⟩
  · rw [Scanner.drive_ofText]
    exact tiles?_tags t
  · have hspelled := hyields.spelled htag (Scanner.searchable t).2
    rwa [htext] at hspelled
  · exact hyields.covers (Nat.zero_le start) (tagStartsAt_searchable.2 hstarts)

end ErbTags
