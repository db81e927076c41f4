import ErbTags.Tag.Scanner

/-!
# Where the tags of a template stand

The segments of a template follow one another: a tag starts where the text before it ends, and the
text before the next tag starts where the tag stops (`Placed`). Two things come out of that. The
tags of a template stand at increasing places, so no tag occurs twice. And the text between two
tags is the slice of the template between their places (`outside?`), so every such slice exists.
-/

namespace ErbTags

/-! ## Slices -/

theorem Text.split?_append (s t : Text) : Text.split? (Text.byteSize s) (s ++ t) = some (s, t) :=
  Text.split?_eq_some_iff.2 ⟨rfl, rfl⟩

/-- A part of a text is the slice between the places where it begins and ends. -/
theorem Text.slice?_append (s t u : Text) :
    Text.slice? (s ++ (t ++ u)) (Text.byteSize s) (Text.byteSize s + Text.byteSize t) = some t := by
  have hle : Text.byteSize s ≤ Text.byteSize s + Text.byteSize t := Nat.le_add_right _ _
  have hguard : (guard (Text.byteSize s ≤ Text.byteSize s + Text.byteSize t) : Option Unit) =
      some () := if_pos hle
  have hsub : Text.byteSize s + Text.byteSize t - Text.byteSize s = Text.byteSize t := by omega
  rw [Text.slice?, hguard, hsub]
  simp [Text.split?_append]

/-! ## The place of a tag -/

theorem Tag.start_of_readClosing? {start : Nat} {t rest : Text} {tag : Tag}
    (h : Tag.readClosing? start t = some (tag, rest)) : tag.start = start := by
  unfold Tag.readClosing? at h
  split at h
  · simp only [Option.bind_eq_bind, Option.bind_eq_some_iff, Prod.exists] at h
    obtain ⟨name, rest₁, _, h⟩ := h
    split at h
    · simp only [Option.some.injEq, Prod.mk.injEq] at h
      rw [← h.1]
    · simp at h
  · simp at h

theorem Tag.start_ofInner (start : Nat) (name inner : Text) :
    (Tag.ofInner start name inner).start = start := by
  unfold Tag.ofInner
  split <;> rfl

theorem Tag.start_of_readOpening? {exhausted exhausted' : Bool} {start : Nat} {t rest : Text}
    {tag : Tag} (h : Tag.readOpening? exhausted start t = some (tag, rest, exhausted')) :
    tag.start = start := by
  simp only [Tag.readOpening?, Option.bind_eq_bind, Option.bind_eq_some_iff, Prod.exists] at h
  obtain ⟨name, rest₁, _, h⟩ := h
  split at h
  · simp only [Option.some.injEq, Prod.mk.injEq] at h
    rw [← h.1]
  · simp only [Option.some.injEq, Prod.mk.injEq] at h
    rw [← h.1]
  · split at h
    · simp only [Option.map_eq_some_iff, Prod.mk.injEq, Prod.exists] at h
      obtain ⟨inner, _, _, _, rfl, _⟩ := h
      exact Tag.start_ofInner start name inner
    · simp at h
  · simp at h

/-- A tag that is read keeps the place it was read at. -/
theorem Tag.start_of_read? {exhausted exhausted' : Bool} {start : Nat} {t rest : Text} {tag : Tag}
    (h : Tag.read? exhausted start t = some (tag, rest, exhausted')) : tag.start = start := by
  unfold Tag.read? at h
  split at h
  · next heq =>
    simp only [Option.some.injEq, Prod.mk.injEq] at h
    rw [← h.1]
    exact Tag.start_of_readClosing? heq
  · exact Tag.start_of_readOpening? h

theorem start_of_findTagAfter {exhausted : Bool} {passed : Text} {start : Nat} {t : Text}
    {f : Found} (h : findTagAfter exhausted passed start t = some f) :
    f.tag.start + Text.byteSize passed = start + Text.byteSize f.gap := by
  induction t generalizing passed start with
  | nil => simp [findTagAfter] at h
  | cons c t ih =>
    simp only [findTagAfter] at h
    split at h
    · next heq =>
      split at heq
      · simp only [Option.some.injEq] at h
        subst h
        rw [Tag.start_of_read? heq, Text.byteSize_reverse]
      · simp at heq
    · have := ih h
      rw [Text.byteSize_cons] at this
      omega

/-- A tag that is found starts where the text before it ends. -/
theorem start_of_findTag? {exhausted : Bool} {start : Nat} {t : Text} {f : Found}
    (h : findTag? exhausted start t = some f) : f.tag.start = start + Text.byteSize f.gap := by
  simpa using start_of_findTagAfter h

/-! ## Segments in their places -/

/-- The segments follow one another, the first from byte `cursor` on. -/
def Placed : Nat → List Segment → Prop
  | _, [] => True
  | cursor, s :: ss => s.tag.start = cursor + Text.byteSize s.gap ∧ Placed s.tag.stop ss

theorem placed_segmentsFrom (exhausted : Bool) (start : Nat) (t : Text) :
    Placed start (segmentsFrom exhausted start t).1 := by
  fun_induction segmentsFrom exhausted start t with
  | case1 => trivial
  | case2 exhausted start t f h segments tail heq ih =>
    rw [heq] at ih
    exact ⟨start_of_findTag? h, ih⟩

/-- The segments of a template follow one another from its beginning on. -/
theorem placed_segments (t : Text) : Placed 0 (segments t).1 :=
  placed_segmentsFrom false 0 (Scanner.searchable t).1

theorem Tag.start_lt_stop (tag : Tag) : tag.start < tag.stop := by
  have hpos : 0 < Text.byteSize tag.text := by
    cases htext : tag.text with
    | nil => exact absurd htext tag.text_ne_nil
    | cons c t => have := c.utf8Size_pos; rw [Text.byteSize_cons]; omega
  unfold Tag.stop
  omega

theorem Placed.le_start {cursor : Nat} {ss : List Segment} (h : Placed cursor ss) :
    ∀ s ∈ ss, cursor ≤ s.tag.start := by
  induction ss generalizing cursor with
  | nil => intro s hs; simp at hs
  | cons s ss ih =>
    obtain ⟨hstart, hrest⟩ := h
    intro s' hs'
    rcases List.mem_cons.1 hs' with rfl | hs'
    · omega
    · have hlater := ih hrest s' hs'
      have := s.tag.start_lt_stop
      omega

theorem Placed.pairwise {cursor : Nat} {ss : List Segment} (h : Placed cursor ss) :
    (ss.map Segment.tag).Pairwise (fun a b => a.start < b.start) := by
  induction ss generalizing cursor with
  | nil => exact List.Pairwise.nil
  | cons s ss ih =>
    rw [List.map_cons, List.pairwise_cons]
    refine ⟨?_, ih h.2⟩
    intro tag htag
    obtain ⟨s', hs', rfl⟩ := List.mem_map.1 htag
    exact Nat.lt_of_lt_of_le s.tag.start_lt_stop (h.2.le_start s' hs')

/-- The tags of a template stand at increasing places. -/
theorem pairwise_start_tags (t : Text) : (tags t).Pairwise (fun a b => a.start < b.start) :=
  (placed_segments t).pairwise

/-- No tag occurs twice in a template, since a tag knows its place. -/
theorem nodup_tags (t : Text) : (tags t).Nodup := by
  refine (pairwise_start_tags t).imp ?_
  intro a b hlt heq
  rw [heq] at hlt
  exact Nat.lt_irrefl _ hlt

theorem Placed.exists_split (before tail : Text) {ss : List Segment} {s : Segment}
    (h : Placed (Text.byteSize before) ss) (hs : s ∈ ss) :
    ∃ front back, before ++ (ss.flatMap Segment.text ++ tail) = front ++ (s.tag.text ++ back) ∧
      s.tag.start = Text.byteSize front := by
  induction ss generalizing before with
  | nil => cases hs
  | cons s' ss ih =>
    obtain ⟨hstart, hrest⟩ := h
    rcases List.mem_cons.1 hs with rfl | hs
    · refine ⟨before ++ s.gap, ss.flatMap Segment.text ++ tail, by simp [Segment.text], ?_⟩
      rw [hstart, Text.byteSize_append]
    · have hstop : s'.tag.stop = Text.byteSize (before ++ s'.text) := by
        unfold Tag.stop Segment.text
        rw [hstart, Text.byteSize_append, Text.byteSize_append]
        omega
      rw [hstop] at hrest
      obtain ⟨front, back, heq, hfront⟩ := ih (before ++ s'.text) hrest hs
      exact ⟨front, back, by rw [← heq]; simp, hfront⟩

theorem exists_split_of_mem_tags {t : Text} {tag : Tag} (h : tag ∈ tags t) :
    ∃ front back, t = front ++ (tag.text ++ back) ∧ tag.start = Text.byteSize front := by
  obtain ⟨s, hs, rfl⟩ := List.mem_map.1 h
  obtain ⟨front, back, heq, hfront⟩ := Placed.exists_split [] (segments t).2 (placed_segments t) hs
  rw [List.nil_append, text_segments] at heq
  exact ⟨front, back, heq, hfront⟩

/-- The text of a tag stands in the template at the place of the tag. -/
theorem slice?_of_mem_tags {t : Text} {tag : Tag} (h : tag ∈ tags t) :
    Text.slice? t tag.start tag.stop = some tag.text := by
  obtain ⟨front, back, heq, hfront⟩ := exists_split_of_mem_tags h
  rw [Tag.stop, hfront, heq]
  exact Text.slice?_append front tag.text back

theorem start_lt_byteSize {t : Text} {tag : Tag} (h : tag ∈ tags t) :
    tag.start < Text.byteSize t := by
  obtain ⟨front, back, heq, hfront⟩ := exists_split_of_mem_tags h
  have hlt := tag.start_lt_stop
  unfold Tag.stop at hlt
  rw [heq, Text.byteSize_append, Text.byteSize_append]
  omega

/-! ## The text outside the tags -/

/-- The parts of a text before, between and after the given tags, from byte `cursor` on, cut out of
the text by the places of the tags. There are none if some of them is no slice of the text. -/
def outside? (source : Text) (cursor : Nat) : List Tag → Option (List Text)
  | [] => do
    let last ← Text.slice? source cursor (Text.byteSize source)
    return [last]
  | tag :: tags => do
    let gap ← Text.slice? source cursor tag.start
    let gaps ← outside? source tag.stop tags
    return gap :: gaps

theorem Placed.outside?_eq (before tail : Text) {ss : List Segment}
    (h : Placed (Text.byteSize before) ss) :
    outside? (before ++ (ss.flatMap Segment.text ++ tail)) (Text.byteSize before)
        (ss.map Segment.tag) = some (ss.map Segment.gap ++ [tail]) := by
  induction ss generalizing before with
  | nil =>
    have hslice := Text.slice?_append before tail []
    rw [List.append_nil] at hslice
    have hsize : Text.byteSize (before ++ tail) = Text.byteSize before + Text.byteSize tail :=
      Text.byteSize_append before tail
    simp [outside?, hsize, hslice]
  | cons s ss ih =>
    obtain ⟨hstart, hrest⟩ := h
    have hstop : s.tag.stop = Text.byteSize (before ++ (s.gap ++ s.tag.text)) := by
      unfold Tag.stop
      rw [hstart, Text.byteSize_append, Text.byteSize_append]
      omega
    have hsource : before ++ ((s :: ss).flatMap Segment.text ++ tail) =
        before ++ (s.gap ++ s.tag.text) ++ (ss.flatMap Segment.text ++ tail) := by
      simp [Segment.text]
    have hgap : Text.slice? (before ++ (s.gap ++ s.tag.text) ++ (ss.flatMap Segment.text ++ tail))
        (Text.byteSize before) s.tag.start = some s.gap := by
      have hslice := Text.slice?_append before s.gap
        (s.tag.text ++ (ss.flatMap Segment.text ++ tail))
      rw [hstart]
      simpa using hslice
    rw [hstop] at hrest
    have hlater := ih _ hrest
    rw [hsource, List.map_cons, List.map_cons, outside?, hgap, hstop, hlater]
    rfl

/-- The texts of the segments and the text after the last tag are what lies outside the tags. -/
theorem outside?_tags (t : Text) :
    outside? t 0 (tags t) = some ((segments t).1.map Segment.gap ++ [(segments t).2]) := by
  have h := Placed.outside?_eq [] (segments t).2 (placed_segments t)
  rwa [List.nil_append, text_segments] at h

end ErbTags
