import ErbTags.Proofs.Diagnostics
import ErbTags.Proofs.Scopes

/-!
# The open frames of a pass

A frame remembers a place in the output, and that place has to stay right while text is added
behind it, while parameters are inserted before it, and while frames around it and inside it are
ended in any order. After any number of tags, the frames stand in the order of their tags and of the
places that they remember (`pairwise_pointOf`), and each place is the one between the block keyword
of its own fragment and the end of that fragment (`open_frames_in_order`).

The state of a pass is told by the records of the tags that it has seen (`passOf`), so all this is
read off the records.
-/

namespace ErbTags

/-! ## Tags in order -/

theorem Placed.pairwise_stop {cursor : Nat} {ss : List Segment} (h : Placed cursor ss) :
    ss.Pairwise (fun a b => a.tag.stop ≤ b.tag.start) := by
  induction ss generalizing cursor with
  | nil => exact List.Pairwise.nil
  | cons s ss ih => exact List.pairwise_cons.2 ⟨h.2.le_start, ih h.2⟩

/-- Where a pass stands after the given segments. -/
def cursorAfter (front : List Segment) : Nat := (front.getLast?.map (·.tag.stop)).getD 0

theorem stop_le_cursorAfter {front : List Segment}
    (h : front.Pairwise (fun a b => a.tag.stop ≤ b.tag.start)) {s : Segment} (hs : s ∈ front) :
    s.tag.stop ≤ cursorAfter front := by
  have hne : front ≠ [] := List.ne_nil_of_mem hs
  obtain ⟨init, last, rfl⟩ := (List.eq_nil_or_concat' front).resolve_left hne
  have hcursor : cursorAfter (init ++ [last]) = last.tag.stop := by
    rw [cursorAfter, List.getLast?_concat]
    rfl
  rw [hcursor]
  rcases List.mem_append.1 hs with hs | hs
  · have hle := (List.pairwise_append.1 h).2.2 s hs last List.mem_cons_self
    have hlt := last.tag.start_lt_stop
    omega
  · rw [List.mem_singleton.1 hs]

/-! ## Frames and records -/

section Records

variable {conventions : Conventions} {declared : Linked → Bool} {done : List (Text × Linked)}
  {l : Linked}

/-- Places for parameters stand in the order of their tags, for records with the latest first. -/
theorem pairwise_pointOf (conventions : Conventions) (declared : Linked → Bool)
    (hnodup : (done.map Prod.snd).Nodup) :
    (done.map Prod.snd).Pairwise fun l m => m.tag.kind = .opening →
      pointOf conventions declared done m < pointOf conventions declared done l := by
  induction done with
  | nil => exact List.Pairwise.nil
  | cons x done ih =>
    obtain ⟨hx, hnodup⟩ := List.nodup_cons.1 hnodup
    have hother : ∀ m ∈ done.map Prod.snd,
        pointOf conventions declared (x :: done) m = pointOf conventions declared done m := by
      intro m hm
      have hne : x.2 ≠ m := fun h => hx (h ▸ hm)
      rw [pointOf, if_neg hne]
    refine List.pairwise_cons.2 ⟨fun m hm hkind => ?_, (ih hnodup).imp_of_mem ?_⟩
    · have hlt : pointOf conventions declared done m <
          Text.byteSize (textOf conventions declared done) := pointOf_lt hm hkind
      rw [hother m hm, pointOf, if_pos rfl, Text.byteSize_append]
      omega
    · intro l m hl hm hlt hkind
      rw [hother l hl, hother m hm]
      exact hlt hkind

/-- What a frame calls, up to the block keyword. -/
def Frame.call (conventions : Conventions) (f : Frame) : Text :=
  f.role.call conventions f.name f.arguments

/-- The fragment of a frame, while its parameter is missing. -/
def Frame.fragment (conventions : Conventions) (f : Frame) : Text :=
  f.call conventions ++ (Fragment.blockKeyword ++ Fragment.close)

theorem call_frameOf (h : l.link.opener? = none) :
    (frameOf conventions done l).call conventions = l.call conventions := by
  obtain ⟨tag, link⟩ := l
  cases link with
  | component => rfl
  | slot parent slot => rfl
  | close opener => cases h

/-- The segment that a record was made for. -/
def segmentOf (x : Text × Linked) : Segment := ⟨x.1, x.2.tag⟩

theorem eq_map_segmentOf {ss : List Segment} {xs : List (Text × Linked)}
    (hgaps : xs.map Prod.fst = ss.map Segment.gap)
    (htags : (xs.map Prod.snd).map Linked.tag = ss.map Segment.tag) : ss = xs.map segmentOf := by
  induction ss generalizing xs with
  | nil => rw [List.map_eq_nil_iff.1 hgaps, List.map_nil]
  | cons s ss ih =>
    cases xs with
    | nil => cases hgaps
    | cons x xs =>
      obtain ⟨hgap, hgaps⟩ := List.cons.inj hgaps
      obtain ⟨htag, htags⟩ := List.cons.inj htags
      rw [ih hgaps htags, List.map_cons, segmentOf, hgap, htag]

/-- The frame remembers the place right after the block keyword in the fragment of its own tag, and
right before the end of that fragment. -/
def Frame.WaitsIn (conventions : Conventions) (front : List Segment) (fragments : List Text)
    (output : Text) (f : Frame) : Prop :=
  ∃ earlier gap later before behind, front = earlier ++ ⟨gap, f.tag⟩ :: later ∧
    fragments = before ++ f.fragment conventions :: behind ∧ before.length = earlier.length ∧
    ∃ rest, Text.split? f.point output =
      some (interleave (earlier.map Segment.gap ++ [gap]) before ++
        (f.call conventions ++ Fragment.blockKeyword), Fragment.close ++ rest)

theorem Frame.WaitsIn.start_lt {front : List Segment} {fragments : List Text} {output : Text}
    {f : Frame} (h : f.WaitsIn conventions front fragments output)
    (hstops : front.Pairwise (fun a b => a.tag.stop ≤ b.tag.start)) :
    f.tag.start < cursorAfter front := by
  obtain ⟨earlier, gap, later, before, behind, hfront, -⟩ := h
  have hmem : ⟨gap, f.tag⟩ ∈ front := by
    rw [hfront]
    exact List.mem_append_right _ List.mem_cons_self
  exact Nat.lt_of_lt_of_le f.tag.start_lt_stop (stop_le_cursorAfter hstops hmem)

/-- The place is not at the start of the output, nor at its end. -/
theorem Frame.WaitsIn.inside {front : List Segment} {fragments : List Text} {output : Text}
    {f : Frame} (h : f.WaitsIn conventions front fragments output) :
    0 < f.point ∧ f.point < Text.byteSize output := by
  obtain ⟨earlier, gap, later, before, behind, -, -, -, rest, hsplit⟩ := h
  obtain ⟨houtput, hpoint⟩ := Text.split?_eq_some_iff.1 hsplit
  have hkeyword : 0 < Text.byteSize Fragment.blockKeyword := by decide
  have hclose : 0 < Text.byteSize Fragment.close := by decide
  rw [houtput]
  simp only [Text.byteSize_append] at hpoint ⊢
  omega

/-- The fragments of the tags, of which those in `declared` have their parameters. -/
def fragmentsOf (conventions : Conventions) (declared : Linked → Bool)
    (done : List (Text × Linked)) : List Text :=
  done.reverse.map fun x => x.2.fragment conventions (declared x.2)

theorem interleave_fragmentsOf (conventions : Conventions) (declared : Linked → Bool)
    (done : List (Text × Linked)) (t : Text) :
    interleave ((done.reverse.map segmentOf).map Segment.gap ++ [t])
        (fragmentsOf conventions declared done) = textOf conventions declared done ++ t := by
  have hgaps : (done.reverse.map segmentOf).map Segment.gap = done.reverse.map Prod.fst := by
    rw [List.map_map]
    rfl
  rw [hgaps, fragmentsOf, interleave_eq fun l => l.fragment conventions (declared l), textOf]

/-- A block without a parameter: its frame would remember the place where it is missing. -/
theorem waitsIn_of_append {f : Frame} {gap : Text} {later earlier : List (Text × Linked)}
    (hdone : done = later ++ (gap, l) :: earlier) (hnotMem : l ∉ later.map Prod.snd)
    (hkind : l.tag.kind = .opening) (hdeclared : declared l = false) (htag : f.tag = l.tag)
    (hcall : f.call conventions = l.call conventions)
    (hpoint : f.point = pointOf conventions declared done l) (t : Text) :
    f.WaitsIn conventions (done.reverse.map segmentOf) (fragmentsOf conventions declared done)
      (textOf conventions declared done ++ t) := by
  have hreverse : done.reverse = earlier.reverse ++ (gap, l) :: later.reverse := by
    rw [hdone, List.reverse_append, List.reverse_cons, List.append_assoc]
    rfl
  have hfragment : l.fragment conventions (declared l) = f.fragment conventions := by
    rw [fragment_opening hkind, hdeclared, Frame.fragment, hcall]
    simp [Linked.opener]
  refine ⟨earlier.reverse.map segmentOf, gap, later.reverse.map segmentOf,
    fragmentsOf conventions declared earlier, fragmentsOf conventions declared later, ?_, ?_, ?_,
    textOf conventions declared later ++ t, Text.split?_eq_some_iff.2 ⟨?_, ?_⟩⟩
  · rw [hreverse, List.map_append, List.map_cons, htag]
    rfl
  · rw [fragmentsOf, hreverse, List.map_append, List.map_cons, hfragment]
    rfl
  · rw [fragmentsOf, List.length_map, List.length_map]
  · rw [interleave_fragmentsOf, hdone, textOf_append, textOf_cons, hfragment, Frame.fragment]
    simp only [List.append_assoc]
  · rw [interleave_fragmentsOf, hpoint, hdone, pointOf_of_notMem hnotMem, pointOf, if_pos rfl,
      Linked.opener, hcall, List.append_assoc]

/-- The frame of an open tag remembers where its parameter is missing. -/
theorem waitsIn_frameOf (hnodup : (done.map Prod.snd).Nodup)
    (hlinked : LinkedBy conventions (done.map Prod.snd)) (hl : l ∈ stillOpen (done.map Prod.snd))
    (t : Text) :
    (frameOf conventions done l).WaitsIn conventions (done.reverse.map segmentOf)
      (fragmentsOf conventions (hasParameter (done.map Prod.snd)) done)
      (textOf conventions (hasParameter (done.map Prod.snd)) done ++ t) := by
  obtain ⟨hmem, hkind, hended⟩ := mem_stillOpen.1 hl
  obtain ⟨⟨gap, m⟩, hx, rfl⟩ := List.mem_map.1 hmem
  obtain ⟨later, earlier, hdone⟩ := List.append_of_mem hx
  have hnotMem : m ∉ later.map Prod.snd := by
    intro hlater
    rw [hdone, List.map_append, List.map_cons, List.nodup_append] at hnodup
    exact hnodup.2.2 m hlater m List.mem_cons_self rfl
  have hopener : m.link.opener? = none := by
    rw [hdone, List.map_append] at hlinked
    exact hlinked.of_append.opener?_eq_none hkind
  have hdeclared : hasParameter (done.map Prod.snd) m = false := by
    rw [hasParameter, hended, Bool.false_and]
  exact waitsIn_of_append hdone hnotMem hkind hdeclared rfl (call_frameOf hopener) rfl t

end Records

/-- After any number of tags of a template, and any text behind them, the open frames are those of
the tags that are open. They stand in the order of their tags and of the places that they remember,
and each of these places lies inside the output, in the fragment of the frame's own tag. -/
theorem open_frames_in_order (conventions : Conventions) (source : Text) (front : List Segment)
    (p : Pass) (hfront : front <+: (segments source).1)
    (hrun : (Pass.start.run conventions source front).result = .ok p) (t : Text) :
    (front.map Segment.tag).foldlM (nest source) [] = .ok (p.nesting.map Frame.tag) ∧
      p.nesting.Pairwise (fun inner outer =>
        outer.tag.start < inner.tag.start ∧ outer.point < inner.point) ∧
      (∀ f ∈ p.nesting, f.tag.start < cursorAfter front ∧ 0 < f.point ∧
        f.point < (p.emit t).output.size) ∧
      ∃ fragments, fragments.length = front.length ∧
        (p.emit t).output.toText = interleave (front.map Segment.gap ++ [t]) fragments ∧
        ∀ f ∈ p.nesting, f.WaitsIn conventions front fragments (p.emit t).output.toText := by
  rcases run_passOf_segments conventions source hfront.sublist with
    ⟨e, -, hresult⟩ | ⟨done, hlinks, hgaps, hresult⟩
  · rw [hresult] at hrun
    cases hrun
  obtain rfl : passOf conventions done = p := Except.ok.inj (hresult.symm.trans hrun)
  have hnil : LinkedBy conventions [] := trivial
  obtain ⟨hlinked, htags⟩ := linkedBy_of_linkAll hnil hlinks
  rw [List.map_nil, List.append_nil] at htags
  have hstarts : (done.map Prod.snd).Pairwise fun l m => m.tag.start < l.tag.start := by
    have hordered : (front.map Segment.tag).Pairwise fun a b => a.start < b.start :=
      (pairwise_start_tags source).sublist (hfront.sublist.map Segment.tag)
    rw [← List.pairwise_reverse, ← htags] at hordered
    exact List.pairwise_map.1 hordered
  obtain rfl : front = done.reverse.map segmentOf := by
    apply eq_map_segmentOf
    · rw [List.map_reverse, hgaps, List.reverse_reverse]
    · rw [List.map_reverse, List.map_reverse, htags, List.reverse_reverse]
  have hnodup : (done.map Prod.snd).Nodup := by
    refine hstarts.imp ?_
    rintro l m hlt rfl
    exact Nat.lt_irrefl _ hlt
  have houtput : ((passOf conventions done).emit t).output.toText =
      textOf conventions (hasParameter (done.map Prod.snd)) done ++ t := by
    simp [Pass.emit, passOf]
  have hwaits : ∀ f ∈ (passOf conventions done).nesting, f.WaitsIn conventions
      (done.reverse.map segmentOf) (fragmentsOf conventions (hasParameter (done.map Prod.snd)) done)
      ((passOf conventions done).emit t).output.toText := by
    intro f hf
    obtain ⟨l, hl, rfl⟩ := List.mem_map.1 hf
    rw [houtput]
    exact waitsIn_frameOf hnodup hlinked hl t
  refine ⟨?_, ?_, ?_, _, ?_, ?_, hwaits⟩
  · have hopen := Pass.openTags_run conventions source .start (done.reverse.map segmentOf)
    rw [hresult] at hopen
    exact hopen.symm
  · have hpoints :=
      pairwise_pointOf conventions (hasParameter (done.map Prod.snd)) hnodup
    refine List.pairwise_map.2
      (((hstarts.and hpoints).sublist List.filter_sublist).imp_of_mem ?_)
    intro l m hl hm hlm
    exact ⟨hlm.1, hlm.2 (mem_stillOpen.1 hm).2.1⟩
  · intro f hf
    have hstops := (placed_segments source).pairwise_stop.sublist hfront.sublist
    obtain ⟨hpos, hlt⟩ := (hwaits f hf).inside
    exact ⟨(hwaits f hf).start_lt hstops, hpos, Output.size_eq_byteSize_toText _ ▸ hlt⟩
  · rw [fragmentsOf, List.length_map, List.length_map]
  · rw [houtput, interleave_fragmentsOf]

/-- The block of `B` is ended while the slot tag in it is open, and its parameter goes before the
place that the frame of the slot tag remembers. -/
theorem open_frames_in_order_crossing :
    let source := "é<A><B><WithX>ü</B></WithX></A>".toList
    let front := (segments source).1.take 4
    ∃ p, (Pass.start.run .standard source front).result = .ok p ∧
      p.nesting.map (fun f => (f.tag.start, f.point)) = [(8, 82), (2, 30)] ∧
      p.nesting.Pairwise (fun inner outer =>
        outer.tag.start < inner.tag.start ∧ outer.point < inner.point) ∧
      ∀ f ∈ p.nesting, f.point < (p.emit ['ö']).output.size ∧
        ∃ before rest, Text.split? f.point (p.emit ['ö']).output.toText =
          some (before ++ (f.call .standard ++ Fragment.blockKeyword), Fragment.close ++ rest) := by
  intro source front
  have hplaces : (Pass.start.run .standard source front).result.toOption.map
      (fun p => p.nesting.map fun f => (f.tag.start, f.point)) = some [(8, 82), (2, 30)] := by
    decide +kernel
  cases hrun : (Pass.start.run .standard source front).result with
  | error e =>
    rw [hrun] at hplaces
    cases hplaces
  | ok p =>
    rw [hrun] at hplaces
    obtain ⟨-, hordered, hbounds, fragments, -, -, hwaits⟩ :=
      open_frames_in_order .standard source front p (List.take_prefix 4 _) hrun ['ö']
    refine ⟨p, rfl, Option.some.inj hplaces, hordered, fun f hf => ⟨(hbounds f hf).2.2, ?_⟩⟩
    obtain ⟨earlier, gap, later, before, behind, -, -, -, rest, hsplit⟩ := hwaits f hf
    exact ⟨_, rest, hsplit⟩

end ErbTags
