import ErbTags.Proofs.Offsets
import ErbTags.Proofs.Steps
import Mathlib.Data.List.Induction

/-!
# Which templates are accepted

A closing tag ends the innermost open tag of its name, so the tags of one name match up on their
own, whatever stands between them. Whether a template is accepted, and which error it gives if not,
is therefore a matter of counting the opening and closing tags of each name.

The pass keeps the open tags of all names in one list. What ties it to the counts is that the open
tags of one name in that list are the unmatched tags of that name (`Pass.Tracks`).
-/

namespace ErbTags

/-! ## Counting tags -/

/-- The number of opening tags of a name. -/
def opens (name : Text) (ts : List Tag) : Nat :=
  ts.countP fun tag => tag.kind = .opening ∧ tag.name = name

/-- The number of closing tags of a name. -/
def closes (name : Text) (ts : List Tag) : Nat :=
  ts.countP fun tag => tag.kind = .closing ∧ tag.name = name

/-- For each name there are never more closing tags than opening tags so far, and as many in the
end. -/
def Balanced (ts : List Tag) : Prop :=
  ∀ name, (∀ before, before <+: ts → closes name before ≤ opens name before) ∧
    opens name ts = closes name ts

/-- A closing tag that comes when all opening tags of its name are closed already. -/
def Excess (before : List Tag) (tag : Tag) : Prop :=
  tag.kind = .closing ∧ opens tag.name before = closes tag.name before

/-- No closing tag is in excess. -/
def NoExcess (ts : List Tag) : Prop :=
  ∀ before tag, before ++ [tag] <+: ts → ¬ Excess before tag

/-- The first closing tag in excess is `tag`, and `before` are the tags before it. -/
def FirstExcess (ts before : List Tag) (tag : Tag) : Prop :=
  before ++ [tag] <+: ts ∧ Excess before tag ∧ NoExcess before

/-- The unmatched tags of a name after one more tag: an opening tag of the name waits to be matched,
and a closing tag matches the last one that waits. -/
def matchTag (name : Text) (waiting : List Tag) (tag : Tag) : List Tag :=
  if tag.name = name then
    match tag.kind with
    | .opening => tag :: waiting
    | .closing => waiting.tail
    | .selfClosing => waiting
  else waiting

/-- The opening tags of a name that are left when each closing tag takes the nearest one before it
that is not taken yet, last one first. -/
def unmatched (name : Text) (ts : List Tag) : List Tag := ts.foldl (matchTag name) []

instance (before : List Tag) (tag : Tag) : Decidable (Excess before tag) :=
  inferInstanceAs (Decidable (_ ∧ _))

section Counts

variable {ts before : List Tag} {tag : Tag} {name : Text}

theorem opens_snoc : opens name (ts ++ [tag]) =
    opens name ts + if tag.kind = .opening ∧ tag.name = name then 1 else 0 := by
  simp [opens, List.countP_append, List.countP_singleton]

theorem closes_snoc : closes name (ts ++ [tag]) =
    closes name ts + if tag.kind = .closing ∧ tag.name = name then 1 else 0 := by
  simp [closes, List.countP_append, List.countP_singleton]

theorem unmatched_snoc : unmatched name (ts ++ [tag]) = matchTag name (unmatched name ts) tag := by
  rw [unmatched, List.foldl_append]
  rfl

theorem noExcess_nil : NoExcess [] := by
  intro before tag h
  simp at h

theorem NoExcess.mono (h : NoExcess ts) (hbefore : before <+: ts) : NoExcess before :=
  fun before' tag' hfront => h before' tag' (hfront.trans hbefore)

theorem noExcess_snoc : NoExcess (ts ++ [tag]) ↔ NoExcess ts ∧ ¬ Excess ts tag := by
  constructor
  · intro h
    exact ⟨h.mono (List.prefix_append ts [tag]), h ts tag (List.prefix_refl _)⟩
  · rintro ⟨h, htag⟩ before tag' hfront
    rcases List.prefix_concat_iff.1 hfront with heq | hfront
    · obtain ⟨rfl, hsingle⟩ := List.append_inj' heq rfl
      obtain rfl := List.singleton_inj.1 hsingle
      exact htag
    · exact h before tag' hfront

theorem noExcess_iff_get :
    NoExcess ts ↔ ∀ i : Fin ts.length, ¬ Excess (ts.take i) (ts.get i) := by
  constructor
  · intro h i
    apply h
    rw [List.get_eq_getElem, List.take_append_getElem]
    exact List.take_prefix _ ts
  · rintro h before tag ⟨after, rfl⟩
    simpa using h ⟨before.length, by simp⟩

instance (ts : List Tag) : Decidable (NoExcess ts) := decidable_of_iff _ noExcess_iff_get.symm

/-- As long as no closing tag is in excess, the unmatched tags of a name are the difference between
its two counts. -/
theorem NoExcess.length_unmatched (h : NoExcess ts) (name : Text) :
    opens name ts = closes name ts + (unmatched name ts).length := by
  induction ts using List.reverseRecOn with
  | nil => rfl
  | append_singleton ts tag ih =>
    obtain ⟨hts, htag⟩ := noExcess_snoc.1 h
    have hcount := ih hts
    rw [opens_snoc, closes_snoc, unmatched_snoc, matchTag]
    by_cases hname : tag.name = name
    · cases hkind : tag.kind with
      | opening => simp [hname]; omega
      | selfClosing => simpa [hname] using hcount
      | closing =>
        -- The tag is not in excess, so an unmatched one is there for it to match.
        have hne : opens name ts ≠ closes name ts := by
          intro heq
          exact htag ⟨hkind, by rw [hname]; exact heq⟩
        simp [hname]
        omega
    · simpa [hname] using hcount

theorem NoExcess.unmatched_eq_nil_iff (h : NoExcess ts) :
    unmatched name ts = [] ↔ opens name ts = closes name ts := by
  have hcount := h.length_unmatched name
  rw [← List.length_eq_zero_iff]
  omega

theorem NoExcess.excess_iff (h : NoExcess before) :
    Excess before tag ↔ tag.kind = .closing ∧ unmatched tag.name before = [] := by
  rw [Excess, h.unmatched_eq_nil_iff]

/-- Tags are balanced if no closing tag is in excess and no opening tag is left unmatched. -/
theorem balanced_iff : Balanced ts ↔ NoExcess ts ∧ ∀ name, unmatched name ts = [] := by
  constructor
  · intro h
    have hno : NoExcess ts := by
      rintro before tag hfront ⟨hkind, hcounts⟩
      have hle := (h tag.name).1 _ hfront
      rw [opens_snoc, closes_snoc] at hle
      simp [hkind] at hle
      omega
    exact ⟨hno, fun name => hno.unmatched_eq_nil_iff.2 (h name).2⟩
  · rintro ⟨hno, hunmatched⟩ name
    refine ⟨?_, hno.unmatched_eq_nil_iff.1 (hunmatched name)⟩
    intro before hfront
    have hcount := (hno.mono hfront).length_unmatched name
    omega

end Counts

/-! ## The open tags of a pass -/

namespace Nesting

theorem map_tag_fillSlot (fs : Nesting) : fs.fillSlot.map Frame.tag = fs.map Frame.tag := by
  cases fs <;> rfl

theorem map_tag_shift (fs : Nesting) (offset size : Nat) :
    (fs.shift offset size).map Frame.tag = fs.map Frame.tag := by
  rw [shift, List.map_map]
  apply List.map_congr_left
  intro f _
  rw [Function.comp, Frame.shift_eq]

end Nesting

namespace Pass

variable {conventions : Conventions} {source gap : Text} {p p' : Pass} {before : List Tag}
  {tag : Tag}

/-- The tags that are open, innermost first. -/
def openTags (p : Pass) : List Tag := p.nesting.map Frame.tag

theorem map_tag_markedFor : (markedFor conventions p tag).map Frame.tag = p.openTags := by
  unfold markedFor roleOf
  split
  · exact p.nesting.map_tag_fillSlot
  · rfl

theorem openTags_closeBlock (p : Pass) (frame : Frame) :
    (p.closeBlock frame).openTags = p.openTags := by
  unfold closeBlock
  split
  · exact p.nesting.map_tag_shift _ _
  · rfl

/-- The pass has gone over the tags `before` without an error. For each name its open tags are the
unmatched ones, and altogether they stand in the order of the template. -/
structure Tracks (p : Pass) (before : List Tag) : Prop where
  /-- No closing tag so far is in excess. -/
  noExcess : NoExcess before
  /-- The open tags of a name are the unmatched ones. -/
  filter_openTags : ∀ name, p.openTags.filter (·.name = name) = unmatched name before
  /-- The innermost open tag is the last one in the template. -/
  sublist : p.openTags.Sublist before.reverse

theorem tracks_start : Tracks start [] where
  noExcess := noExcess_nil
  filter_openTags := fun _ => rfl
  sublist := List.Sublist.refl _

namespace Tracks

theorem mem_openTags_iff (h : p.Tracks before) :
    tag ∈ p.openTags ↔ tag ∈ unmatched tag.name before := by
  rw [← h.filter_openTags, List.mem_filter]
  simp

/-- The tags of no name are unmatched just if no tag is open. -/
theorem openTags_eq_nil_iff (h : p.Tracks before) :
    p.openTags = [] ↔ ∀ name, unmatched name before = [] := by
  constructor
  · intro hnil name
    rw [← h.filter_openTags, hnil, List.filter_nil]
  · intro hnil
    rw [List.eq_nil_iff_forall_not_mem]
    intro tag htag
    rw [h.mem_openTags_iff, hnil] at htag
    exact List.not_mem_nil htag

/-- One more tag that is not in excess, if it changes the open tags of each name as it changes the
unmatched ones. -/
theorem snoc (h : p.Tracks before) (htag : ¬ Excess before tag)
    (hmatch : ∀ name, p'.openTags.filter (·.name = name) =
      matchTag name (p.openTags.filter (·.name = name)) tag)
    (hsub : p'.openTags.Sublist (tag :: p.openTags)) : p'.Tracks (before ++ [tag]) where
  noExcess := noExcess_snoc.2 ⟨h.noExcess, htag⟩
  filter_openTags := by
    intro name
    rw [hmatch, h.filter_openTags, unmatched_snoc]
  sublist := by
    rw [List.reverse_append]
    exact hsub.trans (h.sublist.cons_cons tag)

/-- A tag that is not a closing one, whatever it does to the output. -/
theorem snoc_of_ne_closing (h : p.Tracks before) (hkind : tag.kind ≠ .closing)
    (hopen : p'.openTags = if tag.kind = .opening then tag :: p.openTags else p.openTags) :
    p'.Tracks (before ++ [tag]) := by
  refine h.snoc (fun hexcess => hkind hexcess.1) ?_ ?_
  · intro name
    cases hk : tag.kind with
    | closing => exact absurd hk hkind
    | opening =>
      by_cases hname : tag.name = name
      · simp [hopen, hk, matchTag, hname]
      · simp [hopen, hk, matchTag, hname]
    | selfClosing => simp [hopen, hk, matchTag]
  · rw [hopen]
    split
    · exact List.Sublist.refl _
    · exact List.sublist_cons_self tag _

/-- A closing tag that takes its frame out of the nesting. -/
theorem snoc_of_take? (h : p.Tracks before) (hkind : tag.kind = .closing) {frame : Frame}
    {rest : Nesting} (htake : p.nesting.take? tag.name = some (frame, rest))
    (hopen : p'.openTags = rest.map Frame.tag) : p'.Tracks (before ++ [tag]) := by
  obtain ⟨inner, outer, hnesting, rfl, hname, hinner⟩ := Nesting.take?_eq_some_iff.1 htake
  have htags : p.openTags = inner.map Frame.tag ++ frame.tag :: outer.map Frame.tag := by
    rw [openTags, hnesting, List.map_append, List.map_cons]
  rw [List.map_append] at hopen
  refine h.snoc ?_ ?_ ?_
  · -- The frame that is taken has an unmatched tag of the name.
    rw [h.noExcess.excess_iff]
    rintro ⟨_, hnil⟩
    have hmem : frame.tag ∈ p.openTags := by rw [htags]; simp
    rw [h.mem_openTags_iff, show frame.tag.name = tag.name from hname, hnil] at hmem
    exact List.not_mem_nil hmem
  · intro name
    rw [hopen, htags, matchTag, List.filter_append, List.filter_append, List.filter_cons]
    by_cases heq : tag.name = name
    · have hskip : (inner.map Frame.tag).filter (fun t => decide (t.name = name)) = [] := by
        rw [List.filter_eq_nil_iff]
        intro t ht
        obtain ⟨f, hf, rfl⟩ := List.mem_map.1 ht
        have hne : f.tag.name ≠ tag.name := hinner f hf
        rw [heq] at hne
        simpa using hne
      have hframe : frame.tag.name = name := hname.trans heq
      simp [hskip, hframe, heq, hkind]
    · have hframe : ¬ frame.tag.name = name := by
        intro hf
        exact heq (hname.symm.trans hf)
      simp [hframe, heq]
  · rw [hopen, htags]
    have hdrop := (List.sublist_cons_self frame.tag (outer.map Frame.tag)).append_left
      (inner.map Frame.tag)
    exact hdrop.trans (List.sublist_cons_self tag _)

/-- A step keeps track of its tag, unless the tag is a closing tag in excess. -/
theorem step (h : p.Tracks before) :
    (∃ s, p.step conventions source ⟨gap, tag⟩ = .ok s ∧ s.pass.Tracks (before ++ [tag])) ∨
      Excess before tag ∧ p.step conventions source ⟨gap, tag⟩ = .error
        (errorAt source (if p.openTags = [] then .unmatchedClose else .noMatchingOpen) tag) := by
  cases hkind : tag.kind with
  | opening =>
    obtain ⟨log, hstep⟩ := step_opening conventions source p gap tag hkind
    refine Or.inl ⟨_, hstep, h.snoc_of_ne_closing (by rw [hkind]; decide) ?_⟩
    rw [openTags, List.map_cons, map_tag_markedFor, if_pos hkind]
    rfl
  | selfClosing =>
    obtain ⟨log, hstep⟩ := step_selfClosing conventions source p gap tag hkind
    refine Or.inl ⟨_, hstep, h.snoc_of_ne_closing (by rw [hkind]; decide) ?_⟩
    rw [openTags, map_tag_markedFor, if_neg (by rw [hkind]; decide)]
  | closing =>
    cases htake : p.nesting.take? tag.name with
    | some taken =>
      obtain ⟨log, hstep⟩ := step_closing conventions source p gap tag hkind htake
      exact Or.inl ⟨_, hstep, h.snoc_of_take? hkind htake (openTags_closeBlock _ _)⟩
    | none =>
      refine Or.inr ⟨?_, ?_⟩
      · refine h.noExcess.excess_iff.2 ⟨hkind, ?_⟩
        rw [← h.filter_openTags, List.filter_eq_nil_iff]
        intro t ht
        obtain ⟨f, hf, rfl⟩ := List.mem_map.1 ht
        have hne : f.tag.name ≠ tag.name := Nesting.take?_eq_none_iff.1 htake f hf
        simpa using hne
      · rw [step_unmatched conventions source p gap tag hkind htake]
        simp only [openTags, List.map_eq_nil_iff]

/-- A run keeps track of all its tags, or it stops at the first closing tag in excess. -/
theorem run (h : p.Tracks before) (ss : List Segment) :
    (∃ p', (p.run conventions source ss).result = .ok p' ∧
        p'.Tracks (before ++ ss.map Segment.tag)) ∨
      ∃ (reached : List Tag) (tag : Tag) (p' : Pass), p'.Tracks reached ∧
        FirstExcess (before ++ ss.map Segment.tag) reached tag ∧
        (p.run conventions source ss).result = .error
          (errorAt source (if p'.openTags = [] then .unmatchedClose else .noMatchingOpen) tag) := by
  induction ss generalizing p before with
  | nil =>
    refine Or.inl ⟨p, rfl, ?_⟩
    rwa [List.map_nil, List.append_nil]
  | cons s ss ih =>
    have happend : before ++ (s :: ss).map Segment.tag =
        before ++ [s.tag] ++ ss.map Segment.tag := by
      rw [List.map_cons, List.append_assoc, List.singleton_append]
    -- The invariant holds for the tags up to `s.tag`, or the run stops there.
    rcases h.step with ⟨next, hstep, hnext⟩ | ⟨hexcess, hstep⟩
    · rw [happend, Pass.run, hstep]
      exact ih hnext
    · refine Or.inr ⟨before, s.tag, p, h, ⟨?_, hexcess, h.noExcess⟩, ?_⟩
      · rw [happend]
        exact List.prefix_append _ _
      · rw [Pass.run, hstep]

/-- No tag is open just if the counts of each name are equal. -/
theorem openTags_eq_nil_iff_counts (h : p.Tracks before) :
    p.openTags = [] ↔ ∀ name, opens name before = closes name before := by
  rw [h.openTags_eq_nil_iff]
  exact forall_congr' fun name => h.noExcess.unmatched_eq_nil_iff

/-- If a closing tag is in excess, the tags that are open have another name. -/
theorem openTags_ne_nil_iff_counts (h : p.Tracks before) (hexcess : Excess before tag) :
    p.openTags ≠ [] ↔ ∃ name, name ≠ tag.name ∧ closes name before < opens name before := by
  rw [ne_eq, h.openTags_eq_nil_iff_counts, not_forall]
  constructor
  · rintro ⟨name, hne⟩
    have hcount := h.noExcess.length_unmatched name
    refine ⟨name, ?_, by omega⟩
    rintro rfl
    exact hne hexcess.2
  · rintro ⟨name, _, hlt⟩
    exact ⟨name, by omega⟩

/-- The tags that a pass has gone over are balanced just if no tag is open. -/
theorem balanced_iff_nesting (h : p.Tracks before) : Balanced before ↔ p.nesting = [] := by
  rw [balanced_iff, ← h.openTags_eq_nil_iff, openTags, List.map_eq_nil_iff]
  exact and_iff_right h.noExcess

/-- The innermost open tag is the last of all unmatched ones. -/
theorem start_le (h : p.Tracks before) (hplaces : before.Pairwise (fun a b => a.start < b.start))
    {frame : Frame} {frames : Nesting} (hnesting : p.nesting = frame :: frames) {tag : Tag}
    (htag : tag ∈ p.openTags) : tag.start ≤ frame.tag.start := by
  have hdecreasing := (List.pairwise_reverse.2 hplaces).sublist h.sublist
  rw [openTags, hnesting, List.map_cons] at hdecreasing htag
  rcases List.mem_cons.1 htag with rfl | hmem
  · exact Nat.le_refl _
  · exact Nat.le_of_lt ((List.pairwise_cons.1 hdecreasing).1 tag hmem)

end Tracks

end Pass

/-! ## Accepted templates -/

theorem FirstExcess.not_noExcess {ts before : List Tag} {tag : Tag}
    (h : FirstExcess ts before tag) : ¬ NoExcess ts :=
  fun hno => hno before tag h.1 h.2.1

/-- The error at a closing tag in excess says whether all tags before it are closed or some tag of
another name is open. -/
theorem Pass.Tracks.fault_iff {p : Pass} {before : List Tag} {tag : Tag} (h : p.Tracks before)
    (hexcess : Excess before tag) :
    ((if p.openTags = [] then StructuralFault.unmatchedClose else .noMatchingOpen) =
        .unmatchedClose ↔ ∀ name, opens name before = closes name before) ∧
      ((if p.openTags = [] then StructuralFault.unmatchedClose else .noMatchingOpen) =
        .noMatchingOpen ↔ ∃ name, name ≠ tag.name ∧ closes name before < opens name before) := by
  rw [← h.openTags_eq_nil_iff_counts, ← h.openTags_ne_nil_iff_counts hexcess]
  by_cases hopen : p.openTags = []
  · simp [hopen]
  · simp [hopen]

/-- A template is accepted, or it fails at its first closing tag in excess, or at the last of its
unmatched opening tags. -/
theorem transpile_cases (conventions : Conventions) (source : Text) :
    (Balanced (tags source) ∧ ∃ r, transpile conventions source = .ok r) ∨
    (∃ before tag fault, FirstExcess (tags source) before tag ∧
      transpile conventions source = .error (Pass.errorAt source fault tag) ∧
      (fault = .unmatchedClose ↔ ∀ name, opens name before = closes name before) ∧
      (fault = .noMatchingOpen ↔
        ∃ name, name ≠ tag.name ∧ closes name before < opens name before)) ∨
    (¬ Balanced (tags source) ∧ NoExcess (tags source) ∧
      ∃ name, ∃ tag ∈ unmatched name (tags source),
        transpile conventions source = .error (Pass.errorAt source .unclosedOpen tag) ∧
        ∀ name', ∀ tag' ∈ unmatched name' (tags source), tag'.start ≤ tag.start) := by
  rcases Pass.tracks_start.run (segments source).1 with
    ⟨p, hrun, htracks⟩ | ⟨before, tag, p, htracks, hfirst, hrun⟩
  · replace htracks : p.Tracks (tags source) := htracks
    cases hnesting : p.nesting with
    | nil =>
      exact Or.inl ⟨htracks.balanced_iff_nesting.2 hnesting, _, transpile_of_closed hrun hnesting⟩
    | cons frame frames =>
      have hnot : ¬ Balanced (tags source) := by
        rw [htracks.balanced_iff_nesting, hnesting]
        exact List.cons_ne_nil _ _
      have hmem : frame.tag ∈ p.openTags := by
        rw [Pass.openTags, hnesting]
        exact List.mem_cons_self
      refine Or.inr (Or.inr ⟨hnot, htracks.noExcess, frame.tag.name, frame.tag,
        htracks.mem_openTags_iff.1 hmem, transpile_of_open hrun hnesting, ?_⟩)
      intro name tag htag
      rw [← htracks.filter_openTags] at htag
      exact htracks.start_le (pairwise_start_tags source) hnesting (List.mem_filter.1 htag).1
  · exact Or.inr (Or.inl ⟨before, tag, _, hfirst, transpile_of_error hrun,
      htracks.fault_iff hfirst.2.1⟩)

/-- Whether a template is accepted is decided by counting its tags, and so is the error. It is
accepted just if its tags are balanced. If some closing tag is in excess, the error is at the first
such tag. Otherwise it is at the last of the opening tags that are left unmatched. -/
theorem transpile_of_counts (conventions : Conventions) (source : Text) :
    ((∃ r, transpile conventions source = .ok r) ↔ Balanced (tags source)) ∧
    (¬ NoExcess (tags source) → ∃ before tag fault, FirstExcess (tags source) before tag ∧
      transpile conventions source =
        .error ⟨fault, tag.text, tag.start, Text.position source tag.start⟩ ∧
      (fault = .unmatchedClose ↔ ∀ name, opens name before = closes name before) ∧
      (fault = .noMatchingOpen ↔
        ∃ name, name ≠ tag.name ∧ closes name before < opens name before)) ∧
    (¬ Balanced (tags source) → NoExcess (tags source) →
      ∃ name, ∃ tag ∈ unmatched name (tags source),
        transpile conventions source =
          .error ⟨.unclosedOpen, tag.text, tag.start, Text.position source tag.start⟩ ∧
        ∀ name', ∀ tag' ∈ unmatched name' (tags source), tag'.start ≤ tag.start) := by
  have hnoExcess : Balanced (tags source) → NoExcess (tags source) := fun h => (balanced_iff.1 h).1
  rcases transpile_cases conventions source with
    ⟨hbalanced, hok⟩ | ⟨before, tag, fault, hfirst, herror, hfault⟩ | ⟨hnot, hno, hopen⟩
  · refine ⟨⟨fun _ => hbalanced, fun _ => hok⟩, ?_, ?_⟩
    · intro hexcess
      exact absurd (hnoExcess hbalanced) hexcess
    · intro hnot
      exact absurd hbalanced hnot
  · have hexcess := hfirst.not_noExcess
    refine ⟨⟨?_, ?_⟩, fun _ => ⟨before, tag, fault, hfirst, herror, hfault⟩, ?_⟩
    · rintro ⟨r, hr⟩
      rw [herror] at hr
      cases hr
    · intro hbalanced
      exact absurd (hnoExcess hbalanced) hexcess
    · intro _ hno
      exact absurd hno hexcess
  · refine ⟨⟨?_, fun hbalanced => absurd hbalanced hnot⟩, ?_, fun _ _ => hopen⟩
    · rintro ⟨r, hr⟩
      obtain ⟨name, tag, _, herror, _⟩ := hopen
      rw [herror] at hr
      cases hr
    · intro hexcess
      exact absurd hno hexcess

/-- The second `</A>` of one template is in excess, and the first `<B>` of the other one is left
unmatched, though it is not the last block tag. -/
theorem transpile_of_counts_crossing :
    let excess := "<A><B></A></A></B>".toList
    let unclosed := "<A>\n<B><B></A></B>".toList
    (¬ NoExcess (tags excess) ∧
      ∃ before tag fault, FirstExcess (tags excess) before tag ∧
        (⟨fault, tag.text, tag.start, Text.position excess tag.start⟩ : StructuralError) =
          ⟨.noMatchingOpen, "</A>".toList, 10, ⟨1, 11⟩⟩ ∧
        transpile .standard excess = .error ⟨.noMatchingOpen, "</A>".toList, 10, ⟨1, 11⟩⟩ ∧
        ∃ name, name ≠ tag.name ∧ closes name before < opens name before) ∧
    ¬ Balanced (tags unclosed) ∧ NoExcess (tags unclosed) ∧
      ∃ name, ∃ tag ∈ unmatched name (tags unclosed),
        (⟨.unclosedOpen, tag.text, tag.start, Text.position unclosed tag.start⟩ : StructuralError) =
          ⟨.unclosedOpen, "<B>".toList, 4, ⟨2, 1⟩⟩ ∧
        transpile .standard unclosed = .error ⟨.unclosedOpen, "<B>".toList, 4, ⟨2, 1⟩⟩ := by
  intro excess unclosed
  have hexcess : ¬ NoExcess (tags excess) := by decide +kernel
  have hno : NoExcess (tags unclosed) := by decide +kernel
  have hcounts : opens "B".toList (tags unclosed) ≠ closes "B".toList (tags unclosed) := by
    decide +kernel
  have hnot : ¬ Balanced (tags unclosed) := fun h => hcounts (h _).2
  have herror : transpile .standard excess =
      .error ⟨.noMatchingOpen, "</A>".toList, 10, ⟨1, 11⟩⟩ := by decide +kernel
  have herror' : transpile .standard unclosed =
      .error ⟨.unclosedOpen, "<B>".toList, 4, ⟨2, 1⟩⟩ := by decide +kernel
  obtain ⟨before, tag, fault, hfirst, hat, -, hother⟩ :=
    (transpile_of_counts .standard excess).2.1 hexcess
  obtain ⟨name, tag', hmem, hat', -⟩ := (transpile_of_counts .standard unclosed).2.2 hnot hno
  have heq := Except.error.inj (hat.symm.trans herror)
  exact ⟨⟨hexcess, before, tag, fault, hfirst, heq, herror,
      hother.1 (congrArg StructuralError.fault heq)⟩,
    hnot, hno, name, tag', hmem, Except.error.inj (hat'.symm.trans herror'), herror'⟩

end ErbTags
