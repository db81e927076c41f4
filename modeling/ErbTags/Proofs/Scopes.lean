import ErbTags.Proofs.TwoPhase
import Mathlib.Data.List.Induction

/-!
# Where block variables are in scope

Two ways to match tags meet in the generated text. A closing tag ends the nearest open block of its
name, and a slot tag fills a slot of the innermost block that is open in this sense. In the
generated text, though, an end closes whatever block was opened last. Read that way, the blocks that
are open after some tags are `openBlocks`.

The two agree on how many blocks are open (`length_openBlocks`). The call for a slot stands inside
the block of its parent exactly if no block around the parent was ended between the two tags
(`slotCall_inside_iff`). A template with crossing tags can break this (`slotCall_outside`).

Linked tags come with the latest first here, as they are recorded.
-/

namespace ErbTags

/-- The generated blocks that are open after the fragments of some tags, innermost first, named by
their opening tags. The fragment of a closing tag closes the innermost one, whichever tag it was
written for. -/
def openBlocks : List Linked → List Tag
  | [] => []
  | l :: done =>
    match l.tag.kind with
    | .opening => l.tag :: openBlocks done
    | .selfClosing => openBlocks done
    | .closing => (openBlocks done).tail

/-- Each tag has the record that the tags before it lead to. -/
def LinkedBy (conventions : Conventions) : List Linked → Prop
  | [] => True
  | l :: done => linkOf conventions done l.tag = .ok l.link ∧ LinkedBy conventions done

section Blocks

variable {l : Linked} {done : List Linked}

theorem openBlocks_opening (h : l.tag.kind = .opening) :
    openBlocks (l :: done) = l.tag :: openBlocks done := by
  rw [openBlocks, h]

theorem openBlocks_selfClosing (h : l.tag.kind = .selfClosing) :
    openBlocks (l :: done) = openBlocks done := by
  rw [openBlocks, h]

theorem openBlocks_closing (h : l.tag.kind = .closing) :
    openBlocks (l :: done) = (openBlocks done).tail := by
  rw [openBlocks, h]

theorem mem_of_mem_openBlocks {tag : Tag} (h : tag ∈ openBlocks done) :
    tag ∈ done.map Linked.tag := by
  induction done with
  | nil => cases h
  | cons l done ih =>
    rw [List.map_cons, List.mem_cons]
    cases hkind : l.tag.kind with
    | opening =>
      rw [openBlocks_opening hkind, List.mem_cons] at h
      exact h.imp_right ih
    | selfClosing =>
      rw [openBlocks_selfClosing hkind] at h
      exact Or.inr (ih h)
    | closing =>
      rw [openBlocks_closing hkind] at h
      exact Or.inr (ih (List.mem_of_mem_tail h))

end Blocks

/-! ## Records that follow one another -/

section Records

variable {conventions : Conventions} {source : Text} {done later : List Linked} {l : Linked}

theorem LinkedBy.of_append (h : LinkedBy conventions (later ++ done)) :
    LinkedBy conventions done := by
  induction later with
  | nil => exact h
  | cons l later ih => exact ih h.2

theorem linkedBy_of_linkAll {ts : List Tag} {all : List Linked} (h : LinkedBy conventions done)
    (hall : linkAll conventions source done ts = .ok all) :
    LinkedBy conventions all ∧ all.map Linked.tag = ts.reverse ++ done.map Linked.tag := by
  induction ts generalizing done with
  | nil =>
    obtain rfl : done = all := Except.ok.inj hall
    exact ⟨h, rfl⟩
  | cons tag ts ih =>
    rw [linkAll] at hall
    cases hlink : linkOf conventions done tag with
    | error fault =>
      rw [hlink] at hall
      cases hall
    | ok link =>
      rw [hlink] at hall
      have hnext : LinkedBy conventions (⟨tag, link⟩ :: done) := ⟨hlink, h⟩
      obtain ⟨hlinked, htags⟩ := ih hnext hall
      refine ⟨hlinked, ?_⟩
      rw [htags]
      simp

theorem linkAll_of_linkedBy (source : Text) (h : LinkedBy conventions (later ++ done)) :
    linkAll conventions source done (later.reverse.map Linked.tag) = .ok (later ++ done) := by
  induction later using List.reverseRecOn generalizing done with
  | nil => rfl
  | append_singleton later l ih =>
    rw [List.append_assoc] at h ⊢
    have hl : linkOf conventions done l.tag = .ok l.link := h.of_append.1
    rw [List.reverse_append, List.map_append]
    show linkAll conventions source done (l.tag :: later.reverse.map Linked.tag) = _
    rw [linkAll, hl]
    exact ih h

/-- A tag ends an open block, or else it fills at most a slot of the innermost open one. -/
theorem linkOf_inversion {tag : Tag} {link : Link}
    (h : linkOf conventions done tag = .ok link) :
    (tag.kind = .closing ∧ ∃ inner m outer, stillOpen done = inner ++ m :: outer ∧
        link = .close m.tag) ∨
      (tag.kind ≠ .closing ∧ link.opener? = none ∧
        ∀ parent, link.parent? = some parent → ∃ m, parentOf? (stillOpen done) = some m ∧
          m.tag = parent) := by
  by_cases hkind : tag.kind = .closing
  · rw [linkOf, hkind] at h
    cases hfind : (stillOpen done).find? (·.tag.name = tag.name) with
    | none =>
      simp only [hfind] at h
      cases h
    | some m =>
      simp only [hfind] at h
      obtain ⟨-, inner, outer, hopen, -⟩ := List.find?_eq_some_iff_append.1 hfind
      exact Or.inl ⟨hkind, inner, m, outer, hopen, (Except.ok.inj h).symm⟩
  · refine Or.inr ⟨hkind, ?_⟩
    cases hslot : Name.slotName tag.name conventions.slotPrefix with
    | none =>
      obtain rfl := Except.ok.inj (h.symm.trans (linkOf_component hkind (Or.inl hslot)))
      exact ⟨rfl, fun parent hparent => by cases hparent⟩
    | some slot =>
      cases hparent : parentOf? (stillOpen done) with
      | none =>
        obtain rfl := Except.ok.inj (h.symm.trans (linkOf_component hkind (Or.inr hparent)))
        exact ⟨rfl, fun parent hparent => by cases hparent⟩
      | some m =>
        obtain rfl := Except.ok.inj (h.symm.trans (linkOf_slot hkind hslot hparent))
        exact ⟨rfl, fun parent heq => ⟨m, rfl, Option.some.inj heq⟩⟩

theorem LinkedBy.wellLinked (h : LinkedBy conventions done)
    (hnodup : (done.map Linked.tag).Nodup) : WellLinked done := by
  induction done with
  | nil =>
    refine ⟨List.nodup_nil, ?_, ?_⟩
    · intro l hl
      cases hl
    · intro l hl
      cases hl
  | cons l done ih =>
    rw [List.map_cons, List.nodup_cons] at hnodup
    refine (ih h.2 hnodup.2).cons hnodup.1 ?_ ?_
    · intro tag htag
      rcases linkOf_inversion h.1 with ⟨-, inner, m, outer, -, hlink⟩ | ⟨-, -, hparent⟩
      · rw [hlink] at htag
        cases htag
      · obtain ⟨m, hm, rfl⟩ := hparent tag htag
        obtain ⟨rest, hopen⟩ := eq_cons_of_parentOf? hm
        exact mem_of_mem_stillOpen (by rw [hopen]; exact List.mem_cons_self)
    · intro tag htag
      rcases linkOf_inversion h.1 with ⟨-, inner, m, outer, hopen, hlink⟩ | ⟨-, hnone, -⟩
      · rw [hlink] at htag
        rw [← Option.some.inj htag]
        exact mem_of_mem_stillOpen (by rw [hopen]; simp)
      · rw [hnone] at htag
        cases htag

/-- Both ways of matching count the same number of open blocks. -/
theorem LinkedBy.length_openBlocks (h : LinkedBy conventions done)
    (hnodup : (done.map Linked.tag).Nodup) :
    (openBlocks done).length = (stillOpen done).length := by
  induction done with
  | nil => rfl
  | cons l done ih =>
    rw [List.map_cons, List.nodup_cons] at hnodup
    have hlength := ih h.2 hnodup.2
    have hwell := h.2.wellLinked hnodup.2
    rcases linkOf_inversion h.1 with ⟨hkind, inner, m, outer, hopen, hlink⟩ | ⟨hkind, hopener, -⟩
    · rw [openBlocks_closing hkind, hwell.stillOpen_close hopen hkind hlink, List.length_tail,
        hlength, hopen]
      simp only [List.length_append, List.length_cons]
      omega
    · rw [hwell.stillOpen_cons hnodup.1 hopener]
      cases hk : l.tag.kind with
      | closing => exact absurd hk hkind
      | selfClosing =>
        rw [openBlocks_selfClosing hk, if_neg (by decide)]
        exact hlength
      | opening =>
        rw [openBlocks_opening hk, if_pos rfl, List.length_cons, List.length_cons, hlength]

theorem LinkedBy.opener?_eq_none (h : LinkedBy conventions (l :: done))
    (hkind : l.tag.kind = .opening) : l.link.opener? = none := by
  rcases linkOf_inversion h.1 with ⟨hclosing, -⟩ | ⟨-, hopener, -⟩
  · rw [hkind] at hclosing
    cases hclosing
  · exact hopener

theorem isEnded_eq_false_iff {tag : Tag} :
    isEnded done tag = false ↔ ∀ x ∈ done, x.link ≠ .close tag := by
  have hlink : ∀ link : Link, link.opener? = some tag ↔ link = .close tag := by
    intro link
    cases link <;> simp [Link.opener?]
  simp [isEnded, hlink]

theorem isEnded_append {tag : Tag} :
    isEnded (later ++ done) tag = (isEnded later tag || isEnded done tag) :=
  List.any_append

end Records

/-! ## From a block to a tag inside it -/

section Between

variable {conventions : Conventions} {between earlier outer : List Linked} {opener : Linked}

/-- Either a block is still open, inside the blocks that were open before it, or at some time since
there were only as many open blocks as before it. -/
theorem openBlocks_append_cases (hkind : opener.tag.kind = .opening)
    (hnodup : ((between ++ opener :: earlier).map Linked.tag).Nodup) :
    (∃ inner, openBlocks (between ++ opener :: earlier) =
        inner ++ opener.tag :: openBlocks earlier) ∨
      (opener.tag ∉ openBlocks (between ++ opener :: earlier) ∧
        ∃ later since, between = later ++ since ∧
          (openBlocks (since ++ opener :: earlier)).length = (openBlocks earlier).length) := by
  induction between with
  | nil => exact Or.inl ⟨[], openBlocks_opening hkind⟩
  | cons x between ih =>
    rw [List.cons_append, List.map_cons, List.nodup_cons] at hnodup
    have hne : opener.tag ≠ x.tag := by
      intro heq
      exact hnodup.1 (heq ▸ List.mem_map_of_mem (by simp))
    rw [List.cons_append]
    rcases ih hnodup.2 with ⟨inner, hopen⟩ | ⟨hgone, later, since, rfl, hlength⟩
    · cases hx : x.tag.kind with
      | opening => exact Or.inl ⟨x.tag :: inner, by rw [openBlocks_opening hx, hopen]; rfl⟩
      | selfClosing => exact Or.inl ⟨inner, by rw [openBlocks_selfClosing hx, hopen]⟩
      | closing =>
        cases inner with
        | cons tag inner => exact Or.inl ⟨inner, by rw [openBlocks_closing hx, hopen]; rfl⟩
        | nil =>
          -- The block itself is the innermost one, so this end closes it.
          have hrest : openBlocks (x :: (between ++ opener :: earlier)) = openBlocks earlier := by
            rw [openBlocks_closing hx, hopen]
            rfl
          refine Or.inr ⟨?_, [], x :: between, rfl, by rw [List.cons_append, hrest]⟩
          intro hmem
          rw [hrest] at hmem
          have hearlier := hnodup.2
          rw [List.map_append, List.map_cons, List.nodup_append, List.nodup_cons] at hearlier
          exact hearlier.2.1.1 (mem_of_mem_openBlocks hmem)
    · refine Or.inr ⟨?_, x :: later, since, rfl, hlength⟩
      intro hmem
      cases hx : x.tag.kind with
      | opening =>
        rw [openBlocks_opening hx, List.mem_cons] at hmem
        exact hgone (hmem.resolve_left hne)
      | selfClosing =>
        rw [openBlocks_selfClosing hx] at hmem
        exact hgone hmem
      | closing =>
        rw [openBlocks_closing hx] at hmem
        exact hgone (List.mem_of_mem_tail hmem)

/-- If neither a block nor one around it was ended since, they are all among the open ones. -/
theorem LinkedBy.stillOpen_append (h : LinkedBy conventions (between ++ opener :: earlier))
    (hnodup : ((between ++ opener :: earlier).map Linked.tag).Nodup)
    (hkind : opener.tag.kind = .opening)
    (hkept : ∀ o ∈ opener :: earlier, isEnded between o.tag = false) :
    stillOpen (between ++ opener :: earlier) =
      between.filter (isOpen (between ++ opener :: earlier)) ++ opener :: stillOpen earlier := by
  have hopener : opener.link.opener? = none := h.of_append.opener?_eq_none hkind
  have hsuffix : ((opener :: earlier).map Linked.tag).Nodup :=
    hnodup.sublist ((List.sublist_append_right _ _).map _)
  rw [List.map_cons, List.nodup_cons] at hsuffix
  have hsame : ∀ o ∈ opener :: earlier, isOpen (between ++ opener :: earlier) o =
      isOpen (opener :: earlier) o := by
    intro o ho
    rw [isOpen, isOpen, isEnded_append, hkept o ho, Bool.false_or]
  rw [stillOpen, List.filter_append, List.filter_congr hsame, ← stillOpen,
    (h.of_append.2.wellLinked hsuffix.2).stillOpen_cons hsuffix.1 hopener, if_pos hkind]

/-- If a block is the innermost open one, the others are those around it that were not ended. -/
theorem stillOpen_outer (hnodup : ((between ++ opener :: earlier).map Linked.tag).Nodup)
    (hopen : stillOpen (between ++ opener :: earlier) = opener :: outer) :
    outer = earlier.filter (isOpen (between ++ opener :: earlier)) := by
  have hself : isOpen (between ++ opener :: earlier) opener = true := by
    refine List.of_mem_filter (a := opener) (l := between ++ opener :: earlier) ?_
    rw [← stillOpen, hopen]
    exact List.mem_cons_self
  rw [stillOpen, List.filter_append, List.filter_cons_of_pos hself] at hopen
  cases hinner : between.filter (isOpen (between ++ opener :: earlier)) with
  | nil =>
    rw [hinner, List.nil_append] at hopen
    exact (List.cons.inj hopen).2.symm
  | cons x inner =>
    rw [hinner, List.cons_append] at hopen
    have hmem : opener ∈ between := by
      rw [← (List.cons.inj hopen).1]
      exact List.mem_of_mem_filter (hinner ▸ List.mem_cons_self)
    rw [List.map_append, List.nodup_append] at hnodup
    exact absurd rfl (hnodup.2.2 opener.tag (List.mem_map_of_mem hmem) opener.tag (by simp))

/-- A block stays open in the generated text if no block around it is ended. -/
theorem LinkedBy.mem_openBlocks (h : LinkedBy conventions (between ++ opener :: earlier))
    (hnodup : ((between ++ opener :: earlier).map Linked.tag).Nodup)
    (hkind : opener.tag.kind = .opening)
    (hkept : ∀ o ∈ opener :: earlier, isEnded between o.tag = false) :
    opener.tag ∈ openBlocks (between ++ opener :: earlier) := by
  rcases openBlocks_append_cases hkind hnodup with
    ⟨inner, hblocks⟩ | ⟨-, later, since, rfl, hlength⟩
  · rw [hblocks]
    simp
  · exfalso
    rw [List.append_assoc] at h hnodup
    have hsince := hnodup.sublist ((List.sublist_append_right later _).map Linked.tag)
    have hearlier := hsince.sublist ((List.sublist_append_right since _).map Linked.tag)
    rw [List.map_cons, List.nodup_cons] at hearlier
    have hkept' : ∀ o ∈ opener :: earlier, isEnded since o.tag = false := by
      intro o ho
      have hended := hkept o ho
      rw [isEnded_append, Bool.or_eq_false_iff] at hended
      exact hended.2
    rw [h.of_append.length_openBlocks hsince, h.of_append.stillOpen_append hsince hkind hkept',
      h.of_append.of_append.2.length_openBlocks hearlier.2] at hlength
    simp only [List.length_append, List.length_cons] at hlength
    omega

/-- If the innermost open block is open in the generated text too, all blocks around it that were
open before it still are. -/
theorem LinkedBy.outer_eq (h : LinkedBy conventions (between ++ opener :: earlier))
    (hnodup : ((between ++ opener :: earlier).map Linked.tag).Nodup)
    (hopen : stillOpen (between ++ opener :: earlier) = opener :: outer)
    (hmem : opener.tag ∈ openBlocks (between ++ opener :: earlier)) :
    outer = stillOpen earlier := by
  have hkind : opener.tag.kind = .opening :=
    (mem_stillOpen.1 (hopen ▸ List.mem_cons_self : opener ∈ stillOpen _)).2.1
  have hearlier := hnodup.sublist ((List.sublist_append_right between _).map Linked.tag)
  rw [List.map_cons, List.nodup_cons] at hearlier
  have hsub : outer.Sublist (stillOpen earlier) := by
    rw [stillOpen_outer hnodup hopen]
    refine List.monotone_filter_right earlier ?_
    intro o ho
    rw [isOpen, isEnded_append, isEnded_cons] at ho
    rw [isOpen]
    simp only [Bool.and_eq_true, Bool.not_eq_true', Bool.or_eq_false_iff] at ho ⊢
    exact ⟨ho.1, ho.2.2.2⟩
  refine hsub.eq_of_length_le ?_
  rcases openBlocks_append_cases hkind hnodup with ⟨inner, hblocks⟩ | ⟨hgone, -⟩
  · have hlength := h.length_openBlocks hnodup
    rw [hblocks, hopen, List.length_append, List.length_cons, List.length_cons,
      h.of_append.2.length_openBlocks hearlier.2] at hlength
    omega
  · exact absurd hmem hgone

/-- The innermost open block is open in the generated text exactly if no block around it was ended
since. -/
theorem LinkedBy.mem_openBlocks_iff (h : LinkedBy conventions (between ++ opener :: earlier))
    (hnodup : ((between ++ opener :: earlier).map Linked.tag).Nodup)
    (hopen : stillOpen (between ++ opener :: earlier) = opener :: outer) :
    opener.tag ∈ openBlocks (between ++ opener :: earlier) ↔
      ∀ x ∈ between, ∀ o ∈ earlier, x.link ≠ .close o.tag := by
  obtain ⟨-, hkind, hself⟩ :=
    mem_stillOpen.1 (hopen ▸ List.mem_cons_self : opener ∈ stillOpen (between ++ opener :: earlier))
  constructor
  · intro hmem x hx o ho hlink
    -- When `x` ended the block of `o`, that block was open, and it had been before the block.
    obtain ⟨later, since, rfl⟩ := List.append_of_mem hx
    rw [List.append_assoc, List.cons_append] at h
    rcases linkOf_inversion h.of_append.1 with ⟨-, inner, m, outer', hopen', hlink'⟩ | ⟨-, hnone, -⟩
    · have hm : m ∈ stillOpen (since ++ opener :: earlier) := by
        rw [hopen']
        simp
      have htag : m.tag = o.tag := by
        rw [hlink] at hlink'
        exact (Link.close.inj hlink').symm
      obtain ⟨-, hkind', hended⟩ := mem_stillOpen.1 hm
      rw [htag, isEnded_append, isEnded_cons, Bool.or_eq_false_iff, Bool.or_eq_false_iff] at hended
      have hbefore : o ∈ stillOpen earlier := mem_stillOpen.2 ⟨ho, htag ▸ hkind', hended.2.2⟩
      rw [← List.cons_append, ← List.append_assoc] at h
      rw [← h.outer_eq hnodup hopen hmem, stillOpen_outer hnodup hopen, List.mem_filter] at hbefore
      have hstill : isEnded (later ++ x :: since) o.tag = false := by
        have hopenNow := hbefore.2
        rw [isOpen, isEnded_append] at hopenNow
        simp only [Bool.and_eq_true, Bool.not_eq_true', Bool.or_eq_false_iff] at hopenNow
        exact hopenNow.2.1
      exact isEnded_eq_false_iff.1 hstill x hx hlink
    · rw [hlink] at hnone
      cases hnone
  · intro hkept
    refine h.mem_openBlocks hnodup hkind ?_
    intro o ho
    rcases List.mem_cons.1 ho with rfl | ho
    · rw [isEnded_append, Bool.or_eq_false_iff] at hself
      exact hself.1
    · exact isEnded_eq_false_iff.2 fun x hx => hkept x hx o ho

end Between

/-! ## Slots of whole templates -/

section Templates

variable {conventions : Conventions} {source : Text}

/-- The states of a pass over the first segments of a template correspond to the records of their
tags. -/
theorem run_passOf_segments (conventions : Conventions) (source : Text) {ss : List Segment}
    (hss : ss.Sublist (segments source).1) :
    (∃ e, linkAll conventions source [] (ss.map Segment.tag) = .error e ∧
        (Pass.start.run conventions source ss).result = .error e) ∨
      ∃ done, linkAll conventions source [] (ss.map Segment.tag) = .ok (done.map Prod.snd) ∧
        done.map Prod.fst = (ss.map Segment.gap).reverse ∧
        (Pass.start.run conventions source ss).result = .ok (passOf conventions done) := by
  have hstart : Pass.start = passOf conventions [] := Pass.ext (Output.push_nil _).symm rfl
  have hnodup : (ss.map Segment.tag).Nodup := (nodup_tags source).sublist (hss.map Segment.tag)
  have hnil : LinkedBy conventions [] := trivial
  have hrun := run_passOf conventions source ss [] (hnil.wellLinked List.nodup_nil) hnodup
    (fun s _ hmem => by cases hmem)
  rw [← hstart] at hrun
  simpa using hrun

/-- A template that succeeds has records for all its tags, and its output is put together from
their fragments. -/
theorem exists_linkAll_of_transpile {r : Transpiled} (h : transpile conventions source = .ok r) :
    ∃ done, linkAll conventions source [] (tags source) = .ok done ∧
      r.output = interleave ((segments source).1.map Segment.gap ++ [(segments source).2])
        (done.reverse.map fun l => l.fragment conventions (declares done l)) := by
  rcases run_passOf_segments conventions source (List.Sublist.refl _) with
    ⟨e, -, hresult⟩ | ⟨done, hlinks, hgaps, hresult⟩
  · rw [transpile_of_error hresult] at h
    cases h
  · refine ⟨done.map Prod.snd, hlinks, ?_⟩
    cases hopen : stillOpen (done.map Prod.snd) with
    | cons l ls =>
      have hnesting : (passOf conventions done).nesting =
          frameOf conventions done l :: ls.map (frameOf conventions done) := by
        rw [passOf, hopen, List.map_cons]
      rw [transpile_of_open hresult hnesting] at h
      cases h
    | nil =>
      have hnesting : (passOf conventions done).nesting = [] := by
        rw [passOf, hopen, List.map_nil]
      have hgaps' : (segments source).1.map Segment.gap = done.reverse.map Prod.fst := by
        rw [List.map_reverse, hgaps, List.reverse_reverse]
      rw [transpile_of_closed hresult hnesting] at h
      rw [← Except.ok.inj h, hgaps', interleave_fragments conventions _ hopen]

/-- The pass over the tags before a slot tag chooses the frame of the parent that is recorded. -/
theorem slotParent?_of_linkedBy {later before : List Linked} {l : Linked} {parent : Tag}
    {slot : Text} (h : LinkedBy conventions (later ++ l :: before))
    (htags : (later ++ l :: before).map Linked.tag = (tags source).reverse)
    (hlink : l.link = .slot parent slot) :
    ∃ p, (Pass.start.run conventions source ((segments source).1.take before.length)).result =
        .ok p ∧ p.nesting.slotParent?.map Frame.tag = some parent := by
  have hbefore : ((segments source).1.take before.length).map Segment.tag =
      before.reverse.map Linked.tag := by
    rw [List.map_take, ← tags, ← List.reverse_reverse (tags source), ← htags]
    simp
  have hlinked : LinkedBy conventions (before ++ []) := by
    rw [List.append_nil]
    exact h.of_append.2
  have hlinks := linkAll_of_linkedBy source hlinked
  rw [List.append_nil, ← hbefore] at hlinks
  rcases run_passOf_segments conventions source (List.take_sublist before.length _) with
    ⟨e, herror, -⟩ | ⟨done, hdone, -, hresult⟩
  · rw [hlinks] at herror
    cases herror
  · refine ⟨passOf conventions done, hresult, ?_⟩
    obtain rfl : before = done.map Prod.snd := Except.ok.inj (hlinks.symm.trans hdone)
    have hl := h.of_append.1
    rw [hlink] at hl
    rcases linkOf_inversion hl with ⟨-, inner, m, outer, -, heq⟩ | ⟨-, -, hparent⟩
    · cases heq
    · obtain ⟨m, hm, rfl⟩ := hparent parent rfl
      rw [passOf, slotParent?_frames, hm]
      rfl

/-- The output of a template that succeeds is put together from the fragments of its tags. The
parent that the pass chooses for a slot tag stands before it and declares the variable that the call
for the slot is made on. The call stands inside the block of that parent exactly if no block that
was open around the parent is ended between the two. -/
theorem slotCall_inside_iff {r : Transpiled} (h : transpile conventions source = .ok r) :
    ∃ done, linkAll conventions source [] (tags source) = .ok done ∧
      r.output = interleave ((segments source).1.map Segment.gap ++ [(segments source).2])
        (done.reverse.map fun l => l.fragment conventions (declares done l)) ∧
      ∀ later l before parent slot, done = later ++ l :: before → l.link = .slot parent slot →
        ∃ between opener earlier, before = between ++ opener :: earlier ∧ opener.tag = parent ∧
          (∃ p, (Pass.start.run conventions source
              ((segments source).1.take before.length)).result = .ok p ∧
            p.nesting.slotParent?.map Frame.tag = some parent) ∧
          parent.kind = .opening ∧ declares done opener = true ∧
          l.call conventions = Fragment.slotCall parent.blockVariable slot l.tag.arguments ∧
          (parent ∈ openBlocks before ↔ ∀ x ∈ between, ∀ o ∈ earlier, x.link ≠ .close o.tag) := by
  obtain ⟨done, hlinks, houtput⟩ := exists_linkAll_of_transpile h
  refine ⟨done, hlinks, houtput, ?_⟩
  rintro later l before parent slot rfl hlink
  have hnil : LinkedBy conventions [] := trivial
  obtain ⟨hlinked, htags⟩ := linkedBy_of_linkAll hnil hlinks
  rw [List.map_nil, List.append_nil] at htags
  have hnodup : ((later ++ l :: before).map Linked.tag).Nodup := by
    rw [htags]
    exact List.nodup_reverse.2 (nodup_tags source)
  have hbefore : (before.map Linked.tag).Nodup :=
    hnodup.sublist (((List.sublist_cons_self _ _).trans (List.sublist_append_right _ _)).map _)
  rcases linkOf_inversion hlinked.of_append.1 with ⟨-, inner, m, outer, -, heq⟩ | ⟨-, -, hparent⟩
  · rw [hlink] at heq
    cases heq
  · obtain ⟨opener, hopener, htag⟩ := hparent parent (by rw [hlink]; rfl)
    obtain ⟨outer, hopen⟩ := eq_cons_of_parentOf? hopener
    obtain ⟨hmem, hkind, -⟩ :=
      mem_stillOpen.1 (hopen ▸ List.mem_cons_self : opener ∈ stillOpen before)
    obtain ⟨between, earlier, rfl⟩ := List.append_of_mem hmem
    have hfilled : isFilled (later ++ l :: (between ++ opener :: earlier)) opener.tag = true := by
      rw [isFilled, List.any_eq_true]
      exact ⟨l, by simp, by simp [hlink, htag, Link.parent?]⟩
    have hinside := hlinked.of_append.2.mem_openBlocks_iff hbefore hopen
    rw [htag] at hinside
    refine ⟨between, opener, earlier, rfl, htag, slotParent?_of_linkedBy hlinked htags hlink,
      htag ▸ hkind, ?_, ?_, hinside⟩
    · rw [declares, hfilled, Bool.true_or]
    · exact call_slot conventions hlink

/-- Two blocks cross, but both were opened inside the parent of the slot. -/
theorem slotCall_inside_iff_crossing :
    let source := "<A><B><C></B></C><WithX /></A>".toList
    let a : Tag := ⟨.opening, ['A'], [], [], 0⟩
    let b : Tag := ⟨.opening, ['B'], [], [], 3⟩
    let c : Tag := ⟨.opening, ['C'], [], [], 6⟩
    let before : List Linked :=
      [⟨⟨.closing, ['C'], [], [], 13⟩, .close c⟩, ⟨⟨.closing, ['B'], [], [], 9⟩, .close b⟩,
        ⟨c, .component⟩, ⟨b, .component⟩, ⟨a, .component⟩]
    let slot : Linked := ⟨⟨.selfClosing, "WithX".toList, [' '], ['/'], 17⟩, .slot a ['x']⟩
    let last : Linked := ⟨⟨.closing, ['A'], [], [], 26⟩, .close a⟩
    let output := ("<%= render AComponent.new do |a| %><%= render BComponent.new do %>" ++
      "<%= render CComponent.new do %><% end %><% end %><% a.with_x %><% end %>").toList
    transpile .standard source = .ok ⟨output, []⟩ ∧
      linkAll .standard source [] (tags source) = .ok (last :: slot :: before) ∧
      a ∈ openBlocks before ∧
      ∃ between opener earlier, before = between ++ opener :: earlier ∧ opener.tag = a ∧
        ∀ x ∈ between, ∀ o ∈ earlier, x.link ≠ .close o.tag := by
  intro source a b c before slot last output
  have hok : transpile .standard source = .ok ⟨output, []⟩ := by decide +kernel
  have hlinks : linkAll .standard source [] (tags source) = .ok (last :: slot :: before) := by
    decide +kernel
  have hinside : a ∈ openBlocks before := by decide +kernel
  obtain ⟨done, hdone, -, hslots⟩ := slotCall_inside_iff hok
  obtain rfl : last :: slot :: before = done := Except.ok.inj (hlinks.symm.trans hdone)
  obtain ⟨between, opener, earlier, hbefore, htag, -, -, -, -, hiff⟩ :=
    hslots [last] slot before a ['x'] rfl rfl
  exact ⟨hok, hlinks, hinside, between, opener, earlier, hbefore, htag, hiff.1 hinside⟩

/-- The first closing tag ends the block of `A`, but in the generated text its end closes the block
inside, whose variable is used after that. -/
theorem slotCall_outside :
    let source := "<A><B></A><WithX /></B>".toList
    let a : Tag := ⟨.opening, ['A'], [], [], 0⟩
    let b : Tag := ⟨.opening, ['B'], [], [], 3⟩
    let before : List Linked :=
      [⟨⟨.closing, ['A'], [], [], 6⟩, .close a⟩, ⟨b, .component⟩, ⟨a, .component⟩]
    let slot : Linked := ⟨⟨.selfClosing, "WithX".toList, [' '], ['/'], 10⟩, .slot b ['x']⟩
    let last : Linked := ⟨⟨.closing, ['B'], [], [], 19⟩, .close b⟩
    transpile .standard source =
        .ok ⟨("<%= render AComponent.new do %><%= render BComponent.new do |b| %>" ++
          "<% end %><% b.with_x %><% end %>").toList, []⟩ ∧
      linkAll .standard source [] (tags source) = .ok (last :: slot :: before) ∧
      b ∉ openBlocks before := by
  decide +kernel

end Templates

end ErbTags
