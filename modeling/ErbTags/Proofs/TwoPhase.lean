import ErbTags.Proofs.Parameters

/-!
# A pass gives what two phases give

The pass inserts a block parameter when a block ends, into text that it gave out long before; two
phases know in advance which parameters there are. The two are compared step by step. The state of
the pass after a number of tags is a function of their records (`passOf`): the text in which
exactly the ended blocks have their parameters, and a frame for each tag that is still open, with
the place of its missing parameter in that text (`pointOf`). A step of the pass then does what one
more record does.
-/

namespace ErbTags

/-! ## The state of the pass -/

/-- Whether a block has its parameter by now: it was ended, and it declares its variable. -/
def hasParameter (links : List Linked) (l : Linked) : Bool :=
  isEnded links l.tag && declares links l

/-- The role of a tag that ends no block. -/
def Linked.role (l : Linked) : Role :=
  match l.link with
  | .component => .component l.tag.alias?.isSome
  | .slot parent slot => .slot parent.blockVariable slot
  | .close _ => .slot [] []

/-- The frame of an open tag. -/
def frameOf (conventions : Conventions) (done : List (Text × Linked)) (l : Linked) : Frame where
  tag := l.tag
  role := l.role
  arguments := l.tag.arguments
  blockVariable := l.tag.blockVariable
  hasSlot := isFilled (done.map Prod.snd) l.tag
  point := pointOf conventions (hasParameter (done.map Prod.snd)) done l

/-- The state of the pass after the given tags. -/
def passOf (conventions : Conventions) (done : List (Text × Linked)) : Pass where
  output := Output.empty.push (textOf conventions (hasParameter (done.map Prod.snd)) done)
  nesting := (stillOpen (done.map Prod.snd)).map (frameOf conventions done)

section State

variable {conventions : Conventions} {done : List (Text × Linked)} {links : List Linked}
  {l new : Linked} {gap : Text} {tag : Tag}

@[simp] theorem name_frameOf : (frameOf conventions done l).name = l.tag.name := rfl

theorem isComponent_role : l.role.isComponent = l.isComponent := by
  obtain ⟨tag, link⟩ := l
  cases link <;> simp [Linked.role, Linked.isComponent, Role.isComponent]

theorem declares_frameOf :
    (frameOf conventions done l).declares = declares (done.map Prod.snd) l := by
  obtain ⟨tag, link⟩ := l
  cases link <;> simp [Frame.declares, frameOf, declares, Linked.role, Linked.isComponent]

theorem slotParent?_frames (opened : List Linked) :
    Nesting.slotParent? (opened.map (frameOf conventions done)) =
      (parentOf? opened).map (frameOf conventions done) := by
  have hany : ∀ ls : List Linked, (ls.map (frameOf conventions done)).any (·.role.isComponent) =
      ls.any (·.isComponent) := by
    intro ls
    rw [List.any_map]
    congr 1
    funext l
    exact isComponent_role
  cases opened with
  | nil => rfl
  | cons l ls =>
    have hcons := hany (l :: ls)
    rw [List.map_cons] at hcons ⊢
    rw [parentOf?_cons, Nesting.slotParent?, hcons]
    split <;> rfl

/-- A tag that ends no block gives no block a parameter: the block whose slot it fills is open. -/
theorem hasParameter_cons (hopener : new.link.opener? = none)
    (hparent : ∀ tag, new.link.parent? = some tag → isEnded links tag = false) :
    hasParameter (new :: links) = hasParameter links := by
  funext l
  rw [hasParameter, hasParameter, declares, declares, isEnded_cons, isFilled_cons, hopener]
  cases hended : isEnded links l.tag with
  | false => simp
  | true =>
    have hne : new.link.parent? ≠ some l.tag := by
      intro hfills
      rw [hparent l.tag hfills] at hended
      cases hended
    simp [hne]

/-- A tag that ends no block leaves the frames as they are, but for the slot that it fills. -/
theorem frameOf_cons (hopener : new.link.opener? = none)
    (hparent : ∀ tag, new.link.parent? = some tag → isEnded (done.map Prod.snd) tag = false)
    (hne : new ≠ l) :
    frameOf conventions ((gap, new) :: done) l =
      if new.link.parent? = some l.tag then (frameOf conventions done l).withSlot
      else frameOf conventions done l := by
  have hpoint :
      pointOf conventions (hasParameter (new :: done.map Prod.snd)) ((gap, new) :: done) l =
        pointOf conventions (hasParameter (done.map Prod.snd)) done l := by
    rw [hasParameter_cons hopener hparent, pointOf, if_neg hne]
  by_cases hfills : new.link.parent? = some l.tag
  · simp [frameOf, hpoint, isFilled_cons, hfills, Frame.withSlot]
  · simp [frameOf, hpoint, isFilled_cons, hfills]

/-- Marking the slot that a tag fills is the only change to the frames that the tag makes. -/
theorem frames_cons (conventions : Conventions) (gap : Text) (new : Linked)
    (h : WellLinked (done.map Prod.snd))
    (hnew : new.tag ∉ (done.map Prod.snd).map Linked.tag) (hopener : new.link.opener? = none)
    (hparent : new.link.parent? = ((stillOpen (done.map Prod.snd)).head?.map Linked.tag) ∨
      new.link.parent? = none) :
    (stillOpen (done.map Prod.snd)).map (frameOf conventions ((gap, new) :: done)) =
      if new.link.parent? = none then (passOf conventions done).nesting
      else (passOf conventions done).nesting.fillSlot := by
  have hended : ∀ tag, new.link.parent? = some tag → isEnded (done.map Prod.snd) tag = false := by
    intro tag htag
    rcases hparent with hhead | hnone
    · rw [hhead, Option.map_eq_some_iff] at htag
      obtain ⟨l, hl, rfl⟩ := htag
      exact (mem_stillOpen.1 (List.mem_of_head? hl)).2.2
    · rw [hnone] at htag
      cases htag
  have hframe : ∀ l ∈ stillOpen (done.map Prod.snd), frameOf conventions ((gap, new) :: done) l =
      if new.link.parent? = some l.tag then (frameOf conventions done l).withSlot
      else frameOf conventions done l := by
    intro l hl
    refine frameOf_cons hopener hended ?_
    rintro rfl
    exact hnew (mem_of_mem_stillOpen hl)
  rw [List.map_congr_left hframe]
  by_cases hnone : new.link.parent? = none
  · rw [if_pos hnone, hnone]
    rfl
  · rw [if_neg hnone]
    have hhead := hparent.resolve_right hnone
    have hnodup : ((stillOpen (done.map Prod.snd)).map Linked.tag).Nodup :=
      h.nodup.sublist (List.filter_sublist.map Linked.tag)
    rw [passOf]
    -- Only the innermost block is the parent: the tags of the others are different.
    cases hopen : stillOpen (done.map Prod.snd) with
    | nil => rfl
    | cons l ls =>
      rw [hopen, List.head?_cons, Option.map_some] at hhead
      rw [hopen, List.map_cons, List.nodup_cons] at hnodup
      have hrest : ∀ m ∈ ls, (if new.link.parent? = some m.tag then
          (frameOf conventions done m).withSlot else frameOf conventions done m) =
          frameOf conventions done m := by
        intro m hm
        rw [hhead, if_neg]
        intro heq
        exact hnodup.1 (Option.some.inj heq ▸ List.mem_map_of_mem hm)
      rw [List.map_cons, List.map_congr_left hrest, hhead, if_pos rfl]
      rfl

/-- A tag that ends no block fills a slot of an open block or renders a component, for the pass as
for the records. -/
theorem linkOf_cases (conventions : Conventions) (done : List (Text × Linked))
    (hkind : tag.kind ≠ .closing) :
    (∃ slot parent, linkOf conventions (done.map Prod.snd) tag = .ok (.slot parent.tag slot) ∧
        parentOf? (stillOpen (done.map Prod.snd)) = some parent ∧
        Pass.roleOf conventions (passOf conventions done).nesting tag.name tag.alias?.isSome =
          (.slot parent.tag.blockVariable slot, (passOf conventions done).nesting.fillSlot)) ∨
      (linkOf conventions (done.map Prod.snd) tag = .ok .component ∧
        Pass.roleOf conventions (passOf conventions done).nesting tag.name tag.alias?.isSome =
          (.component tag.alias?.isSome, (passOf conventions done).nesting)) := by
  have hparent : (passOf conventions done).nesting.slotParent? =
      (parentOf? (stillOpen (done.map Prod.snd))).map (frameOf conventions done) :=
    slotParent?_frames _
  rw [Pass.roleOf, hparent]
  cases hslot : Name.slotName tag.name conventions.slotPrefix with
  | none => exact Or.inr ⟨linkOf_component hkind (Or.inl hslot), rfl⟩
  | some slot =>
    cases hp : parentOf? (stillOpen (done.map Prod.snd)) with
    | none => exact Or.inr ⟨linkOf_component hkind (Or.inr hp), rfl⟩
    | some parent => exact Or.inl ⟨slot, parent, linkOf_slot hkind hslot hp, rfl, rfl⟩

end State

/-! ## Steps that end no block -/

section Continue

variable {done : List (Text × Linked)} {new : Linked} {tag : Tag}

/-- The record of a new tag that ends no block, and fills at most a slot of an open one. -/
structure Continues (done : List (Text × Linked)) (new : Linked) : Prop where
  wellLinked : WellLinked (done.map Prod.snd)
  fresh : new.tag ∉ (done.map Prod.snd).map Linked.tag
  opener?_eq_none : new.link.opener? = none
  exists_parent : ∀ t, new.link.parent? = some t → ∃ l ∈ stillOpen (done.map Prod.snd), l.tag = t

namespace Continues

theorem isEnded_parent (h : Continues done new) :
    ∀ t, new.link.parent? = some t → isEnded (done.map Prod.snd) t = false := by
  intro t ht
  obtain ⟨l, hl, rfl⟩ := h.exists_parent t ht
  exact (mem_stillOpen.1 hl).2.2

theorem mem_parent (h : Continues done new) :
    ∀ t, new.link.parent? = some t → t ∈ (done.map Prod.snd).map Linked.tag := by
  intro t ht
  obtain ⟨l, hl, rfl⟩ := h.exists_parent t ht
  exact mem_of_mem_stillOpen hl

theorem wellLinked_cons (h : Continues done new) : WellLinked (new :: done.map Prod.snd) := by
  refine h.wellLinked.cons h.fresh h.mem_parent ?_
  intro t ht
  rw [h.opener?_eq_none] at ht
  cases ht

theorem output_passOf (h : Continues done new) (conventions : Conventions) (gap : Text) :
    (passOf conventions ((gap, new) :: done)).output =
      (passOf conventions done).output.push (gap ++ new.fragment conventions false) := by
  have hwithout : hasParameter (done.map Prod.snd) new = false := by
    rw [hasParameter, h.wellLinked.isEnded_eq_false h.fresh, Bool.false_and]
  rw [passOf, passOf, List.map_cons, hasParameter_cons h.opener?_eq_none h.isEnded_parent,
    textOf_cons, hwithout, Output.push_push]

/-- The place where the parameter of a new block goes is the end of the text so far, and nothing
fills a slot of it yet. -/
theorem frameOf_self (h : Continues done new) (conventions : Conventions) (gap : Text) :
    frameOf conventions ((gap, new) :: done) new =
      ⟨new.tag, new.role, new.tag.arguments, new.tag.blockVariable, false,
        ((passOf conventions done).output.push
          (gap ++ (new.call conventions ++ Fragment.blockKeyword))).size⟩ := by
  have hfilled : isFilled (new :: done.map Prod.snd) new.tag = false := by
    rw [isFilled_cons, h.wellLinked.isFilled_eq_false h.fresh, Bool.or_false,
      decide_eq_false_iff_not]
    intro ht
    exact h.fresh (h.mem_parent new.tag ht)
  have hpoint : pointOf conventions (hasParameter (new :: done.map Prod.snd))
      ((gap, new) :: done) new = ((passOf conventions done).output.push
        (gap ++ (new.call conventions ++ Fragment.blockKeyword))).size := by
    rw [pointOf, if_pos rfl, hasParameter_cons h.opener?_eq_none h.isEnded_parent,
      Output.size_eq_byteSize_toText, Output.toText_push, passOf, Output.toText_push,
      Output.toText_empty, List.nil_append]
    rfl
  rw [frameOf, List.map_cons, hfilled, hpoint]

end Continues

/-- What is recorded about a tag that ends no block is what the pass makes of it. -/
theorem linkOf_of_ne_closing (conventions : Conventions) (gap : Text)
    (h : WellLinked (done.map Prod.snd)) (hnew : tag ∉ (done.map Prod.snd).map Linked.tag)
    (hkind : tag.kind ≠ .closing) :
    ∃ link, linkOf conventions (done.map Prod.snd) tag = .ok link ∧ Continues done ⟨tag, link⟩ ∧
      Pass.roleFor conventions (passOf conventions done) tag = Linked.role ⟨tag, link⟩ ∧
      Pass.callFor conventions (passOf conventions done) tag = Linked.call conventions ⟨tag, link⟩ ∧
      Pass.markedFor conventions (passOf conventions done) tag =
        (stillOpen (done.map Prod.snd)).map (frameOf conventions ((gap, ⟨tag, link⟩) :: done)) := by
  rcases linkOf_cases conventions done hkind with
    ⟨slot, parent, hlink, hparent, hrole⟩ | ⟨hlink, hrole⟩
  · obtain ⟨ls, hopen⟩ := eq_cons_of_parentOf? hparent
    have hhead : some parent.tag = (stillOpen (done.map Prod.snd)).head?.map Linked.tag := by
      rw [hopen]
      rfl
    refine ⟨.slot parent.tag slot, hlink, ⟨h, hnew, rfl, ?_⟩, ?_, ?_, ?_⟩
    · intro t ht
      refine ⟨parent, ?_, Option.some.inj ht⟩
      rw [hopen]
      exact List.mem_cons_self
    · rw [Pass.roleFor, hrole]
      rfl
    · rw [Pass.callFor, Pass.roleFor, hrole, call_slot conventions rfl]
      rfl
    · rw [Pass.markedFor, hrole, frames_cons conventions gap ⟨tag, .slot parent.tag slot⟩ h hnew rfl
        (Or.inl hhead)]
      rfl
  · refine ⟨.component, hlink, ⟨h, hnew, rfl, ?_⟩, ?_, ?_, ?_⟩
    · intro t ht
      cases ht
    · rw [Pass.roleFor, hrole]
      rfl
    · rw [Pass.callFor, Pass.roleFor, hrole, call_component conventions rfl]
      rfl
    · rw [Pass.markedFor, hrole, frames_cons conventions gap ⟨tag, .component⟩ h hnew rfl
        (Or.inr rfl)]
      rfl

/-- A step of the pass over a tag that ends no block is one more record. -/
theorem step_passOf_of_ne_closing (conventions : Conventions) (source gap : Text)
    (h : WellLinked (done.map Prod.snd)) (hnew : tag ∉ (done.map Prod.snd).map Linked.tag)
    (hkind : tag.kind ≠ .closing) :
    ∃ link log, linkOf conventions (done.map Prod.snd) tag = .ok link ∧
      WellLinked (⟨tag, link⟩ :: done.map Prod.snd) ∧
      (passOf conventions done).step conventions source ⟨gap, tag⟩ =
        .ok ⟨passOf conventions ((gap, ⟨tag, link⟩) :: done), tag.warnings source, log⟩ := by
  obtain ⟨link, hlink, hcontinues, hrole, hcall, hmarked⟩ :=
    linkOf_of_ne_closing conventions gap h hnew hkind
  have houtput := hcontinues.output_passOf conventions gap
  have hopen := h.stillOpen_cons (l := ⟨tag, link⟩) hnew hcontinues.opener?_eq_none
  cases hk : tag.kind with
  | closing => exact absurd hk hkind
  | selfClosing =>
    obtain ⟨log, hstep⟩ :=
      Pass.step_selfClosing conventions source (passOf conventions done) gap tag hk
    have hnesting : (passOf conventions ((gap, ⟨tag, link⟩) :: done)).nesting =
        Pass.markedFor conventions (passOf conventions done) tag := by
      rw [hmarked, passOf, List.map_cons, hopen, if_neg (by rw [hk]; decide)]
    have hfragment : Linked.fragment conventions false ⟨tag, link⟩ =
        Linked.call conventions ⟨tag, link⟩ ++ Fragment.close :=
      fragment_selfClosing conventions hk false
    refine ⟨link, log, hlink, hcontinues.wellLinked_cons, ?_⟩
    rw [hstep, hcall, ← hfragment, ← houtput, ← hnesting]
  | opening =>
    obtain ⟨log, hstep⟩ := Pass.step_opening conventions source (passOf conventions done) gap tag hk
    have hframe : Pass.frameFor conventions (passOf conventions done) gap tag =
        frameOf conventions ((gap, ⟨tag, link⟩) :: done) ⟨tag, link⟩ := by
      rw [Pass.frameFor, hrole, hcall, hcontinues.frameOf_self]
    have hnesting : (passOf conventions ((gap, ⟨tag, link⟩) :: done)).nesting =
        Pass.frameFor conventions (passOf conventions done) gap tag ::
          Pass.markedFor conventions (passOf conventions done) tag := by
      rw [hframe, hmarked, passOf, List.map_cons, hopen, if_pos hk, List.map_cons]
    have hfragment : (gap ++ (Linked.call conventions ⟨tag, link⟩ ++ Fragment.blockKeyword)) ++
        Fragment.close = gap ++ Linked.fragment conventions false ⟨tag, link⟩ := by
      simp [fragment_block conventions (l := ⟨tag, link⟩) hk]
    refine ⟨link, log, hlink, hcontinues.wellLinked_cons, ?_⟩
    rw [hstep, hcall, Output.push_push, hfragment, ← houtput, ← hnesting]

end Continue

/-! ## Steps that end a block -/

section Close

variable {done : List (Text × Linked)} {inner outer : List Linked} {l m new : Linked} {tag : Tag}

/-- The record of a new closing tag that ends the block of `m`. The blocks of `inner` were opened
later, and stay open. -/
structure Closes (done : List (Text × Linked)) (new m : Linked) (inner outer : List Linked) :
    Prop where
  wellLinked : WellLinked (done.map Prod.snd)
  fresh : new.tag ∉ (done.map Prod.snd).map Linked.tag
  kind_eq : new.tag.kind = .closing
  link_eq : new.link = .close m.tag
  stillOpen_eq : stillOpen (done.map Prod.snd) = inner ++ m :: outer

namespace Closes

theorem mem (h : Closes done new m inner outer) : m ∈ stillOpen (done.map Prod.snd) := by
  rw [h.stillOpen_eq]
  simp

theorem mem_of_mem (h : Closes done new m inner outer) (hl : l ∈ inner ++ outer) :
    l ∈ stillOpen (done.map Prod.snd) := by
  rw [h.stillOpen_eq]
  rcases List.mem_append.1 hl with hl | hl
  · exact List.mem_append_left _ hl
  · exact List.mem_append_right _ (List.mem_cons_of_mem _ hl)

theorem stillOpen_cons (h : Closes done new m inner outer) :
    stillOpen (new :: done.map Prod.snd) = inner ++ outer :=
  h.wellLinked.stillOpen_close h.stillOpen_eq h.kind_eq h.link_eq

theorem ne (h : Closes done new m inner outer) (hl : l ∈ inner ++ outer) : l ≠ m := by
  rintro rfl
  rw [← h.stillOpen_cons] at hl
  have hended := (mem_stillOpen.1 hl).2.2
  rw [isEnded_cons, h.link_eq] at hended
  simp [Link.opener?] at hended

/-- The block that is ended has its parameter from now on, if it declares one. -/
theorem hasParameter_cons (h : Closes done new m inner outer) (l : Linked) :
    hasParameter (new :: done.map Prod.snd) l =
      ((decide (m.tag = l.tag) || isEnded (done.map Prod.snd) l.tag) &&
        declares (done.map Prod.snd) l) := by
  rw [hasParameter, declares, declares, isEnded_cons, isFilled_cons, h.link_eq]
  simp [Link.opener?, Link.parent?]

theorem hasParameter_of_ne (h : Closes done new m inner outer) (hne : m.tag ≠ l.tag) :
    hasParameter (new :: done.map Prod.snd) l = hasParameter (done.map Prod.snd) l := by
  rw [h.hasParameter_cons, hasParameter, decide_eq_false hne, Bool.false_or]

theorem addsParameter (h : Closes done new m inner outer)
    (hdeclares : declares (done.map Prod.snd) m = true) :
    AddsParameter (hasParameter (done.map Prod.snd)) (hasParameter (new :: done.map Prod.snd)) done
      m := by
  obtain ⟨hm, hkind, hended⟩ := mem_stillOpen.1 h.mem
  refine ⟨hkind, hm, h.wellLinked.nodup.of_map _, ?_, ?_, ?_⟩
  · rw [hasParameter, hended, Bool.false_and]
  · rw [h.hasParameter_cons, hdeclares, decide_eq_true rfl, Bool.true_or, Bool.true_and]
  · intro l hl hne
    refine (h.hasParameter_of_ne ?_).symm
    intro htag
    exact hne (h.wellLinked.eq_of_tag_eq hl hm htag.symm)

/-- If the block that is ended declares nothing, no block gets a parameter. -/
theorem hasParameter_eq (h : Closes done new m inner outer)
    (hdeclares : declares (done.map Prod.snd) m = false) :
    ∀ x ∈ done, hasParameter (done.map Prod.snd) x.2 =
      hasParameter (new :: done.map Prod.snd) x.2 := by
  intro x hx
  by_cases htag : m.tag = x.2.tag
  · have hxm : m = x.2 :=
      h.wellLinked.eq_of_tag_eq (mem_stillOpen.1 h.mem).1 (List.mem_map_of_mem hx) htag
    rw [h.hasParameter_cons, hasParameter, ← hxm, hdeclares, Bool.and_false, Bool.and_false]
  · exact (h.hasParameter_of_ne htag).symm

/-- The frames that stay open have the places of their parameters in the text with the parameter of
the block that is ended. -/
theorem frameOf_cons (h : Closes done new m inner outer) (conventions : Conventions) (gap : Text)
    (hl : l ∈ inner ++ outer) :
    frameOf conventions ((gap, new) :: done) l =
      { frameOf conventions done l with
        point := pointOf conventions (hasParameter (new :: done.map Prod.snd)) done l } := by
  have hne : new ≠ l := by
    rintro rfl
    exact h.fresh (mem_of_mem_stillOpen (h.mem_of_mem hl))
  have hfilled : isFilled (new :: done.map Prod.snd) l.tag =
      isFilled (done.map Prod.snd) l.tag := by
    rw [isFilled_cons, h.link_eq]
    simp [Link.parent?]
  rw [frameOf, frameOf, List.map_cons, hfilled, pointOf, if_neg hne]

theorem output_passOf (h : Closes done new m inner outer) (conventions : Conventions) (gap : Text) :
    (passOf conventions ((gap, new) :: done)).output =
      (Output.empty.push (textOf conventions (hasParameter (new :: done.map Prod.snd)) done ++
        gap)).push Fragment.endBlock := by
  have hfragment : new.fragment conventions (hasParameter (new :: done.map Prod.snd) new) =
      Fragment.endBlock :=
    fragment_closing conventions h.kind_eq _
  rw [passOf, List.map_cons, textOf_cons, hfragment, Output.push_push, List.append_assoc]

theorem nesting_passOf (h : Closes done new m inner outer) (conventions : Conventions)
    (gap : Text) :
    (passOf conventions ((gap, new) :: done)).nesting =
      (inner ++ outer).map (frameOf conventions ((gap, new) :: done)) := by
  rw [passOf, List.map_cons, h.stillOpen_cons]

/-- The parameter goes to its place in the text, and the places of the frames that stay open move
along. -/
theorem closeBlock_of_declares (h : Closes done new m inner outer) (conventions : Conventions)
    (gap : Text) (hdeclares : declares (done.map Prod.snd) m = true) :
    Pass.closeBlock ⟨(passOf conventions done).output.push gap,
        (inner ++ outer).map (frameOf conventions done)⟩ (frameOf conventions done m) =
      passOf conventions ((gap, new) :: done) := by
  have hadds := h.addsParameter hdeclares
  obtain ⟨before, behind, htext, hpoint, htext'⟩ := hadds.textOf_insert conventions
  have hinsert : ((passOf conventions done).output.push gap).insert?
      (frameOf conventions done m).point (Fragment.blockParameter m.tag.blockVariable) =
      some (Output.empty.push
        (textOf conventions (hasParameter (new :: done.map Prod.snd)) done ++ gap)) := by
    rw [Output.insert?_eq_some_iff]
    refine ⟨before, behind ++ gap, ?_, hpoint, ?_⟩
    · simp [passOf, htext]
    · simp [htext']
  rw [Pass.closeBlock, if_pos (declares_frameOf.trans hdeclares)]
  refine Pass.ext ?_ ?_
  · rw [h.output_passOf]
    show Output.push (Option.getD (Output.insert? _ _ _) _) _ = _
    rw [show (frameOf conventions done m).blockVariable = m.tag.blockVariable from rfl, hinsert]
    rfl
  · rw [h.nesting_passOf]
    refine (List.map_map ..).trans (List.map_congr_left ?_)
    intro l hl
    obtain ⟨hl', hopening, -⟩ := mem_stillOpen.1 (h.mem_of_mem hl)
    rw [h.frameOf_cons conventions gap hl, hadds.pointOf_eq conventions hl' hopening (h.ne hl)]
    exact Frame.shift_eq _ _ _

theorem closeBlock_of_not_declares (h : Closes done new m inner outer) (conventions : Conventions)
    (gap : Text) (hdeclares : declares (done.map Prod.snd) m = false) :
    Pass.closeBlock ⟨(passOf conventions done).output.push gap,
        (inner ++ outer).map (frameOf conventions done)⟩ (frameOf conventions done m) =
      passOf conventions ((gap, new) :: done) := by
  have hsame := h.hasParameter_eq hdeclares
  have hnot : ¬ (frameOf conventions done m).declares = true := by
    rw [declares_frameOf, hdeclares]
    exact Bool.false_ne_true
  have hframes : (inner ++ outer).map (frameOf conventions ((gap, new) :: done)) =
      (inner ++ outer).map (frameOf conventions done) := by
    apply List.map_congr_left
    intro l hl
    rw [h.frameOf_cons conventions gap hl, ← pointOf_congr hsame]
    rfl
  rw [Pass.closeBlock, if_neg hnot]
  refine Pass.ext ?_ ?_
  · rw [h.output_passOf, ← textOf_congr hsame, ← Output.push_push]
    rfl
  · rw [h.nesting_passOf, hframes]
    rfl

/-- Ending a block in the pass gives the state with one more record. -/
theorem closeBlock_eq (h : Closes done new m inner outer) (conventions : Conventions) (gap : Text) :
    Pass.closeBlock ⟨(passOf conventions done).output.push gap,
        (inner ++ outer).map (frameOf conventions done)⟩ (frameOf conventions done m) =
      passOf conventions ((gap, new) :: done) := by
  cases hdeclares : declares (done.map Prod.snd) m with
  | true => exact h.closeBlock_of_declares conventions gap hdeclares
  | false => exact h.closeBlock_of_not_declares conventions gap hdeclares

end Closes

/-- A closing tag that no open block has the name of is an error, for the pass as for the
records. -/
theorem step_passOf_unmatched (conventions : Conventions) (source gap : Text)
    (hkind : tag.kind = .closing)
    (hfind : (stillOpen (done.map Prod.snd)).find? (·.tag.name = tag.name) = none) :
    ∃ fault, linkOf conventions (done.map Prod.snd) tag = .error fault ∧
      (passOf conventions done).step conventions source ⟨gap, tag⟩ =
        .error (Pass.errorAt source fault tag) := by
  have htake : (passOf conventions done).nesting.take? tag.name = none := by
    rw [Nesting.take?_eq_none_iff]
    intro f hf
    obtain ⟨l, hl, rfl⟩ := List.mem_map.1 hf
    simpa using List.find?_eq_none.1 hfind l hl
  have hempty : (passOf conventions done).nesting = [] ↔ stillOpen (done.map Prod.snd) = [] :=
    List.map_eq_nil_iff
  refine ⟨_, by rw [linkOf, hkind]; simp only [hfind]; rfl, ?_⟩
  rw [Pass.step_unmatched conventions source _ gap tag hkind htake]
  simp only [hempty]

/-- A step of the pass over a closing tag is one more record. -/
theorem step_passOf_closing (conventions : Conventions) (source gap : Text)
    (h : WellLinked (done.map Prod.snd)) (hnew : tag ∉ (done.map Prod.snd).map Linked.tag)
    (hkind : tag.kind = .closing)
    (hfind : (stillOpen (done.map Prod.snd)).find? (·.tag.name = tag.name) = some m) :
    ∃ link log, linkOf conventions (done.map Prod.snd) tag = .ok link ∧
      WellLinked (⟨tag, link⟩ :: done.map Prod.snd) ∧
      (passOf conventions done).step conventions source ⟨gap, tag⟩ =
        .ok ⟨passOf conventions ((gap, ⟨tag, link⟩) :: done), tag.warnings source, log⟩ := by
  obtain ⟨hname, inner, outer, hopen, hinner⟩ := List.find?_eq_some_iff_append.1 hfind
  have htake : (passOf conventions done).nesting.take? tag.name =
      some (frameOf conventions done m, (inner ++ outer).map (frameOf conventions done)) := by
    rw [Nesting.take?_eq_some_iff]
    refine ⟨inner.map (frameOf conventions done), outer.map (frameOf conventions done), ?_,
      List.map_append, by simpa using hname, ?_⟩
    · rw [passOf, hopen, List.map_append, List.map_cons]
    · intro f hf
      obtain ⟨l, hl, rfl⟩ := List.mem_map.1 hf
      simpa using hinner l hl
  have hcloses : Closes done ⟨tag, .close m.tag⟩ m inner outer := ⟨h, hnew, hkind, rfl, hopen⟩
  obtain ⟨log, hstep⟩ :=
    Pass.step_closing conventions source (passOf conventions done) gap tag hkind htake
  refine ⟨.close m.tag, log, by rw [linkOf, hkind]; simp only [hfind], ?_, ?_⟩
  · refine h.cons hnew (fun t ht => by cases ht) (fun t ht => ?_)
    rw [← Option.some.inj ht]
    exact mem_of_mem_stillOpen hcloses.mem
  · rw [hstep, hcloses.closeBlock_eq]

/-- A step of the pass and one more record fail together, with the same error, or give states that
correspond. -/
theorem step_passOf (conventions : Conventions) (source gap : Text)
    (h : WellLinked (done.map Prod.snd)) (hnew : tag ∉ (done.map Prod.snd).map Linked.tag) :
    (∃ fault, linkOf conventions (done.map Prod.snd) tag = .error fault ∧
        (passOf conventions done).step conventions source ⟨gap, tag⟩ =
          .error (Pass.errorAt source fault tag)) ∨
      ∃ link log, linkOf conventions (done.map Prod.snd) tag = .ok link ∧
        WellLinked (⟨tag, link⟩ :: done.map Prod.snd) ∧
        (passOf conventions done).step conventions source ⟨gap, tag⟩ =
          .ok ⟨passOf conventions ((gap, ⟨tag, link⟩) :: done), tag.warnings source, log⟩ := by
  by_cases hkind : tag.kind = .closing
  · cases hfind : (stillOpen (done.map Prod.snd)).find? (·.tag.name = tag.name) with
    | none => exact Or.inl (step_passOf_unmatched conventions source gap hkind hfind)
    | some m => exact Or.inr (step_passOf_closing conventions source gap h hnew hkind hfind)
  · exact Or.inr (step_passOf_of_ne_closing conventions source gap h hnew hkind)

end Close

/-! ## Whole passes -/

/-- A pass over segments and linking their tags fail together, with the same error, or end in states
that correspond. -/
theorem run_passOf (conventions : Conventions) (source : Text) (ss : List Segment) :
    ∀ done : List (Text × Linked), WellLinked (done.map Prod.snd) →
      (ss.map Segment.tag).Nodup →
      (∀ s ∈ ss, s.tag ∉ (done.map Prod.snd).map Linked.tag) →
      (∃ e, linkAll conventions source (done.map Prod.snd) (ss.map Segment.tag) = .error e ∧
          ((passOf conventions done).run conventions source ss).result = .error e) ∨
        ∃ done', linkAll conventions source (done.map Prod.snd) (ss.map Segment.tag) =
            .ok (done'.map Prod.snd) ∧
          done'.map Prod.fst = (ss.map Segment.gap).reverse ++ done.map Prod.fst ∧
          ((passOf conventions done).run conventions source ss).result =
            .ok (passOf conventions done') := by
  induction ss with
  | nil =>
    intro done _ _ _
    exact Or.inr ⟨done, rfl, rfl, rfl⟩
  | cons s ss ih =>
    -- The records so far are well linked, and the tags to come are not among them.
    intro done h hnodup hfresh
    rw [List.map_cons, List.nodup_cons] at hnodup
    have hnew := hfresh s List.mem_cons_self
    rcases step_passOf conventions source s.gap h hnew with
      ⟨fault, hlink, hstep⟩ | ⟨link, log, hlink, hwell, hstep⟩
    · refine Or.inl ⟨Pass.errorAt source fault s.tag, ?_, ?_⟩
      · rw [List.map_cons, linkAll, hlink]
        rfl
      · rw [Pass.run, hstep]
    · have hfresh' : ∀ s' ∈ ss, s'.tag ∉
          (((s.gap, (⟨s.tag, link⟩ : Linked)) :: done).map Prod.snd).map Linked.tag := by
        intro s' hs' hmem
        rcases List.mem_cons.1 hmem with heq | hmem
        · exact hnodup.1 (List.mem_map.2 ⟨s', hs', heq⟩)
        · exact hfresh s' (List.mem_cons_of_mem _ hs') hmem
      have hrun : ((passOf conventions done).run conventions source (s :: ss)).result =
          ((passOf conventions ((s.gap, ⟨s.tag, link⟩) :: done)).run conventions source
            ss).result := by
        rw [Pass.run, hstep]
      have hlinks : linkAll conventions source (done.map Prod.snd) ((s :: ss).map Segment.tag) =
          linkAll conventions source (((s.gap, (⟨s.tag, link⟩ : Linked)) :: done).map Prod.snd)
            (ss.map Segment.tag) := by
        rw [List.map_cons, linkAll, hlink]
        rfl
      rw [hrun, hlinks]
      rcases ih ((s.gap, ⟨s.tag, link⟩) :: done) hwell hnodup.2 hfresh' with
        herror | ⟨done', hlinks', hgaps, hrun'⟩
      · exact Or.inl herror
      · refine Or.inr ⟨done', hlinks', ?_, hrun'⟩
        rw [hgaps]
        simp

theorem interleave_eq (f : Linked → Text) (tail : Text) (xs : List (Text × Linked)) :
    interleave (xs.map Prod.fst ++ [tail]) (xs.map fun x => f x.2) =
      xs.flatMap (fun x => x.1 ++ f x.2) ++ tail := by
  induction xs with
  | nil => simp [interleave]
  | cons x xs ih => simp [interleave, ih]

/-- Once no block is open, exactly the blocks that declare their variable have a parameter. -/
theorem textOf_of_stillOpen_eq_nil (conventions : Conventions) {done : List (Text × Linked)}
    (h : stillOpen (done.map Prod.snd) = []) :
    textOf conventions (hasParameter (done.map Prod.snd)) done =
      textOf conventions (declares (done.map Prod.snd)) done := by
  rw [textOf, textOf, List.flatMap_congr]
  intro x hx
  cases hkind : x.2.tag.kind with
  | closing => rw [fragment_closing conventions hkind, fragment_closing conventions hkind]
  | selfClosing =>
    rw [fragment_selfClosing conventions hkind, fragment_selfClosing conventions hkind]
  | opening =>
    have hended : isEnded (done.map Prod.snd) x.2.tag = true := by
      by_contra hopen
      have hmem : x.2 ∈ stillOpen (done.map Prod.snd) :=
        mem_stillOpen.2 ⟨List.mem_map_of_mem (List.mem_reverse.1 hx), hkind, by simpa using hopen⟩
      rw [h] at hmem
      cases hmem
    rw [hasParameter, hended, Bool.true_and]

/-- What the second phase puts together is the output of a pass that leaves no block open. -/
theorem interleave_fragments (conventions : Conventions) (tail : Text)
    {done : List (Text × Linked)} (h : stillOpen (done.map Prod.snd) = []) :
    interleave (done.reverse.map Prod.fst ++ [tail]) ((done.map Prod.snd).reverse.map fun l =>
        l.fragment conventions (declares (done.map Prod.snd) l)) =
      (passOf conventions done).output.toText ++ tail := by
  have hfragments : ((done.map Prod.snd).reverse.map fun l =>
      l.fragment conventions (declares (done.map Prod.snd) l)) =
      done.reverse.map fun x => x.2.fragment conventions (declares (done.map Prod.snd) x.2) := by
    rw [← List.map_reverse, List.map_map]
    rfl
  have htext : (passOf conventions done).output.toText =
      textOf conventions (declares (done.map Prod.snd)) done := by
    rw [← textOf_of_stillOpen_eq_nil conventions h]
    simp [passOf]
  rw [htext, textOf, hfragments,
    interleave_eq (fun l => l.fragment conventions (declares (done.map Prod.snd) l))]

/-- Turning a template into ERB in one pass, with block parameters inserted late, gives what two
phases give, which never go back; and every text between tags is a slice of the template. -/
theorem twoPhase_eq_transpile (conventions : Conventions) (source : Text) :
    twoPhase conventions source = some (transpile conventions source) := by
  have hstart : Pass.start = passOf conventions [] :=
    Pass.ext (Output.push_nil _).symm rfl
  have hwell : WellLinked [] := by
    refine ⟨List.nodup_nil, ?_, ?_⟩ <;> intro l hl <;> cases hl
  have hrun := run_passOf conventions source (segments source).1 [] hwell (nodup_tags source)
    (fun s _ hmem => by cases hmem)
  rw [← hstart] at hrun
  rw [twoPhase, outside?_tags]
  refine congrArg some ?_
  rcases hrun with ⟨e, hlinks, hresult⟩ | ⟨done, hlinks, hgaps, hresult⟩
  · rw [transpile_of_error hresult, tags]
    exact congrArg (Except.bind · _) hlinks
  · refine (congrArg (Except.bind · _) hlinks).trans ?_
    show emitAll conventions source _ (done.map Prod.snd) = _
    rw [emitAll]
    cases hopen : stillOpen (done.map Prod.snd) with
    | cons l ls =>
      have hnesting : (passOf conventions done).nesting =
          frameOf conventions done l :: ls.map (frameOf conventions done) := by
        rw [passOf, hopen, List.map_cons]
      rw [transpile_of_open hresult hnesting]
      rfl
    | nil =>
      have hnesting : (passOf conventions done).nesting = [] := by
        rw [passOf, hopen, List.map_nil]
      have hgaps' : (segments source).1.map Segment.gap = done.reverse.map Prod.fst := by
        rw [List.map_reverse, hgaps]
        simp
      rw [transpile_of_closed hresult hnesting, hgaps']
      simp only [interleave_fragments conventions (segments source).2 hopen]

/-- The outer block is closed first, and its parameter goes before a place that the inner block,
which has an alias, still needs. -/
theorem twoPhase_eq_transpile_crossing :
    let source := "<A><WithZ n=\"1\"/>é<B as='v'>x</A>ü<WithY>y</WithY></B>!".toList
    let output := "<%= render AComponent.new do |a| %><% a.with_z(n: \"1\") %>é".toList ++
      "<%= render BComponent.new do |v| %>x<% end %>ü<% v.with_y do %>y<% end %><% end %>!".toList
    twoPhase .standard source = some (.ok ⟨output, []⟩) ∧
      transpile .standard source = .ok ⟨output, []⟩ := by
  intro source output
  have hphases : twoPhase .standard source = some (.ok ⟨output, []⟩) := by decide +kernel
  exact ⟨hphases, Option.some.inj ((twoPhase_eq_transpile .standard source).symm.trans hphases)⟩

end ErbTags
