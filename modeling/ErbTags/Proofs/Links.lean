import ErbTags.Proofs.Offsets
import ErbTags.Proofs.Steps
import Mathlib.Data.List.Nodup

/-!
# Templates in two phases

A second way to turn a template into ERB, which never goes back to text that it already gave out.

The first phase goes over the tags alone and links them (`linkAll`): to a closing tag it records the
nearest block tag of the same name that is still open, to a slot tag the block tag whose slot it
fills. Which block tags are open is read off the records: all that no closing tag was linked to.

The second phase knows the records of all tags, so it can give out every fragment at once: a block
declares its variable if some slot tag was linked to it, or if it is a component with an alias.
What lies between the fragments is cut out of the template by the places of its tags.
-/

namespace ErbTags

/-- What is recorded about a tag. -/
inductive Link where
  /-- The tag renders a component. -/
  | component
  /-- The tag fills the slot `slot` of the block of `parent`. -/
  | slot (parent : Tag) (slot : Text)
  /-- The tag ends the block of `opener`. -/
  | close (opener : Tag)
deriving DecidableEq, Repr

/-- The block tag whose slot is filled. -/
def Link.parent? : Link → Option Tag
  | .slot parent _ => some parent
  | .component | .close _ => none

/-- The block tag whose block is ended. -/
def Link.opener? : Link → Option Tag
  | .close opener => some opener
  | .component | .slot _ _ => none

/-- A tag with what is recorded about it. -/
structure Linked where
  /-- The tag. -/
  tag : Tag
  /-- What is recorded about it. -/
  link : Link
deriving DecidableEq, Repr

/-! ## The first phase -/

/-- Whether the tag renders a component. -/
def Linked.isComponent (l : Linked) : Bool := l.link = .component

/-- Whether some closing tag was linked to the tag. -/
def isEnded (done : List Linked) (tag : Tag) : Bool := done.any (·.link.opener? = some tag)

/-- Whether some slot tag was linked to the tag. -/
def isFilled (done : List Linked) (tag : Tag) : Bool := done.any (·.link.parent? = some tag)

/-- Whether the tag is a block tag that no closing tag was linked to. -/
def isOpen (done : List Linked) (l : Linked) : Bool :=
  l.tag.kind = .opening && !isEnded done l.tag

/-- The block tags that are still open, for linked tags with the latest first. -/
def stillOpen (done : List Linked) : List Linked := done.filter (isOpen done)

/-- The block tag whose slot a slot tag fills: the innermost open one if it fills a slot itself,
else the nearest open component. There is none while no component is open. -/
def parentOf? (opened : List Linked) : Option Linked :=
  if opened.head?.any (!·.isComponent) && opened.any (·.isComponent) then opened.head?
  else opened.find? (·.isComponent)

/-- What is recorded about the next tag, or what is wrong with it. -/
def linkOf (conventions : Conventions) (done : List Linked) (tag : Tag) :
    Except StructuralFault Link :=
  match tag.kind with
  | .closing =>
    match (stillOpen done).find? (·.tag.name = tag.name) with
    | some opener => .ok (.close opener.tag)
    | none => .error (if stillOpen done = [] then .unmatchedClose else .noMatchingOpen)
  | .opening | .selfClosing =>
    match Name.slotName tag.name conventions.slotPrefix, parentOf? (stillOpen done) with
    | some slot, some parent => .ok (.slot parent.tag slot)
    | _, _ => .ok .component

section LinkOf

variable {conventions : Conventions} {done : List Linked} {tag : Tag}

theorem linkOf_slot {slot : Text} {parent : Linked} (hkind : tag.kind ≠ .closing)
    (hslot : Name.slotName tag.name conventions.slotPrefix = some slot)
    (hparent : parentOf? (stillOpen done) = some parent) :
    linkOf conventions done tag = .ok (.slot parent.tag slot) := by
  rw [linkOf, hslot, hparent]
  cases hk : tag.kind with
  | closing => exact absurd hk hkind
  | opening => rfl
  | selfClosing => rfl

theorem linkOf_component (hkind : tag.kind ≠ .closing)
    (h : Name.slotName tag.name conventions.slotPrefix = none ∨
      parentOf? (stillOpen done) = none) :
    linkOf conventions done tag = .ok .component := by
  rw [linkOf]
  rcases h with h | h
  · rw [h]
    cases hk : tag.kind with
    | closing => exact absurd hk hkind
    | opening => rfl
    | selfClosing => rfl
  · rw [h]
    cases hk : tag.kind with
    | closing => exact absurd hk hkind
    | opening => cases Name.slotName tag.name conventions.slotPrefix <;> rfl
    | selfClosing => cases Name.slotName tag.name conventions.slotPrefix <;> rfl

end LinkOf

/-- Links the tags one after the other; the latest comes first. -/
def linkAll (conventions : Conventions) (source : Text) :
    List Linked → List Tag → Except StructuralError (List Linked)
  | done, [] => .ok done
  | done, tag :: tags =>
    match linkOf conventions done tag with
    | .ok link => linkAll conventions source (⟨tag, link⟩ :: done) tags
    | .error fault => .error ⟨fault, tag.text, tag.start, Text.position source tag.start⟩

/-! ## The second phase -/

/-- Whether the block of a tag declares its variable. -/
def declares (done : List Linked) (l : Linked) : Bool :=
  isFilled done l.tag || (l.isComponent && l.tag.alias?.isSome)

/-- The call for a tag, up to its end: `<%= render CardComponent.new(..)` for a component, and
`<% card.with_title(..)` for a slot. -/
def Linked.call (conventions : Conventions) (l : Linked) : Text :=
  match l.link with
  | .component =>
    "<%= render ".toList ++ (l.tag.name ++ conventions.componentSuffix) ++ ".new".toList ++
      l.tag.argumentList
  | .slot parent slot =>
    "<% ".toList ++ parent.blockVariable ++ ".with_".toList ++ slot ++ l.tag.argumentList
  | .close _ => []

/-- The generated text for a tag; a block can be with or without its parameter. -/
def Linked.fragment (conventions : Conventions) (declared : Bool) (l : Linked) : Text :=
  match l.tag.kind with
  | .closing => "<% end %>".toList
  | .selfClosing => l.call conventions ++ " %>".toList
  | .opening =>
    l.call conventions ++ (" do".toList ++
      ((if declared then " |".toList ++ l.tag.blockVariable ++ ['|'] else []) ++ " %>".toList))

/-- A gap, a fragment, a gap, and so on. -/
def interleave : List Text → List Text → Text
  | gap :: gaps, fragment :: fragments => gap ++ (fragment ++ interleave gaps fragments)
  | gaps, [] => gaps.flatten
  | [], fragments => fragments.flatten

/-- The second phase, for the gaps of a template and the records of all its tags. -/
def emitAll (conventions : Conventions) (source : Text) (gaps : List Text) (done : List Linked) :
    Except StructuralError Transpiled :=
  match stillOpen done with
  | [] =>
    let fragments := done.reverse.map fun l => l.fragment conventions (declares done l)
    .ok ⟨interleave gaps fragments, (tags source).flatMap (Tag.warnings source)⟩
  | l :: _ =>
    .error ⟨.unclosedOpen, l.tag.text, l.tag.start, Text.position source l.tag.start⟩

/-- Turns a template into ERB in two phases. There is no result if some text between tags is no
slice of the template. -/
def twoPhase (conventions : Conventions) (source : Text) :
    Option (Except StructuralError Transpiled) := do
  let gaps ← outside? source 0 (tags source)
  return (linkAll conventions source [] (tags source)).bind (emitAll conventions source gaps)

section Fragments

variable (conventions : Conventions) {l : Linked}

theorem call_component (h : l.link = .component) :
    l.call conventions =
      Fragment.renderCall (Name.renderIdentifier l.tag.name conventions.componentSuffix)
        l.tag.arguments := by
  rw [Linked.call, h]
  rfl

theorem call_slot {parent : Tag} {slot : Text} (h : l.link = .slot parent slot) :
    l.call conventions = Fragment.slotCall parent.blockVariable slot l.tag.arguments := by
  rw [Linked.call, h]
  rfl

theorem fragment_closing (h : l.tag.kind = .closing) (declared : Bool) :
    l.fragment conventions declared = Fragment.endBlock := by
  rw [Linked.fragment, h]
  rfl

theorem fragment_selfClosing (h : l.tag.kind = .selfClosing) (declared : Bool) :
    l.fragment conventions declared = l.call conventions ++ Fragment.close := by
  rw [Linked.fragment, h]
  rfl

theorem fragment_block (h : l.tag.kind = .opening) (declared : Bool) :
    l.fragment conventions declared = l.call conventions ++ (Fragment.blockKeyword ++
      ((if declared then Fragment.blockParameter l.tag.blockVariable else []) ++
        Fragment.close)) := by
  rw [Linked.fragment, h]
  rfl

end Fragments

/-! ## Records in order -/

/-- The tags are told apart, and a record names only tags that are recorded too. -/
structure WellLinked (done : List Linked) : Prop where
  nodup : (done.map Linked.tag).Nodup
  parent : ∀ l ∈ done, ∀ tag, l.link.parent? = some tag → tag ∈ done.map Linked.tag
  opener : ∀ l ∈ done, ∀ tag, l.link.opener? = some tag → tag ∈ done.map Linked.tag

section Records

variable {done : List Linked} {l m : Linked} {tag : Tag}

theorem isEnded_cons :
    isEnded (l :: done) tag = (decide (l.link.opener? = some tag) || isEnded done tag) :=
  rfl

theorem isFilled_cons :
    isFilled (l :: done) tag = (decide (l.link.parent? = some tag) || isFilled done tag) :=
  rfl

theorem mem_stillOpen :
    l ∈ stillOpen done ↔ l ∈ done ∧ l.tag.kind = .opening ∧ isEnded done l.tag = false := by
  simp [stillOpen, isOpen]

theorem WellLinked.eq_of_tag_eq (h : WellLinked done) (hl : l ∈ done) (hm : m ∈ done)
    (heq : l.tag = m.tag) : l = m :=
  List.inj_on_of_nodup_map h.nodup hl hm heq

theorem WellLinked.isEnded_eq_false (h : WellLinked done) (hnew : tag ∉ done.map Linked.tag) :
    isEnded done tag = false := by
  rw [isEnded, List.any_eq_false]
  intro l hl hends
  exact hnew (h.opener l hl tag (by simpa using hends))

theorem WellLinked.isFilled_eq_false (h : WellLinked done) (hnew : tag ∉ done.map Linked.tag) :
    isFilled done tag = false := by
  rw [isFilled, List.any_eq_false]
  intro l hl hfills
  exact hnew (h.parent l hl tag (by simpa using hfills))

/-- One more record keeps the records in order, if it names only tags that are recorded. -/
theorem WellLinked.cons (h : WellLinked done) (hnew : l.tag ∉ done.map Linked.tag)
    (hparent : ∀ tag, l.link.parent? = some tag → tag ∈ done.map Linked.tag)
    (hopener : ∀ tag, l.link.opener? = some tag → tag ∈ done.map Linked.tag) :
    WellLinked (l :: done) := by
  refine ⟨List.nodup_cons.2 ⟨hnew, h.nodup⟩, ?_, ?_⟩
  · intro m hm tag htag
    rcases List.mem_cons.1 hm with rfl | hm
    · exact List.mem_cons_of_mem _ (hparent tag htag)
    · exact List.mem_cons_of_mem _ (h.parent m hm tag htag)
  · intro m hm tag htag
    rcases List.mem_cons.1 hm with rfl | hm
    · exact List.mem_cons_of_mem _ (hopener tag htag)
    · exact List.mem_cons_of_mem _ (h.opener m hm tag htag)

/-- A tag that ends no block leaves the open blocks as they are, and adds its own if it has one. -/
theorem WellLinked.stillOpen_cons (h : WellLinked done) (hnew : l.tag ∉ done.map Linked.tag)
    (hopener : l.link.opener? = none) :
    stillOpen (l :: done) =
      if l.tag.kind = .opening then l :: stillOpen done else stillOpen done := by
  have hended : ∀ tag, isEnded (l :: done) tag = isEnded done tag := by
    intro tag
    rw [isEnded_cons, hopener]
    simp
  have hself : isEnded done l.tag = false := h.isEnded_eq_false hnew
  have hopen : isOpen (l :: done) = isOpen done := by
    funext k
    rw [isOpen, isOpen, hended]
  rw [stillOpen, stillOpen, hopen, List.filter_cons]
  simp [isOpen, hself]

/-- A closing tag takes the block that it is linked to out of the open ones. -/
theorem WellLinked.stillOpen_close (h : WellLinked done) {inner outer : List Linked}
    (hopen : stillOpen done = inner ++ m :: outer) (hkind : l.tag.kind = .closing)
    (hlink : l.link = .close m.tag) : stillOpen (l :: done) = inner ++ outer := by
  have hended : ∀ k, isOpen (l :: done) k = (!decide (k.tag = m.tag) && isOpen done k) := by
    intro k
    rw [isOpen, isOpen, isEnded_cons, hlink]
    by_cases hk : k.tag = m.tag
    · simp [Link.opener?, hk]
    · simp [Link.opener?, hk, Ne.symm hk]
  have hsub : ((inner ++ m :: outer).map Linked.tag).Nodup := by
    rw [← hopen]
    exact h.nodup.sublist (List.filter_sublist.map Linked.tag)
  rw [List.map_append, List.map_cons, List.nodup_append, List.nodup_cons] at hsub
  obtain ⟨-, ⟨houter, -⟩, hinner⟩ := hsub
  have hkeepInner : inner.filter (fun k => !decide (k.tag = m.tag)) = inner := by
    rw [List.filter_eq_self]
    intro k hk
    simpa using hinner k.tag (List.mem_map_of_mem hk) m.tag List.mem_cons_self
  have hkeepOuter : outer.filter (fun k => !decide (k.tag = m.tag)) = outer := by
    rw [List.filter_eq_self]
    intro k hk
    have hne : k.tag ≠ m.tag := fun heq => houter (heq ▸ List.mem_map_of_mem hk)
    simpa using hne
  have hclosing : ¬ isOpen (l :: done) l = true := by simp [isOpen, hkind]
  rw [stillOpen, List.filter_cons_of_neg hclosing, List.filter_congr (fun k _ => hended k),
    ← List.filter_filter, ← stillOpen, hopen, List.filter_append, hkeepInner,
    List.filter_cons_of_neg (by simp), hkeepOuter]

/-- While some component is open, the parent of a slot tag is the innermost open block. -/
theorem parentOf?_cons (l : Linked) (ls : List Linked) :
    parentOf? (l :: ls) = if (l :: ls).any (·.isComponent) then some l else none := by
  cases hl : l.isComponent with
  | true => simp [parentOf?, hl]
  | false =>
    cases hls : ls.any (·.isComponent) with
    | true => simp [parentOf?, hl, hls]
    | false =>
      have hnone : ls.find? (·.isComponent) = none := List.find?_eq_none.2 (List.any_eq_false.1 hls)
      simp [parentOf?, hl, hls, hnone]

theorem mem_of_mem_stillOpen (h : l ∈ stillOpen done) : l.tag ∈ done.map Linked.tag :=
  List.mem_map_of_mem (mem_stillOpen.1 h).1

theorem eq_cons_of_parentOf? {opened : List Linked} (h : parentOf? opened = some l) :
    ∃ ls, opened = l :: ls := by
  cases opened with
  | nil => cases h
  | cons m ls =>
    rw [parentOf?_cons] at h
    split at h
    · exact ⟨ls, by rw [Option.some.inj h]⟩
    · cases h

end Records

end ErbTags
