import ErbTags.Proofs.Steps
import Mathlib.Data.List.Induction

/-!
# Well-nested templates

If each closing tag names the innermost open block tag, the tags of a template form a forest: an
element is a self-closing tag, or an opening tag and a closing tag with elements and text between
them. For such templates the generated text is given by recursion on the forest (`Tree.render`).
What an element becomes depends on its own tag, on the variable of the element right around it, and
on which of its direct children are slots, but on nothing else.
-/

namespace ErbTags

/-! ## Forests -/

/-- Text or a tag. -/
inductive Item where
  /-- Text between tags. -/
  | text (t : Text)
  /-- A tag. -/
  | tag (tag : Tag)
deriving DecidableEq, Repr

/-- The text and the tags of a template, in order. -/
def items (source : Text) : List Item :=
  (segments source).1.flatMap (fun s => [.text s.gap, .tag s.tag]) ++ [.text (segments source).2]

/-- A piece of a well-nested template. -/
inductive Tree where
  /-- Text. -/
  | text (t : Text)
  /-- An element without content. -/
  | single (tag : Tag) (kind : tag.kind = .selfClosing)
  /-- An element with content between its two tags. -/
  | block (opening : Tag) (content : List Tree) (closing : Tag)
    (kinds : opening.kind = .opening ∧ closing.kind = .closing)
    (names : closing.name = opening.name)

namespace Tree

mutual

/-- The text and the tags of a piece, in order. -/
def items : Tree → List Item
  | .text t => [.text t]
  | .single tag _ => [.tag tag]
  | .block opening content closing _ _ => .tag opening :: (itemsAll content ++ [.tag closing])

/-- The text and the tags of a sequence of pieces, in order. -/
def itemsAll : List Tree → List Item
  | [] => []
  | n :: ns => n.items ++ itemsAll ns

end

/-! ## Rendering -/

/-- Whether the piece is an element whose name is that of a slot. -/
def isSlotShaped (conventions : Conventions) : Tree → Bool
  | .text _ => false
  | .single tag _ | .block tag _ _ _ _ => (Name.slotName tag.name conventions.slotPrefix).isSome

/-- The slot that an element fills, with the variable that it is filled through. An element fills a
slot if its name is that of a slot and there is an element around it, with the variable
`enclosing`. -/
def slot? (conventions : Conventions) (enclosing : Option Text) (tag : Tag) :
    Option (Text × Text) :=
  match Name.slotName tag.name conventions.slotPrefix, enclosing with
  | some slot, some receiver => some (receiver, slot)
  | _, _ => none

/-- The call for an element, up to its end: `<%= render CardComponent.new(..)` for a component, and
`<% card.with_title(..)` for a slot. -/
def call (conventions : Conventions) (enclosing : Option Text) (tag : Tag) : Text :=
  match slot? conventions enclosing tag with
  | some (receiver, slot) =>
    "<% ".toList ++ receiver ++ ".with_".toList ++ slot ++ tag.argumentList
  | none =>
    "<%= render ".toList ++ (tag.name ++ conventions.componentSuffix) ++ ".new".toList ++
      tag.argumentList

/-- Whether the block of an element declares its variable: if some direct child is a slot, or if the
element is a component with an alias. -/
def declaresVariable (conventions : Conventions) (enclosing : Option Text) (opening : Tag)
    (content : List Tree) : Bool :=
  content.any (isSlotShaped conventions) ||
    (slot? conventions enclosing opening = none && opening.alias?.isSome)

mutual

/-- The generated text for a piece inside an element with the variable `enclosing`, or outside all
elements. -/
def render (conventions : Conventions) (enclosing : Option Text) : Tree → Text
  | .text t => t
  | .single tag _ => call conventions enclosing tag ++ " %>".toList
  | .block opening content _ _ _ =>
    call conventions enclosing opening ++ (" do".toList ++
      ((if declaresVariable conventions enclosing opening content then
          " |".toList ++ opening.blockVariable ++ ['|'] else []) ++
        (" %>".toList ++
          (renderAll conventions (some opening.blockVariable) content ++ "<% end %>".toList))))

/-- The generated text for a sequence of pieces. -/
def renderAll (conventions : Conventions) (enclosing : Option Text) : List Tree → Text
  | [] => []
  | n :: ns => n.render conventions enclosing ++ renderAll conventions enclosing ns

end

/-- A sequence of pieces is rendered piece by piece. -/
theorem renderAll_eq_flatMap (conventions : Conventions) (enclosing : Option Text)
    (ns : List Tree) :
    renderAll conventions enclosing ns = ns.flatMap (render conventions enclosing) := by
  induction ns with
  | nil => rw [renderAll, List.flatMap_nil]
  | cons n ns ih => rw [renderAll, ih, List.flatMap_cons]

end Tree

/-- Whether each closing tag names the innermost open block tag and all of them get closed, for
block tags of the given names open at the beginning. -/
def wellNested : List Text → List Tag → Bool
  | names, [] => names.isEmpty
  | names, tag :: tags =>
    match tag.kind with
    | .selfClosing => wellNested names tags
    | .opening => wellNested (tag.name :: names) tags
    | .closing => names.head? = some tag.name && wellNested names.tail tags

/-! ## Reading a forest -/

/-- The tags among text and tags. -/
def Item.tag? : Item → Option Tag
  | .text _ => none
  | .tag t => some t

theorem tags_items (source : Text) : (items source).filterMap Item.tag? = tags source := by
  have hsegments : ∀ ss : List Segment,
      (ss.flatMap (fun s => [Item.text s.gap, Item.tag s.tag])).filterMap Item.tag? =
        ss.map Segment.tag := by
    intro ss
    induction ss with
    | nil => rfl
    | cons s ss ih =>
      rw [List.flatMap_cons, List.filterMap_append, ih]
      rfl
  rw [items, List.filterMap_append, hsegments, tags]
  simp [Item.tag?]

/-- Text and well-nested tags are a sequence of pieces, then for each open block tag its closing tag
and a further sequence of pieces. -/
theorem exists_pieces {names : List Text} {is : List Item}
    (h : wellNested names (is.filterMap Item.tag?) = true) :
    ∃ (ns : List Tree) (closers : List (Tag × List Tree)),
      closers.map (fun x => x.1.name) = names ∧ (∀ x ∈ closers, x.1.kind = .closing) ∧
        is = Tree.itemsAll ns ++ closers.flatMap (fun x => .tag x.1 :: Tree.itemsAll x.2) := by
  induction is generalizing names with
  | nil =>
    have hnil : names = [] := by simpa [wellNested] using h
    exact ⟨[], [], by rw [hnil]; rfl, by simp, by simp [Tree.itemsAll]⟩
  | cons i is ih =>
    cases i with
    | text t =>
      obtain ⟨ns, closers, hnames, hkinds, rfl⟩ := ih h
      exact ⟨.text t :: ns, closers, hnames, hkinds, by simp [Tree.itemsAll, Tree.items]⟩
    | tag tag =>
      rw [show (Item.tag tag :: is).filterMap Item.tag? = tag :: is.filterMap Item.tag? from rfl,
        wellNested] at h
      cases hkind : tag.kind with
      | selfClosing =>
        simp only [hkind] at h
        obtain ⟨ns, closers, hnames, hkinds, rfl⟩ := ih h
        refine ⟨.single tag hkind :: ns, closers, hnames, hkinds, ?_⟩
        simp [Tree.itemsAll, Tree.items]
      | opening =>
        simp only [hkind] at h
        obtain ⟨ns, closers, hnames, hkinds, rfl⟩ := ih h
        -- The first of the closing tags is that of the new block.
        cases closers with
        | nil => cases hnames
        | cons x closers =>
          obtain ⟨closing, ns'⟩ := x
          obtain ⟨hname, hnames⟩ := List.cons.inj hnames
          refine ⟨.block tag ns closing ⟨hkind, hkinds _ List.mem_cons_self⟩ hname :: ns', closers,
            hnames, fun y hy => hkinds y (List.mem_cons_of_mem _ hy), ?_⟩
          simp [Tree.itemsAll, Tree.items]
      | closing =>
        simp only [hkind, Bool.and_eq_true, decide_eq_true_eq] at h
        obtain ⟨hhead, h⟩ := h
        obtain ⟨names', rfl⟩ := List.head?_eq_some_iff.1 hhead
        obtain ⟨ns, closers, hnames, hkinds, rfl⟩ := ih h
        refine ⟨[], (tag, ns) :: closers, by rw [List.map_cons, hnames]; rfl, ?_, ?_⟩
        · intro x hx
          rcases List.mem_cons.1 hx with rfl | hx
          · exact hkind
          · exact hkinds x hx
        · simp [Tree.itemsAll]

/-- A template with well-nested tags can be read as a forest. -/
theorem exists_forest {source : Text} (h : wellNested [] (tags source) = true) :
    ∃ forest, Tree.itemsAll forest = items source := by
  rw [← tags_items] at h
  obtain ⟨ns, closers, hnames, -, hitems⟩ := exists_pieces h
  have hnil : closers = [] := List.map_eq_nil_iff.1 hnames
  exact ⟨ns, by rw [hitems, hnil]; simp⟩

/-! ## The pass over a forest -/

/-- The pass over text and tags. -/
def runItems (conventions : Conventions) (source : Text) :
    Pass → List Item → Except StructuralError Pass
  | p, [] => .ok p
  | p, .text t :: is => runItems conventions source (p.emit t) is
  | p, .tag tag :: is =>
    match p.step conventions source ⟨[], tag⟩ with
    | .ok s => runItems conventions source s.pass is
    | .error e => .error e

section RunItems

variable {conventions : Conventions} {source : Text}

theorem emit_nil (p : Pass) : p.emit [] = p := by
  rw [Pass.emit, Output.push_nil]

theorem step_gap (p : Pass) (gap : Text) (tag : Tag) :
    p.step conventions source ⟨gap, tag⟩ = (p.emit gap).step conventions source ⟨[], tag⟩ := by
  rw [Pass.step, Pass.step, emit_nil]

theorem runItems_append (p : Pass) (is js : List Item) :
    runItems conventions source p (is ++ js) =
      match runItems conventions source p is with
      | .ok p' => runItems conventions source p' js
      | .error e => .error e := by
  induction is generalizing p with
  | nil => rfl
  | cons i is ih =>
    cases i with
    | text t => exact ih (p.emit t)
    | tag tag =>
      rw [List.cons_append, runItems, runItems]
      cases p.step conventions source ⟨[], tag⟩ with
      | error e => rfl
      | ok s => exact ih s.pass

/-- The pass over the segments of a template is the pass over its text and tags. -/
theorem runItems_segments (p : Pass) (ss : List Segment) (tail : Text) :
    runItems conventions source p
        (ss.flatMap (fun s => [.text s.gap, .tag s.tag]) ++ [.text tail]) =
      (p.run conventions source ss).result.map (·.emit tail) := by
  induction ss generalizing p with
  | nil => rfl
  | cons s ss ih =>
    rw [List.flatMap_cons, List.append_assoc, List.cons_append, List.cons_append, List.nil_append,
      runItems, runItems, ← step_gap, Pass.run]
    cases p.step conventions source s with
    | error e => rfl
    | ok next => exact ih next.pass

end RunItems

/-- The states in which a piece of a well-nested template can begin: every open frame keeps a place
in the text so far, and if frames are open, one of them is that of a component. -/
structure Pass.Ready (p : Pass) : Prop where
  points : ∀ f ∈ p.nesting, f.point ≤ p.output.size
  component : p.nesting ≠ [] → p.nesting.any (·.role.isComponent) = true

/-- The variable of the innermost open block. -/
def Pass.enclosing (p : Pass) : Option Text := p.nesting.head?.map Frame.blockVariable

/-- The frame after pieces of its content, with or without a slot among them. -/
def Frame.filled (slot : Bool) (f : Frame) : Frame := { f with hasSlot := f.hasSlot || slot }

/-- The open frames after pieces, with or without a slot among them. -/
def Nesting.filled (slot : Bool) (fs : Nesting) : Nesting := if slot then fs.fillSlot else fs

namespace Nesting

theorem filled_filled (a b : Bool) (fs : Nesting) :
    (fs.filled a).filled b = fs.filled (a || b) := by
  cases a <;> cases b <;> cases fs <;> rfl

theorem filled_cons (slot : Bool) (f : Frame) (fs : Nesting) :
    filled slot (f :: fs) = f.filled slot :: fs := by
  cases slot
  · rw [Frame.filled, Bool.or_false]
    rfl
  · rw [Frame.filled, Bool.or_true]
    rfl

theorem exists_of_mem_filled {slot : Bool} {f : Frame} {fs : Nesting} (h : f ∈ fs.filled slot) :
    ∃ g ∈ fs, f.point = g.point := by
  cases fs with
  | nil => cases slot <;> cases h
  | cons g fs =>
    rw [filled_cons] at h
    rcases List.mem_cons.1 h with rfl | h
    · exact ⟨g, List.mem_cons_self, rfl⟩
    · exact ⟨f, List.mem_cons_of_mem _ h, rfl⟩

theorem any_filled (slot : Bool) (fs : Nesting) :
    (fs.filled slot).any (·.role.isComponent) = fs.any (·.role.isComponent) := by
  cases fs with
  | nil => cases slot <;> rfl
  | cons f fs =>
    rw [filled_cons, List.any_cons, List.any_cons]
    rfl

end Nesting

namespace Pass.Ready

variable {conventions : Conventions} {source : Text} {p : Pass}

/-- Text and slots keep a state ready. -/
theorem push (h : p.Ready) (t : Text) (slot : Bool) :
    Ready ⟨p.output.push t, p.nesting.filled slot⟩ := by
  constructor
  · intro f hf
    obtain ⟨g, hg, heq⟩ := Nesting.exists_of_mem_filled hf
    have := h.points g hg
    rw [heq, Output.size_push]
    omega
  · intro hne
    rw [Nesting.any_filled]
    refine h.component ?_
    rintro hnil
    rw [hnil] at hne
    cases slot <;> exact hne rfl

theorem enclosing_push (p : Pass) (t : Text) (slot : Bool) :
    enclosing ⟨p.output.push t, p.nesting.filled slot⟩ = p.enclosing := by
  obtain ⟨output, nesting⟩ := p
  cases nesting with
  | nil => cases slot <;> rfl
  | cons f fs =>
    rw [enclosing, Nesting.filled_cons]
    rfl

/-- In a ready state the role of a tag is decided by the variable around it. -/
theorem roleOf_eq (h : p.Ready) (tag : Tag) :
    roleOf conventions p.nesting tag.name tag.alias?.isSome =
      ((match Tree.slot? conventions p.enclosing tag with
        | some (receiver, slot) => .slot receiver slot
        | none => .component tag.alias?.isSome),
        p.nesting.filled (Name.slotName tag.name conventions.slotPrefix).isSome) := by
  obtain ⟨output, nesting⟩ := p
  unfold roleOf Tree.slot?
  cases Name.slotName tag.name conventions.slotPrefix with
  | none => rfl
  | some slot =>
    cases nesting with
    | nil => rfl
    | cons f fs =>
      have hany := h.component (List.cons_ne_nil f fs)
      rw [Nesting.slotParent?, if_pos hany]
      rfl

theorem callFor_eq (h : p.Ready) (tag : Tag) :
    callFor conventions p tag = Tree.call conventions p.enclosing tag := by
  rw [callFor, roleFor, h.roleOf_eq, Tree.call]
  cases Tree.slot? conventions p.enclosing tag <;> rfl

theorem markedFor_eq (h : p.Ready) (tag : Tag) :
    markedFor conventions p tag =
      p.nesting.filled (Name.slotName tag.name conventions.slotPrefix).isSome := by
  rw [markedFor, h.roleOf_eq]

/-- Once a block is open, its content can begin. -/
theorem opened (conventions : Conventions) (h : p.Ready) (tag : Tag) :
    Ready ⟨(p.output.push ([] ++ (callFor conventions p tag ++ Fragment.blockKeyword))).push
      Fragment.close, frameFor conventions p [] tag :: markedFor conventions p tag⟩ := by
  constructor
  · intro f hf
    rw [Output.size_push]
    rcases List.mem_cons.1 hf with rfl | hf
    · exact Nat.le_add_right _ _
    · rw [h.markedFor_eq] at hf
      obtain ⟨g, hg, heq⟩ := Nesting.exists_of_mem_filled hf
      have := h.points g hg
      rw [heq, Output.size_push]
      omega
  · intro _
    rw [List.any_cons, h.markedFor_eq, Nesting.any_filled, Bool.or_eq_true]
    by_cases hnil : p.nesting = []
    · -- Outside all elements a tag is a component.
      have hslot : Tree.slot? conventions p.enclosing tag = none := by
        rw [enclosing, hnil, Tree.slot?]
        intro slot receiver _ hreceiver
        cases hreceiver
      refine Or.inl ?_
      rw [frameFor, roleFor, h.roleOf_eq, hslot]
      rfl
    · exact Or.inr (h.component hnil)

end Pass.Ready

/-- Ending the innermost block puts its parameter before all that came since it was opened. -/
theorem Pass.closeBlock_innermost (o : Output) (content : Text) {f : Frame} {fs : Nesting}
    (hpoint : f.point = o.size) (hfs : ∀ g ∈ fs, g.point ≤ o.size) :
    closeBlock ⟨o.push content, fs⟩ f =
      ⟨o.push ((if f.declares then Fragment.blockParameter f.blockVariable else []) ++
        (content ++ Fragment.endBlock)), fs⟩ := by
  rw [closeBlock]
  by_cases hdeclares : f.declares = true
  · rw [if_pos hdeclares, if_pos hdeclares]
    refine Pass.ext ?_ ?_
    · show Output.push (Option.getD (Output.insert? (o.push content) _ _) _) _ = _
      rw [hpoint, Output.insert?_push, Option.getD_some, Output.push_push, Output.push_push]
    · show Nesting.shift _ _ fs = fs
      rw [hpoint]
      exact Nesting.shift_eq_self hfs
  · rw [if_neg hdeclares, if_neg hdeclares, List.nil_append, emit, Output.push_push]

section Forest

variable (conventions : Conventions) (source : Text)

theorem declares_frameFor {p : Pass} (h : p.Ready) (gap : Text) (tag : Tag) (slot : Bool) :
    ((Pass.frameFor conventions p gap tag).filled slot).declares =
      (slot || (Tree.slot? conventions p.enclosing tag = none && tag.alias?.isSome)) := by
  rw [Frame.declares, Frame.filled, Pass.frameFor, Pass.roleFor, h.roleOf_eq]
  cases Tree.slot? conventions p.enclosing tag <;> simp

/-- A closing tag that names the innermost open block ends it. -/
theorem runItems_closing (o : Output) (content : Text) (frame : Frame) {fs : Nesting}
    {closing : Tag} (hkind : closing.kind = .closing) (hname : frame.name = closing.name)
    (hpoint : frame.point = o.size) (hfs : ∀ g ∈ fs, g.point ≤ o.size) :
    runItems conventions source ⟨o.push content, frame :: fs⟩ [.tag closing] =
      .ok ⟨o.push ((if frame.declares then Fragment.blockParameter frame.blockVariable else []) ++
        (content ++ Fragment.endBlock)), fs⟩ := by
  have htake : Nesting.take? closing.name (frame :: fs) = some (frame, fs) := if_pos hname
  obtain ⟨log, hstep⟩ := Pass.step_closing conventions source ⟨o.push content, frame :: fs⟩ []
    closing hkind htake
  rw [Output.push_nil, Pass.closeBlock_innermost o content hpoint hfs] at hstep
  rw [runItems, hstep]
  rfl

/-- The pass over an element with content, given what it does on the content. When the closing tag
comes, the frame of the element is the innermost one again. -/
theorem runItems_block {p : Pass} (h : p.Ready) {opening closing : Tag} {content : List Tree}
    (kinds : opening.kind = .opening ∧ closing.kind = .closing)
    (names : closing.name = opening.name)
    (hcontent : ∀ p : Pass, p.Ready → runItems conventions source p (Tree.itemsAll content) =
      .ok ⟨p.output.push (Tree.renderAll conventions p.enclosing content),
        p.nesting.filled (content.any (Tree.isSlotShaped conventions))⟩) :
    runItems conventions source p (Tree.block opening content closing kinds names).items =
      .ok ⟨p.output.push ((Tree.block opening content closing kinds names).render conventions
          p.enclosing),
        p.nesting.filled ((Tree.block opening content closing kinds names).isSlotShaped
          conventions)⟩ := by
  obtain ⟨log, hopen⟩ := Pass.step_opening conventions source p [] opening kinds.1
  have hinner := hcontent _ (h.opened conventions opening)
  have hvariable : (Pass.frameFor conventions p [] opening).blockVariable = opening.blockVariable :=
    rfl
  rw [Pass.enclosing, List.head?_cons, Option.map_some, hvariable, Nesting.filled_cons,
    Output.push_push _ Fragment.close] at hinner
  have hpoints : ∀ g ∈ Pass.markedFor conventions p opening, g.point ≤ (p.output.push
      ([] ++ (Pass.callFor conventions p opening ++ Fragment.blockKeyword))).size := by
    intro g hg
    rw [h.markedFor_eq] at hg
    exact (h.push _ _).points g hg
  have hclose := runItems_closing conventions source _
    (Fragment.close ++ Tree.renderAll conventions (some opening.blockVariable) content)
    ((Pass.frameFor conventions p [] opening).filled
      (content.any (Tree.isSlotShaped conventions))) kinds.2 names.symm rfl hpoints
  rw [Tree.items, runItems, hopen]
  show runItems conventions source _ (Tree.itemsAll content ++ [Item.tag closing]) = _
  rw [runItems_append, hinner]
  show runItems conventions source _ [Item.tag closing] = _
  rw [hclose, declares_frameFor conventions h, h.markedFor_eq, h.callFor_eq, Output.push_push,
    Tree.render, Tree.declaresVariable]
  simp only [List.append_assoc, List.nil_append]
  rfl

mutual

/-- The pass over a piece adds its rendering, and marks the slot of the innermost open block if the
piece is a slot. -/
theorem runItems_tree (n : Tree) (p : Pass) (h : p.Ready) :
    runItems conventions source p n.items =
      .ok ⟨p.output.push (n.render conventions p.enclosing),
        p.nesting.filled (n.isSlotShaped conventions)⟩ := by
  cases n with
  | text t =>
    rw [Tree.items, Tree.render]
    rfl
  | single tag kind =>
    obtain ⟨log, hstep⟩ := Pass.step_selfClosing conventions source p [] tag kind
    rw [Tree.items, runItems, hstep, h.callFor_eq, h.markedFor_eq, List.nil_append, Tree.render]
    rfl
  | block opening content closing kinds names =>
    exact runItems_block conventions source h kinds names (runItems_all content)

/-- The pass over a sequence of pieces adds their renderings. -/
theorem runItems_all (ns : List Tree) (p : Pass) (h : p.Ready) :
    runItems conventions source p (Tree.itemsAll ns) =
      .ok ⟨p.output.push (Tree.renderAll conventions p.enclosing ns),
        p.nesting.filled (ns.any (Tree.isSlotShaped conventions))⟩ := by
  cases ns with
  | nil =>
    rw [Tree.itemsAll, Tree.renderAll, Output.push_nil]
    rfl
  | cons n ns =>
    rw [Tree.itemsAll, runItems_append, runItems_tree n p h]
    show runItems conventions source _ (Tree.itemsAll ns) = _
    rw [runItems_all ns _ (h.push _ _), Pass.Ready.enclosing_push, Output.push_push,
      Nesting.filled_filled, Tree.renderAll, List.any_cons]

end

/-- A forest that a template can be read as decides the outcome. -/
theorem transpile_of_itemsAll {forest : List Tree} (h : Tree.itemsAll forest = items source) :
    transpile conventions source =
      .ok ⟨forest.flatMap (Tree.render conventions none),
        (tags source).flatMap (Tag.warnings source)⟩ := by
  have hready : Pass.start.Ready := by
    refine ⟨fun f hf => ?_, fun hne => absurd rfl hne⟩
    cases hf
  have hforest : runItems conventions source Pass.start (items source) =
      .ok ⟨Output.empty.push (Tree.renderAll conventions none forest), []⟩ := by
    rw [← h, runItems_all conventions source forest Pass.start hready]
    cases forest.any (Tree.isSlotShaped conventions) <;> rfl
  rw [items, runItems_segments] at hforest
  cases hresult : (Pass.start.run conventions source (segments source).1).result with
  | error e =>
    rw [hresult] at hforest
    cases hforest
  | ok p =>
    rw [hresult] at hforest
    have hp : p.emit (segments source).2 =
        ⟨Output.empty.push (Tree.renderAll conventions none forest), []⟩ := Except.ok.inj hforest
    have hnesting : p.nesting = [] := congrArg Pass.nesting hp
    have htext :
        p.output.toText ++ (segments source).2 = Tree.renderAll conventions none forest := by
      have := congrArg (fun q => q.output.toText) hp
      simpa [Pass.emit] using this
    rw [transpile_of_closed hresult hnesting, htext, Tree.renderAll_eq_flatMap]

/-- A template whose tags are well nested can be read as a forest, it succeeds, and the outcome is
the rendering of every such forest. -/
theorem transpile_wellNested (h : wellNested [] (tags source) = true) :
    (∃ forest, Tree.itemsAll forest = items source) ∧
      ∀ forest, Tree.itemsAll forest = items source →
        transpile conventions source =
          .ok ⟨forest.flatMap (Tree.render conventions none),
            (tags source).flatMap (Tag.warnings source)⟩ :=
  ⟨exists_forest h, fun _ hforest => transpile_of_itemsAll conventions source hforest⟩

end Forest

/-- A component in a slot of another one of the same name, a slot in each, and three aliases, the
last of them blank. -/
theorem transpile_wellNested_list :
    let source := "<A as='x' as='l' as=' '><WithRow><A><WithB/></A></WithRow>é</A>".toList
    let output := "<%= render AComponent.new do |l| %><% l.with_row do %>".toList ++
      "<%= render AComponent.new do |a| %><% a.with_b %><% end %><% end %>é<% end %>".toList
    wellNested [] (tags source) = true ∧
      ∃ forest, Tree.itemsAll forest = items source ∧
        forest.flatMap (Tree.render .standard none) = output ∧
        transpile .standard source = .ok ⟨output, []⟩ := by
  intro source output
  have hnested : wellNested [] (tags source) = true := by decide +kernel
  have htranspile : transpile .standard source = .ok ⟨output, []⟩ := by decide +kernel
  clear_value source output
  obtain ⟨⟨forest, hforest⟩, hall⟩ := transpile_wellNested .standard source hnested
  have hrender := congrArg Transpiled.output
    (Except.ok.inj ((hall forest hforest).symm.trans htranspile))
  exact ⟨hnested, forest, hforest, hrender, htranspile⟩

end ErbTags
