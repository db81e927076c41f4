import ErbTags.Transpile

/-!
# What one step of a pass does

One lemma for each kind of tag says what a step gives (`step_selfClosing`, `step_opening`,
`step_closing`, `step_unmatched`). What is read off a tag alone, without the state of the pass, has
a name of its own: its arguments, its alias, its block variable and its warnings. The results about
whole passes rest on these lemmas and not on the definition of a step.
-/

namespace ErbTags

/-! ## What a tag says by itself -/

namespace Attribute

/-- The name that a piece gives to the block variable: the string under the key `as`, without the
white space at its ends. -/
def Piece.alias? : Piece → Option Text
  | .assigned key _ _ (.quoted _ body) => if key = ['a', 's'] then some (Text.trim body) else none
  | _ => none

theorem normalizeKey_eq_aliasKey_iff {key : Text} :
    normalizeKey key = aliasKey ↔ key = ['a', 's'] := by
  have hkey : aliasKey = ['a', 's'] := by decide
  rw [hkey]
  constructor
  · intro h
    -- No dash can have become one of the two letters.
    have hletter : ∀ {c d : Char}, (if c = '-' then '_' else c) = d → d ≠ '_' → c = d := by
      intro c d hcd hd
      split at hcd
      · exact absurd hcd.symm hd
      · exact hcd
    obtain ⟨a, rest, rfl, ha, hrest⟩ := List.map_eq_cons_iff.1 h
    obtain ⟨s, rest', rfl, hs, hrest'⟩ := List.map_eq_cons_iff.1 hrest
    rw [hletter ha (by decide), hletter hs (by decide), List.map_eq_nil_iff.1 hrest']
  · rintro rfl
    decide

theorem Piece.blockVariable?_eq (p : Piece) : p.blockVariable? = p.alias?.filter (· ≠ []) := by
  cases p with
  | filler | flag => rfl
  | assigned key before after value =>
    cases value with
    | braced | bare | openQuoted | openBraced => rfl
    | quoted q body =>
      simp only [Piece.blockVariable?, Piece.alias?, normalizeKey_eq_aliasKey_iff]
      by_cases hkey : key = ['a', 's']
      · by_cases hbody : Text.trim body = [] <;> simp [hkey, hbody, Option.filter]
      · simp [hkey]

end Attribute

namespace Tag

/-- The arguments of the call for the tag. -/
def arguments (tag : Tag) : Text := (Attributes.read tag.attributes).arguments

/-- The arguments in parentheses, or nothing if there are none. -/
def argumentList (tag : Tag) : Text :=
  if tag.arguments = [] then [] else '(' :: (tag.arguments ++ [')'])

/-- The names that the tag gives to its block variable. -/
def aliases (tag : Tag) : List Text := (Attribute.pieces tag.attributes).filterMap (·.alias?)

/-- The name that the tag chooses for its block variable: the last one that is not blank. -/
def alias? (tag : Tag) : Option Text := (tag.aliases.filter (· ≠ [])).getLast?

/-- The variable of the block of the tag. -/
def blockVariable (tag : Tag) : Text := tag.alias?.getD (Name.snakeCase tag.name)

/-- The warnings about the attributes of the tag. A closing tag has none. -/
def warnings (source : Text) (tag : Tag) : List Warning :=
  if tag.kind = .closing then []
  else (Attributes.read tag.attributes).faults.map fun fault =>
    ⟨tag.text, Text.position source tag.start, fault⟩

/-- The alias is what the reader of attributes takes for the block variable. -/
theorem blockVariable_read (tag : Tag) :
    (Attributes.read tag.attributes).blockVariable = tag.alias? := by
  have hpiece : Attribute.Piece.blockVariable? = fun p => p.alias?.filter (· ≠ []) :=
    funext Attribute.Piece.blockVariable?_eq
  show ((Attribute.pieces tag.attributes).filterMap Attribute.Piece.blockVariable?).getLast? = _
  rw [alias?, aliases, List.filter_filterMap, hpiece]

end Tag

/-! ## Generated text -/

namespace Output

@[simp] theorem push_nil (o : Output) : o.push [] = o :=
  ext_toText (by rw [toText_push, List.append_nil])

theorem push_push (o : Output) (s t : Text) : (o.push s).push t = o.push (s ++ t) :=
  ext_toText (by rw [toText_push, toText_push, toText_push, List.append_assoc])

@[simp] theorem size_push (o : Output) (t : Text) : (o.push t).size = o.size + Text.byteSize t :=
  rfl

/-- Text inserted where some text was pushed comes out between what was there and that text. -/
theorem insert?_push (o : Output) (t u : Text) :
    (o.push u).insert? o.size t = some ((o.push t).push u) := by
  rw [insert?_eq_some_iff]
  refine ⟨o.toText, u, toText_push o u, o.size_eq_byteSize_toText.symm, ?_⟩
  rw [toText_push, toText_push, List.append_assoc]

end Output

/-! ## Open frames -/

theorem Frame.shift_eq (offset size : Nat) (f : Frame) :
    f.shift offset size =
      { f with point := if offset < f.point then f.point + size else f.point } := by
  unfold Frame.shift
  split <;> rfl

namespace Nesting

theorem take?_eq_none_iff {name : Text} {fs : Nesting} :
    take? name fs = none ↔ ∀ f ∈ fs, f.name ≠ name := by
  induction fs with
  | nil => simp [take?]
  | cons f fs ih =>
    by_cases hf : f.name = name
    · simp [take?, hf]
    · simp [take?, hf, ih]

/-- A frame that is taken out is the innermost one of its name, and the others stay in order. -/
theorem take?_eq_some_iff {name : Text} {fs rest : Nesting} {f : Frame} :
    take? name fs = some (f, rest) ↔
      ∃ inner outer, fs = inner ++ f :: outer ∧ rest = inner ++ outer ∧ f.name = name ∧
        ∀ g ∈ inner, g.name ≠ name := by
  induction fs generalizing rest with
  | nil => simp [take?]
  | cons g fs ih =>
    by_cases hg : g.name = name
    · rw [take?, if_pos hg, Option.some.injEq, Prod.mk.injEq]
      constructor
      · rintro ⟨rfl, rfl⟩
        exact ⟨[], fs, rfl, rfl, hg, by simp⟩
      · rintro ⟨inner, outer, hfs, rfl, hf, hinner⟩
        cases inner with
        | nil => simpa using hfs
        | cons i inner =>
          have hi : g = i := (List.cons.inj hfs).1
          exact absurd hg (hinner g (by rw [hi]; exact List.mem_cons_self))
    · rw [take?, if_neg hg, Option.map_eq_some_iff]
      constructor
      · rintro ⟨⟨f', rest'⟩, h, heq⟩
        obtain ⟨rfl, rfl⟩ := Prod.mk.inj heq
        obtain ⟨inner, outer, rfl, rfl, hf, hinner⟩ := ih.1 h
        refine ⟨g :: inner, outer, rfl, rfl, hf, ?_⟩
        intro i hi
        rcases List.mem_cons.1 hi with rfl | hi
        · exact hg
        · exact hinner i hi
      · rintro ⟨inner, outer, hfs, rfl, hf, hinner⟩
        cases inner with
        | nil => exact absurd ((List.cons.inj hfs).1 ▸ hf) hg
        | cons i inner =>
          obtain ⟨rfl, rfl⟩ := List.cons.inj hfs
          refine ⟨(f, inner ++ outer), ih.2 ⟨inner, outer, rfl, rfl, hf, ?_⟩, rfl⟩
          intro j hj
          exact hinner j (List.mem_cons_of_mem _ hj)

/-- Frames whose places lie at or before the inserted text stay where they are. -/
theorem shift_eq_self {offset size : Nat} {fs : Nesting} (h : ∀ f ∈ fs, f.point ≤ offset) :
    fs.shift offset size = fs := by
  have hid : ∀ f ∈ fs, Frame.shift offset size f = id f := by
    intro f hf
    have := h f hf
    rw [Frame.shift_eq, if_neg (by omega), id]
  rw [shift, List.map_congr_left hid, List.map_id]

end Nesting

/-! ## Steps -/

namespace Pass

theorem ext {p p' : Pass} (houtput : p.output = p'.output) (hnesting : p.nesting = p'.nesting) :
    p = p' := by
  cases p
  cases p'
  cases houtput
  cases hnesting
  rfl

variable (conventions : Conventions) (source : Text) (p : Pass) (gap : Text) (tag : Tag)

/-- The role that a tag takes, given the open frames. -/
def roleFor : Role := (roleOf conventions p.nesting tag.name tag.alias?.isSome).1

/-- The open frames once a slot that a tag fills is marked. -/
def markedFor : Nesting := (roleOf conventions p.nesting tag.name tag.alias?.isSome).2

/-- The generated call for a tag, up to its end. -/
def callFor : Text := (roleFor conventions p tag).call conventions tag.name tag.arguments

/-- A self-closing tag becomes a call. -/
theorem step_selfClosing (h : tag.kind = .selfClosing) :
    ∃ log, p.step conventions source ⟨gap, tag⟩ =
      .ok ⟨⟨p.output.push (gap ++ (callFor conventions p tag ++ Fragment.close)),
        markedFor conventions p tag⟩, tag.warnings source, log⟩ := by
  refine ⟨(Attributes.read tag.attributes).log, ?_⟩
  simp only [step, h, openTag, emit, Output.push_push, List.append_assoc, if_true, Tag.warnings,
    if_neg (by decide : ¬ TagKind.selfClosing = .closing), tag.blockVariable_read]
  rfl

/-- The frame that an opening tag opens. -/
def frameFor : Frame where
  tag := tag
  role := roleFor conventions p tag
  arguments := tag.arguments
  blockVariable := tag.blockVariable
  hasSlot := false
  point := (p.output.push (gap ++ (callFor conventions p tag ++ Fragment.blockKeyword))).size

/-- An opening tag becomes a call with a block, and opens a frame. -/
theorem step_opening (h : tag.kind = .opening) :
    ∃ log, p.step conventions source ⟨gap, tag⟩ =
      .ok ⟨⟨(p.output.push (gap ++ (callFor conventions p tag ++ Fragment.blockKeyword))).push
          Fragment.close, frameFor conventions p gap tag :: markedFor conventions p tag⟩,
        tag.warnings source, log⟩ := by
  refine ⟨(Attributes.read tag.attributes).log ++
    [⟨.trace, .template, "open " ++ (frameFor conventions p gap tag).describe ++ " at depth " ++
      toString (markedFor conventions p tag).length⟩], ?_⟩
  simp only [step, h, openTag, openBlock, emit, Output.push_push, List.append_assoc, Tag.warnings,
    if_neg (by decide : ¬ TagKind.opening = .selfClosing), frameFor,
    if_neg (by decide : ¬ TagKind.opening = .closing), tag.blockVariable_read]
  rfl

/-- A closing tag ends the innermost frame of its name. -/
theorem step_closing (h : tag.kind = .closing) {frame : Frame} {nesting : Nesting}
    (htake : p.nesting.take? tag.name = some (frame, nesting)) :
    ∃ log, p.step conventions source ⟨gap, tag⟩ =
      .ok ⟨closeBlock ⟨p.output.push gap, nesting⟩ frame, tag.warnings source, log⟩ := by
  refine ⟨[⟨.trace, .template, "close " ++ frame.describe ++ " at depth " ++
    toString nesting.length⟩], ?_⟩
  simp only [step, h, closeTag, emit, htake, Tag.warnings, if_true]

/-- A closing tag of a name that no frame has is an error. -/
theorem step_unmatched (h : tag.kind = .closing) (htake : p.nesting.take? tag.name = none) :
    p.step conventions source ⟨gap, tag⟩ =
      .error
        (errorAt source (if p.nesting = [] then .unmatchedClose else .noMatchingOpen) tag) := by
  simp only [step, h, closeTag, emit, htake]
  rfl

variable {conventions source p gap tag}

/-- Whatever the state, a step that succeeds gives the warnings of its tag. -/
theorem warnings_of_step {s : Step} (h : p.step conventions source ⟨gap, tag⟩ = .ok s) :
    s.warnings = tag.warnings source := by
  cases hkind : tag.kind with
  | opening =>
    obtain ⟨log, hstep⟩ := step_opening conventions source p gap tag hkind
    rw [hstep] at h
    rw [← Except.ok.inj h]
  | selfClosing =>
    obtain ⟨log, hstep⟩ := step_selfClosing conventions source p gap tag hkind
    rw [hstep] at h
    rw [← Except.ok.inj h]
  | closing =>
    cases htake : p.nesting.take? tag.name with
    | none =>
      rw [step_unmatched conventions source p gap tag hkind htake] at h
      cases h
    | some taken =>
      obtain ⟨log, hstep⟩ := step_closing conventions source p gap tag hkind htake
      rw [hstep] at h
      rw [← Except.ok.inj h]

/-- A pass that gets to the end gives the warnings of all tags, in their order. -/
theorem warnings_of_run {p p' : Pass} {ss : List Segment}
    (h : (p.run conventions source ss).result = .ok p') :
    (p.run conventions source ss).warnings =
      (ss.map Segment.tag).flatMap (Tag.warnings source) := by
  induction ss generalizing p with
  | nil => rfl
  | cons s ss ih =>
    cases hstep : p.step conventions source s with
    | error e =>
      rw [run, hstep] at h
      cases h
    | ok next =>
      simp only [run, hstep] at h ⊢
      rw [ih h, warnings_of_step hstep, List.map_cons, List.flatMap_cons]

end Pass

/-! ## Templates -/

section Template

variable {conventions : Conventions} {source : Text} {p : Pass}

theorem transpile_of_error {e : StructuralError}
    (h : (Pass.start.run conventions source (segments source).1).result = .error e) :
    transpile conventions source = .error e := by
  simp only [transpile, transpileLogged, h]
  rfl

/-- A template succeeds if no frame is left at the end of the pass. -/
theorem transpile_of_closed
    (h : (Pass.start.run conventions source (segments source).1).result = .ok p)
    (hnesting : p.nesting = []) :
    transpile conventions source =
      .ok ⟨p.output.toText ++ (segments source).2,
        (tags source).flatMap (Tag.warnings source)⟩ := by
  have hwarnings := Pass.warnings_of_run h
  obtain ⟨output, nesting⟩ := p
  cases hnesting
  simp only [transpile, transpileLogged, h, hwarnings]
  show Except.ok (⟨(output.push (segments source).2).toText, _⟩ : Transpiled) = _
  rw [Output.toText_push]
  rfl

/-- A template fails at the innermost frame that is left at the end of the pass. -/
theorem transpile_of_open {frame : Frame} {frames : Nesting}
    (h : (Pass.start.run conventions source (segments source).1).result = .ok p)
    (hnesting : p.nesting = frame :: frames) :
    transpile conventions source = .error (Pass.errorAt source .unclosedOpen frame.tag) := by
  obtain ⟨output, nesting⟩ := p
  cases hnesting
  simp only [transpile, transpileLogged, h]
  rfl

end Template

end ErbTags
