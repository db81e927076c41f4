import ErbTags.Proofs.ByteAttributes
import ErbTags.Proofs.ByteScanner
import ErbTags.Proofs.Steps

/-!
# A pass that checks every place

`transpile?` turns a template into ERB with the readers over bytes. It goes from tag to tag with a
scanner over bytes, cuts the text before a tag and the tag itself out of the template by their byte
offsets, and inserts block parameters by byte offset. Each of these steps fails if an offset lies
past an end or inside a character, and `none` says that one of them failed.

None of them ever fails: `transpile?` gives the result of `transpile`. For the template this is
because a tag starts where the text before it ends. For the generated text it is an invariant of the
pass: the place that an open frame remembers lies between two characters of the output
(`Pass.PointsFit`), also after text was inserted before it.
-/

namespace ErbTags

open Text (byteSize RestAt)

/-! ## The pass -/

namespace Pass

/-- Handles a component or slot tag that ends at byte `stop`. -/
def openTag? (conventions : Conventions) (source : Text) (p : Pass) (tag : Tag) (stop : Nat) :
    Option (Pass × List Warning) := do
  let attributes ← attributes? tag.attributes
  let text ← Text.slice? source tag.start stop
  let position ← position? source tag.start
  let warnings := attributes.faults.map fun fault => (⟨text, position, fault⟩ : Warning)
  let (role, nesting) := roleOf conventions p.nesting tag.name attributes.blockVariable.isSome
  let call := role.call conventions tag.name attributes.arguments
  if tag.kind = .selfClosing then
    return (⟨(p.output.push call).push Fragment.close, nesting⟩, warnings)
  else
    let blockVariable := attributes.blockVariable.getD (Name.snakeCase tag.name)
    return ((openBlock { p with nesting } tag role call attributes.arguments blockVariable).1,
      warnings)

/-- The error about a tag that ends at byte `stop`. -/
def errorAt? (source : Text) (fault : StructuralFault) (tag : Tag) (stop : Nat) :
    Option StructuralError := do
  return ⟨fault, ← Text.slice? source tag.start stop, tag.start, ← position? source tag.start⟩

/-- Ends the block of a frame that was taken out of the nesting. -/
def closeBlock? (p : Pass) (frame : Frame) : Option Pass := do
  if frame.declares then
    let parameter := Fragment.blockParameter frame.blockVariable
    let output ← p.output.insert? frame.point parameter
    return ⟨output.push Fragment.endBlock, p.nesting.shift frame.point (byteSize parameter)⟩
  else return p.emit Fragment.endBlock

/-- Handles a tag that ends at byte `stop`, once the text before it is copied. -/
def step? (conventions : Conventions) (source : Text) (p : Pass) (tag : Tag) (stop : Nat) :
    Option (Except StructuralError (Pass × List Warning)) := do
  if tag.kind = .closing then
    match p.nesting.take? tag.name with
    | some (frame, nesting) => return .ok (← closeBlock? { p with nesting } frame, [])
    | none =>
      let fault := if p.nesting = [] then .unmatchedClose else .noMatchingOpen
      return .error (← errorAt? source fault tag stop)
  else return .ok (← p.openTag? conventions source tag stop)

/-- Goes on with the pass at byte `cursor`: the place behind the last tag, with the state and the
warnings that the pass has there. Each tag has to end behind the one before, inside the template. -/
def runFrom? (conventions : Conventions) (source : Text) (s : ByteScanner) (cursor : Nat) (p : Pass)
    (warnings : List Warning) : Option (Except StructuralError (Nat × Pass × List Warning)) := do
  match ← s.nextTag? cursor with
  | (none, _) => return .ok (cursor, p, warnings)
  | (some (tag, stop), s') =>
    let gap ← Text.slice? source cursor tag.start
    match ← (p.emit gap).step? conventions source tag stop with
    | .error e => return .error e
    | .ok (p', more) =>
      if cursor < stop ∧ stop ≤ byteSize source then
        runFrom? conventions source s' stop p' (warnings ++ more)
      else none
termination_by byteSize source - cursor

end Pass

/-- Turns a template into ERB. -/
def transpile? (conventions : Conventions) (source : Text) :
    Option (Except StructuralError Transpiled) := do
  match ← Pass.runFrom? conventions source (.ofText source) 0 .start [] with
  | .error e => return .error e
  | .ok (cursor, p, warnings) =>
    let tail ← Text.slice? source cursor (byteSize source)
    match p.nesting with
    | [] => return .ok ⟨(p.emit tail).output.toText, warnings⟩
    | frame :: _ =>
      let position ← position? source frame.tag.start
      return .error ⟨.unclosedOpen, frame.tag.text, frame.tag.start, position⟩

/-! ## Places in generated text -/

namespace Output

/-- Byte `n` of the text lies between two characters, or at an end. -/
def HasPlace (o : Output) (n : Nat) : Prop := ∃ behind, RestAt o.toText n behind

variable {o o' : Output} {n : Nat}

theorem hasPlace_size (o : Output) : o.HasPlace o.size :=
  ⟨[], o.toText, (List.append_nil _).symm, o.size_eq_byteSize_toText.symm⟩

theorem HasPlace.push (h : o.HasPlace n) (t : Text) : (o.push t).HasPlace n := by
  obtain ⟨behind, before, htext, hsize⟩ := h
  refine ⟨behind ++ t, before, ?_, hsize⟩
  rw [toText_push, htext, List.append_assoc]

theorem HasPlace.exists_insert (h : o.HasPlace n) (t : Text) : ∃ o', o.insert? n t = some o' := by
  obtain ⟨behind, before, htext, hsize⟩ := h
  refine ⟨empty.push (before ++ (t ++ behind)), ?_⟩
  rw [insert?_eq_some_iff]
  exact ⟨before, behind, htext, hsize, by rw [toText_push, toText_empty, List.nil_append]⟩

/-- After text was inserted, the places behind it are further on by its size, and the others are
where they were. -/
theorem HasPlace.of_insert (h : o.HasPlace n) {offset : Nat} {t : Text}
    (hinsert : o.insert? offset t = some o') :
    o'.HasPlace (if offset < n then n + byteSize t else n) := by
  obtain ⟨behind, before, htext, hsize⟩ := h
  obtain ⟨front, back, hsplit, hfront, htext'⟩ := insert?_eq_some_iff.1 hinsert
  rw [htext] at hsplit
  rcases List.append_eq_append_iff.1 hsplit with ⟨middle, rfl, rfl⟩ | ⟨middle, rfl, rfl⟩
  · -- The text is inserted at the place or behind it.
    rw [Text.byteSize_append] at hfront
    rw [if_neg (by omega)]
    exact ⟨middle ++ (t ++ back), before, by rw [htext', List.append_assoc], hsize⟩
  · rw [Text.byteSize_append] at hsize
    by_cases hlt : offset < n
    · rw [if_pos hlt]
      refine ⟨behind, front ++ (t ++ middle), by simp [htext'], ?_⟩
      simp only [Text.byteSize_append]
      omega
    · -- Nothing lies between, so the place is where the text is inserted.
      rw [if_neg hlt]
      exact ⟨t ++ (middle ++ behind), front, htext', by omega⟩

end Output

/-! ## Remembered places -/

namespace Nesting

theorem map_point_fillSlot (fs : Nesting) : fs.fillSlot.map Frame.point = fs.map Frame.point := by
  cases fs <;> rfl

theorem mem_of_take? {name : Text} {fs rest : Nesting} {f : Frame}
    (h : take? name fs = some (f, rest)) : f ∈ fs ∧ ∀ g ∈ rest, g ∈ fs := by
  obtain ⟨inner, outer, rfl, rfl, -, -⟩ := take?_eq_some_iff.1 h
  refine ⟨List.mem_append_right _ List.mem_cons_self, ?_⟩
  intro g hg
  rcases List.mem_append.1 hg with hg | hg
  · exact List.mem_append_left _ hg
  · exact List.mem_append_right _ (List.mem_cons_of_mem _ hg)

end Nesting

namespace Pass

variable {conventions : Conventions} {source gap : Text} {p : Pass} {tag : Tag} {s : Step}

theorem map_point_markedFor :
    (markedFor conventions p tag).map Frame.point = p.nesting.map Frame.point := by
  unfold markedFor roleOf
  split
  · exact p.nesting.map_point_fillSlot
  · rfl

/-- The places that the open frames remember are places of the output. -/
def PointsFit (p : Pass) : Prop := ∀ n ∈ p.nesting.map Frame.point, p.output.HasPlace n

theorem pointsFit_start : start.PointsFit := by
  intro n hn
  cases hn

theorem PointsFit.emit (h : p.PointsFit) (t : Text) : (p.emit t).PointsFit :=
  fun n hn => (h n hn).push t

theorem PointsFit.closeBlock {frame : Frame} {nesting : Nesting} (h : p.PointsFit)
    (htake : p.nesting.take? tag.name = some (frame, nesting)) :
    (closeBlock ⟨p.output, nesting⟩ frame).PointsFit := by
  obtain ⟨hframe, hrest⟩ := Nesting.mem_of_take? htake
  have hplaces : ∀ f ∈ nesting, p.output.HasPlace f.point :=
    fun f hf => h _ (List.mem_map_of_mem (hrest f hf))
  by_cases hdeclares : frame.declares = true
  · obtain ⟨output, hinsert⟩ := (h _ (List.mem_map_of_mem hframe)).exists_insert
      (Fragment.blockParameter frame.blockVariable)
    simp only [Pass.closeBlock, if_pos hdeclares, hinsert, Option.getD_some]
    intro n hn
    simp only [Nesting.shift, List.map_map, List.mem_map, Function.comp_apply, Frame.shift_eq] at hn
    obtain ⟨f, hf, rfl⟩ := hn
    exact ((hplaces f hf).of_insert hinsert).push _
  · rw [Pass.closeBlock, if_neg hdeclares]
    intro n hn
    obtain ⟨f, hf, rfl⟩ := List.mem_map.1 hn
    exact (hplaces f hf).push _

/-- A step keeps the remembered places in the output: an opening tag remembers the end of what was
generated so far, and where a parameter is inserted the other places move along. -/
theorem PointsFit.step (h : p.PointsFit)
    (hstep : p.step conventions source ⟨gap, tag⟩ = .ok s) : s.pass.PointsFit := by
  have hmarked : ∀ n ∈ (markedFor conventions p tag).map Frame.point, p.output.HasPlace n := by
    rw [map_point_markedFor]
    exact h
  cases hkind : tag.kind with
  | selfClosing =>
    obtain ⟨log, heq⟩ := step_selfClosing conventions source p gap tag hkind
    rw [heq] at hstep
    rw [← Except.ok.inj hstep]
    exact fun n hn => (hmarked n hn).push _
  | opening =>
    obtain ⟨log, heq⟩ := step_opening conventions source p gap tag hkind
    rw [heq] at hstep
    rw [← Except.ok.inj hstep]
    intro n hn
    rcases List.mem_cons.1 hn with rfl | hn
    · exact (Output.hasPlace_size _).push _
    · exact ((hmarked n hn).push _).push _
  | closing =>
    cases htake : p.nesting.take? tag.name with
    | none =>
      rw [step_unmatched conventions source p gap tag hkind htake] at hstep
      cases hstep
    | some taken =>
      obtain ⟨log, heq⟩ := step_closing conventions source p gap tag hkind htake
      rw [heq] at hstep
      rw [← Except.ok.inj hstep]
      exact (h.emit gap).closeBlock htake

/-! ## Steps -/

theorem closeBlock?_eq {frame : Frame} (h : p.output.HasPlace frame.point) :
    p.closeBlock? frame = some (p.closeBlock frame) := by
  obtain ⟨output, hinsert⟩ := h.exists_insert (Fragment.blockParameter frame.blockVariable)
  simp only [closeBlock?, closeBlock, hinsert]
  split <;> rfl

theorem errorAt?_eq {fault : StructuralFault} {stop : Nat}
    (hslice : Text.slice? source tag.start stop = some tag.text) :
    errorAt? source fault tag stop = some (errorAt source fault tag) := by
  rw [errorAt?, hslice, position?_eq]
  rfl

theorem openTag?_eq {stop : Nat} (hslice : Text.slice? source tag.start stop = some tag.text) :
    p.openTag? conventions source tag stop =
      some ((p.openTag conventions source tag).pass,
        (p.openTag conventions source tag).warnings) := by
  simp only [openTag?, openTag, attributes?_eq, hslice, position?_eq, Option.bind_eq_bind,
    Option.bind_some]
  split <;> rfl

/-- A step that checks its places succeeds, and does what a step does. -/
theorem step?_eq {stop : Nat} (h : p.PointsFit)
    (hslice : Text.slice? source tag.start stop = some tag.text) :
    (p.emit gap).step? conventions source tag stop =
      some ((p.step conventions source ⟨gap, tag⟩).map fun s => (s.pass, s.warnings)) := by
  cases hkind : tag.kind with
  | opening =>
    simp only [step?, Pass.step, hkind, openTag?_eq hslice]
    rfl
  | selfClosing =>
    simp only [step?, Pass.step, hkind, openTag?_eq hslice]
    rfl
  | closing =>
    cases htake : p.nesting.take? tag.name with
    | none =>
      have htake' : (p.emit gap).nesting.take? tag.name = none := htake
      rw [step_unmatched conventions source p gap tag hkind htake]
      simp only [step?, hkind, if_true, htake', errorAt?_eq hslice]
      rfl
    | some taken =>
      obtain ⟨frame, nesting⟩ := taken
      have htake' : (p.emit gap).nesting.take? tag.name = some (frame, nesting) := htake
      have hplace : (p.emit gap).output.HasPlace frame.point :=
        h.emit gap _ (List.mem_map_of_mem (Nesting.mem_of_take? htake').1)
      simp only [step?, Pass.step, closeTag, hkind, if_true, htake']
      rw [closeBlock?_eq (p := ⟨(p.emit gap).output, nesting⟩) hplace]
      rfl

/-! ## Runs -/

/-- The loop over tags passes every check. It does what a pass over the segments does, and stops
behind the last one. -/
theorem runFrom?_eq {b : ByteScanner} {exhausted : Bool} {cursor : Nat} {t : Text}
    {warnings : List Warning} (htext : b.text = source) (hexhausted : b.exhausted = exhausted)
    (h : RestAt (Scanner.searchable source).1 cursor t) (hfits : p.PointsFit) :
    runFrom? conventions source b cursor p warnings =
      some ((p.run conventions source (segmentsFrom exhausted cursor t).1).result.map fun p' =>
        (cursor + byteSize ((segmentsFrom exhausted cursor t).1.flatMap Segment.text), p',
          warnings ++
            (p.run conventions source (segmentsFrom exhausted cursor t).1).warnings)) := by
  fun_induction segmentsFrom exhausted cursor t generalizing p b warnings with
  | case1 exhausted cursor t hfind =>
    have hnext := ByteScanner.nextTag?_of_restAt (s := b) (htext.symm ▸ h)
    rw [hexhausted, hfind] at hnext
    rw [runFrom?, hnext]
    simp only [run, Option.map_none, Option.bind_eq_bind, Option.bind_some, List.append_nil]
    rfl
  | case2 exhausted cursor t f hfind segments tail heq ih =>
    rw [heq] at ih
    have hnext := ByteScanner.nextTag?_of_restAt (s := b) (htext.symm ▸ h)
    rw [hexhausted, hfind] at hnext
    -- In the searched text, and so in the template, the tag lies where its offsets say.
    have hstart := start_of_findTag? hfind
    rw [text_of_findTag? hfind] at h
    have htag : RestAt (Scanner.searchable source).1 f.tag.start (f.tag.text ++ f.rest) :=
      hstart ▸ h.append
    have hgap : Text.slice? source cursor f.tag.start = some f.gap := by
      rw [hstart]
      exact (ByteScanner.restAt_of_searchable h).slice?_eq
    have hslice : Text.slice? source f.tag.start f.tag.stop = some f.tag.text :=
      (ByteScanner.restAt_of_searchable htag).slice?_eq
    have hprogress : cursor < f.tag.stop ∧ f.tag.stop ≤ byteSize source := by
      have htagProgress := (ByteScanner.restAt_of_searchable htag).progress f.tag.text_ne_nil
      rw [Tag.stop]
      omega
    have hchecked : (p.emit f.gap).step? conventions source f.tag f.tag.stop =
        some ((p.step conventions source ⟨f.gap, f.tag⟩).map fun s => (s.pass, s.warnings)) :=
      step?_eq hfits hslice
    rw [runFrom?, hnext]
    simp only [Option.map_some, Option.bind_eq_bind, Option.bind_some, hgap, hchecked]
    cases hstep : p.step conventions source ⟨f.gap, f.tag⟩ with
    | error e =>
      simp only [run, hstep]
      rfl
    | ok s =>
      have hrec := @ih s.pass { b with exhausted := f.exhausted } (warnings ++ s.warnings) htext rfl
        htag.append (hfits.step hstep)
      have hsize : cursor + byteSize ((⟨f.gap, f.tag⟩ :: segments).flatMap Segment.text) =
          f.tag.stop + byteSize (segments.flatMap Segment.text) := by
        simp only [List.flatMap_cons, Segment.text, Text.byteSize_append, Tag.stop, hstart]
        omega
      simp only [Except.map, if_pos hprogress, run, hstep, hsize, ← List.append_assoc]
      exact hrec

end Pass

/-! ## Templates -/

/-- Turning a template into ERB passes every check, and gives the result. -/
theorem transpile?_eq (conventions : Conventions) (source : Text) :
    transpile? conventions source = some (transpile conventions source) := by
  have hrun : Pass.runFrom? conventions source (.ofText source) 0 .start [] =
      some ((Pass.start.run conventions source (segments source).1).result.map fun p =>
        (0 + byteSize ((segments source).1.flatMap Segment.text), p,
          [] ++ (Pass.start.run conventions source (segments source).1).warnings)) :=
    Pass.runFrom?_eq rfl rfl (RestAt.zero _) Pass.pointsFit_start
  have htail : Text.slice? source (0 + byteSize ((segments source).1.flatMap Segment.text))
      (byteSize source) = some (segments source).2 := by
    have hall : RestAt source 0
        ((segments source).1.flatMap Segment.text ++ (segments source).2) := by
      rw [text_segments]
      exact RestAt.zero source
    rw [hall.append.byteSize_eq]
    refine RestAt.slice?_eq (t := []) ?_
    rw [List.append_nil]
    exact hall.append
  rw [transpile?, hrun]
  cases hresult : (Pass.start.run conventions source (segments source).1).result with
  | error e =>
    rw [transpile_of_error hresult]
    rfl
  | ok p =>
    simp only [Except.map, Option.bind_eq_bind, Option.bind_some, htail]
    cases hnesting : p.nesting with
    | nil =>
      rw [transpile_of_closed hresult hnesting, Pass.warnings_of_run hresult, List.nil_append]
      show some (Except.ok (⟨(p.output.push (segments source).2).toText, _⟩ : Transpiled)) = _
      rw [Output.toText_push]
      rfl
    | cons frame frames =>
      rw [transpile_of_open hresult hnesting]
      simp only [position?_eq]
      rfl

/-- No check of a place ever fails: not one of a pass over a template, whatever the conventions, not
one of a scanner that is asked for tags from arbitrary byte offsets on, not one of the readers of
attributes and positions. What comes out is the result of the readers over characters. -/
theorem every_place_fits :
    (∀ conventions source, transpile? conventions source = some (transpile conventions source)) ∧
      (∀ source offsets, (ByteScanner.ofText source).nextAll? offsets =
        some (((Scanner.ofText source).nextAll offsets).map
          (Option.map fun tag => (tag, tag.stop)))) ∧
      (∀ raw, attributes? raw = some (Attributes.read raw)) ∧
      ∀ source offset, position? source offset = some (Text.position source offset) :=
  ⟨transpile?_eq, fun source => (ByteScanner.ofText source).nextAll?_eq, attributes?_eq,
    position?_eq⟩

end ErbTags
