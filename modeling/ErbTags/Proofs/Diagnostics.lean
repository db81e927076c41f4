import ErbTags.Proofs.Balance
import ErbTags.Proofs.Positions
import ErbTags.Proofs.ValueEnds

/-!
# What diagnostics depend on, and where they point

The naming conventions decide which tags are slots, and with that the frames of a pass and all of
its output. They decide nothing else: of the open frames only their tags matter for which closing
tag ends what, so a structural error and the warnings can be told from the tags alone (`diagnose`).
A step of a pass, seen by the tags that it leaves open, is a step of that smaller machine
(`openTags_step`), and so is a whole run (`openTags_run`).

Hence two conventions never lead to different diagnostics (`diagnostics_of_conventions`), and every
diagnostic is about a tag of the template, whose text and place it gives
(`diagnostics_point_at_tags`).
-/

namespace ErbTags

/-! ## Diagnostics from tags alone -/

/-- The open tags after one more tag, innermost first. -/
def nest (source : Text) (opened : List Tag) (tag : Tag) : Except StructuralError (List Tag) :=
  match tag.kind with
  | .opening => .ok (tag :: opened)
  | .selfClosing => .ok opened
  | .closing =>
    if opened.any (·.name = tag.name) then .ok (opened.eraseP (·.name = tag.name))
    else
      .error (Pass.errorAt source (if opened = [] then .unmatchedClose else .noMatchingOpen) tag)

/-- The structural error of a template, or the warnings about it. -/
def diagnose (source : Text) : Except StructuralError (List Warning) := do
  match ← (tags source).foldlM (nest source) [] with
  | [] => .ok ((tags source).flatMap (Tag.warnings source))
  | tag :: _ => .error (Pass.errorAt source .unclosedOpen tag)

theorem Nesting.map_tag_of_take? {name : Text} {fs rest : Nesting} {f : Frame}
    (h : fs.take? name = some (f, rest)) :
    (fs.map Frame.tag).any (·.name = name) = true ∧
      rest.map Frame.tag = (fs.map Frame.tag).eraseP (·.name = name) := by
  obtain ⟨inner, outer, rfl, rfl, hname, hinner⟩ := take?_eq_some_iff.1 h
  have hskip : ∀ t ∈ inner.map Frame.tag, ¬ decide (t.name = name) = true := by
    intro t ht
    obtain ⟨g, hg, rfl⟩ := List.mem_map.1 ht
    exact fun hname => hinner g hg (of_decide_eq_true hname)
  have hf : decide (f.tag.name = name) = true := decide_eq_true hname
  rw [List.map_append, List.map_append, List.map_cons, List.any_append, List.any_cons, hf,
    Bool.true_or, Bool.or_true, List.eraseP_append_right _ hskip, List.eraseP_cons, hf]
  exact ⟨rfl, rfl⟩

namespace Pass

variable (conventions : Conventions) (source : Text)

/-- What a step leaves open is told by what is open before it and by its tag. -/
theorem openTags_step (p : Pass) (s : Segment) :
    (p.step conventions source s).map (·.pass.openTags) = nest source p.openTags s.tag := by
  obtain ⟨gap, tag⟩ := s
  cases hkind : tag.kind with
  | opening =>
    obtain ⟨log, hstep⟩ := step_opening conventions source p gap tag hkind
    have hopen : (frameFor conventions p gap tag :: markedFor conventions p tag).map Frame.tag =
        tag :: p.openTags := by
      rw [List.map_cons, map_tag_markedFor]
      rfl
    rw [hstep, nest, hkind]
    exact congrArg Except.ok hopen
  | selfClosing =>
    obtain ⟨log, hstep⟩ := step_selfClosing conventions source p gap tag hkind
    rw [hstep, nest, hkind]
    exact congrArg Except.ok map_tag_markedFor
  | closing =>
    cases htake : p.nesting.take? tag.name with
    | some taken =>
      obtain ⟨frame, rest⟩ := taken
      obtain ⟨log, hstep⟩ := step_closing conventions source p gap tag hkind htake
      obtain ⟨hany, hrest⟩ := Nesting.map_tag_of_take? htake
      rw [← openTags] at hany hrest
      have hopen : (closeBlock ⟨p.output.push gap, rest⟩ frame).openTags = rest.map Frame.tag :=
        openTags_closeBlock _ frame
      rw [hstep, nest, hkind]
      dsimp only
      rw [if_pos hany, ← hrest]
      exact congrArg Except.ok hopen
    | none =>
      have hany : ¬ p.openTags.any (·.name = tag.name) = true := by
        rw [List.any_eq_true]
        rintro ⟨t, ht, hname⟩
        obtain ⟨f, hf, rfl⟩ := List.mem_map.1 ht
        exact Nesting.take?_eq_none_iff.1 htake f hf (of_decide_eq_true hname)
      have hnil : p.nesting = [] ↔ p.openTags = [] := List.map_eq_nil_iff.symm
      rw [step_unmatched conventions source p gap tag hkind htake, nest, hkind]
      dsimp only
      rw [if_neg hany]
      simp only [hnil]
      rfl

/-- What a run leaves open is told by what is open before it and by its tags. -/
theorem openTags_run (p : Pass) (ss : List Segment) :
    (p.run conventions source ss).result.map openTags =
      (ss.map Segment.tag).foldlM (nest source) p.openTags := by
  induction ss generalizing p with
  | nil => rfl
  | cons s ss ih =>
    have hstep := openTags_step conventions source p s
    rw [List.map_cons, List.foldlM_cons, ← hstep, run]
    cases p.step conventions source s with
    | error e => rfl
    | ok next => exact ih next.pass

end Pass

section Conventions

variable (conventions : Conventions) (source : Text)

/-- The diagnostics of a template are told by its tags. -/
theorem map_warnings_transpile :
    (transpile conventions source).map Transpiled.warnings = diagnose source := by
  have hopen : _ = (tags source).foldlM (nest source) [] :=
    Pass.openTags_run conventions source .start (segments source).1
  cases hrun : (Pass.start.run conventions source (segments source).1).result with
  | error e =>
    rw [hrun] at hopen
    rw [transpile_of_error hrun, diagnose, ← hopen]
    rfl
  | ok p =>
    rw [hrun] at hopen
    rw [diagnose, ← hopen]
    cases hnesting : p.nesting with
    | nil =>
      rw [transpile_of_closed hrun hnesting]
      simp only [Except.map, Pass.openTags, hnesting]
      rfl
    | cons frame frames =>
      rw [transpile_of_open hrun hnesting]
      simp only [Except.map, Pass.openTags, hnesting]
      rfl

/-- The conventions never make a difference to diagnostics: under any two of them a template fails
with one and the same error, or it succeeds with the same warnings. -/
theorem diagnostics_of_conventions (conventions₁ conventions₂ : Conventions) (source : Text) :
    (∃ e, transpile conventions₁ source = .error e ∧ transpile conventions₂ source = .error e) ∨
      ∃ r₁ r₂, transpile conventions₁ source = .ok r₁ ∧ transpile conventions₂ source = .ok r₂ ∧
        r₁.warnings = r₂.warnings := by
  have heq := (map_warnings_transpile conventions₁ source).trans
    (map_warnings_transpile conventions₂ source).symm
  cases h₁ : transpile conventions₁ source with
  | error e₁ =>
    cases h₂ : transpile conventions₂ source with
    | error e₂ =>
      rw [h₁, h₂] at heq
      obtain rfl : e₁ = e₂ := Except.error.inj heq
      exact Or.inl ⟨e₁, rfl, rfl⟩
    | ok r₂ =>
      rw [h₁, h₂] at heq
      cases heq
  | ok r₁ =>
    cases h₂ : transpile conventions₂ source with
    | error e₂ =>
      rw [h₁, h₂] at heq
      cases heq
    | ok r₂ =>
      rw [h₁, h₂] at heq
      exact Or.inr ⟨r₁, r₂, rfl, rfl, Except.ok.inj heq⟩

end Conventions

/-! ## The tag of an error -/

section Errors

variable {source : Text} {opened opened' : List Tag} {e : StructuralError}

theorem nest_cases (source : Text) (opened : List Tag) (tag : Tag) :
    (∃ opened', nest source opened tag = .ok opened' ∧
        ∀ t ∈ opened', t ∈ opened ∨ t = tag ∧ tag.kind = .opening) ∨
      tag.kind = .closing ∧ ∃ fault, fault ≠ .unclosedOpen ∧
        nest source opened tag = .error (Pass.errorAt source fault tag) := by
  unfold nest
  cases hkind : tag.kind with
  | opening =>
    refine Or.inl ⟨_, rfl, ?_⟩
    intro t ht
    rcases List.mem_cons.1 ht with rfl | ht
    · exact Or.inr ⟨rfl, rfl⟩
    · exact Or.inl ht
  | selfClosing => exact Or.inl ⟨_, rfl, fun t ht => Or.inl ht⟩
  | closing =>
    dsimp only
    split
    · exact Or.inl ⟨_, rfl, fun t ht => Or.inl (List.mem_of_mem_eraseP ht)⟩
    · refine Or.inr ⟨rfl, _, ?_, rfl⟩
      split <;> decide

/-- While no error comes up, the tags that stay open are opening tags of the template. -/
theorem kind_of_mem_foldlM_nest {ts : List Tag} (h : ts.foldlM (nest source) opened = .ok opened') :
    ∀ t ∈ opened', t ∈ opened ∨ t ∈ ts ∧ t.kind = .opening := by
  induction ts generalizing opened with
  | nil =>
    obtain rfl : opened = opened' := Except.ok.inj h
    exact fun t ht => Or.inl ht
  | cons tag ts ih =>
    rw [List.foldlM_cons] at h
    rcases nest_cases source opened tag with
      ⟨next, hnext, hmem⟩ | ⟨-, fault, -, herror⟩
    · rw [hnext] at h
      intro t ht
      rcases ih h t ht with ht | ⟨ht, hkind⟩
      · rcases hmem t ht with ht | ⟨rfl, hkind⟩
        · exact Or.inl ht
        · exact Or.inr ⟨List.mem_cons_self, hkind⟩
      · exact Or.inr ⟨List.mem_cons_of_mem _ ht, hkind⟩
    · rw [herror] at h
      cases h

/-- An error among the tags is about a closing tag. -/
theorem exists_of_foldlM_nest_error {ts : List Tag}
    (h : ts.foldlM (nest source) opened = .error e) :
    ∃ tag ∈ ts, tag.kind = .closing ∧ ∃ fault, fault ≠ .unclosedOpen ∧
      e = Pass.errorAt source fault tag := by
  induction ts generalizing opened with
  | nil => cases h
  | cons tag ts ih =>
    rw [List.foldlM_cons] at h
    rcases nest_cases source opened tag with
      ⟨next, hnext, -⟩ | ⟨hkind, fault, hfault, herror⟩
    · rw [hnext] at h
      obtain ⟨t, ht, htag⟩ := ih h
      exact ⟨t, List.mem_cons_of_mem _ ht, htag⟩
    · rw [herror] at h
      exact ⟨tag, List.mem_cons_self, hkind, fault, hfault, (Except.error.inj h).symm⟩

/-- The kind of tag that an error is about. -/
def StructuralFault.tagKind : StructuralFault → TagKind
  | .unclosedOpen => .opening
  | .unmatchedClose | .noMatchingOpen => .closing

theorem exists_of_diagnose_error (h : diagnose source = .error e) :
    ∃ tag ∈ tags source, ∃ fault : StructuralFault, tag.kind = fault.tagKind ∧
      e = Pass.errorAt source fault tag := by
  unfold diagnose at h
  cases hfold : (tags source).foldlM (nest source) [] with
  | error e' =>
    rw [hfold] at h
    obtain rfl : e' = e := Except.error.inj h
    obtain ⟨tag, htag, hkind, fault, hfault, heq⟩ := exists_of_foldlM_nest_error hfold
    refine ⟨tag, htag, fault, ?_, heq⟩
    cases fault with
    | unclosedOpen => exact absurd rfl hfault
    | unmatchedClose | noMatchingOpen => exact hkind
  | ok opened =>
    rw [hfold] at h
    cases opened with
    | nil => cases h
    | cons tag opened =>
      rcases kind_of_mem_foldlM_nest hfold tag List.mem_cons_self with hnil | ⟨htag, hkind⟩
      · cases hnil
      · exact ⟨tag, htag, .unclosedOpen, hkind, (Except.error.inj h).symm⟩

theorem warnings_of_diagnose {ws : List Warning} (h : diagnose source = .ok ws) :
    ws = (tags source).flatMap (Tag.warnings source) := by
  unfold diagnose at h
  cases hfold : (tags source).foldlM (nest source) [] with
  | error e =>
    rw [hfold] at h
    cases h
  | ok opened =>
    rw [hfold] at h
    cases opened with
    | nil => exact (Except.ok.inj h).symm
    | cons tag opened => cases h

end Errors

/-! ## The tags of warnings -/

namespace Tag

/-- The values of the tag that cannot be read. -/
def faults (tag : Tag) : List AttributeFault := (Attributes.read tag.attributes).faults

theorem attributes_of_read? {exhausted exhausted' : Bool} {start : Nat} {t rest : Text} {tag : Tag}
    (h : read? exhausted start t = some (tag, rest, exhausted')) (hkind : tag.kind = .closing) :
    tag.attributes = [] := by
  unfold read? at h
  split at h
  · next hread =>
    obtain ⟨rfl, -⟩ := Prod.mk.inj (Option.some.inj h)
    exact attributes_of_readClosing? hread
  · simp only [readOpening?, Option.bind_eq_bind, Option.bind_eq_some_iff, Prod.exists] at h
    obtain ⟨name, afterName, -, h⟩ := h
    split at h
    · cases h
      cases hkind
    · cases h
      cases hkind
    · split at h
      · simp only [Option.map_eq_some_iff, Prod.mk.injEq, Prod.exists] at h
        obtain ⟨inner, _, _, -, rfl, -⟩ := h
        unfold ofInner at hkind
        split at hkind <;> cases hkind
      · cases h
    · cases h

end Tag

theorem attributes_of_mem_segmentsFrom {exhausted : Bool} {start : Nat} {t : Text} {s : Segment}
    (h : s ∈ (segmentsFrom exhausted start t).1) (hkind : s.tag.kind = .closing) :
    s.tag.attributes = [] := by
  fun_induction segmentsFrom exhausted start t with
  | case1 => cases h
  | case2 exhausted start t f hfind segments tail heq ih =>
    rw [heq] at ih
    rcases List.mem_cons.1 h with rfl | h
    · obtain ⟨gap, after, -, -, hread, -⟩ := read?_of_findTagAfter hfind
      exact Tag.attributes_of_read? hread hkind
    · exact ih h

/-- All values of a closing tag can be read, since it has none. -/
theorem faults_of_closing {source : Text} {tag : Tag} (h : tag ∈ tags source)
    (hkind : tag.kind = .closing) : tag.faults = [] := by
  obtain ⟨s, hs, rfl⟩ := List.mem_map.1 h
  have hnil : Attribute.pieces [] = [] := by rw [Attribute.pieces]
  rw [Tag.faults, attributes_of_mem_segmentsFrom hs hkind, Attributes.read, hnil]
  rfl

/-- A value that cannot be read takes the rest of the text, so there is at most one. -/
theorem length_faults_le (t : Text) : (Attributes.read t).faults.length ≤ 1 := by
  show ((Attribute.pieces t).filterMap Attribute.Piece.fault?).length ≤ 1
  fun_induction Attribute.pieces t with
  | case1 => exact Nat.zero_le 1
  | case2 c t ih =>
    cases hfault : (Attribute.readPiece c t).1.fault? with
    | none =>
      rw [List.filterMap_cons_none hfault]
      exact ih
    | some fault =>
      rw [List.filterMap_cons_some hfault, Attribute.pieces_behind_fault hfault]
      exact Nat.le_refl 1

theorem faults_cases (t : Text) :
    (Attributes.read t).faults = [] ∨ ∃ fault, (Attributes.read t).faults = [fault] := by
  have hle := length_faults_le t
  rcases hfaults : (Attributes.read t).faults with _ | ⟨fault, _ | ⟨fault', faults⟩⟩
  · exact Or.inl rfl
  · exact Or.inr ⟨fault, rfl⟩
  · rw [hfaults] at hle
    simp at hle

theorem mem_warnings_iff {source : Text} {tag : Tag} {w : Warning} :
    w ∈ tag.warnings source ↔ tag.kind ≠ .closing ∧ w.tag = tag.text ∧
      w.position = Text.position source tag.start ∧ w.fault ∈ tag.faults := by
  unfold Tag.warnings
  split
  · next hkind => simp [hkind]
  · next hkind =>
    rw [List.mem_map]
    constructor
    · rintro ⟨fault, hfault, rfl⟩
      exact ⟨hkind, rfl, rfl, hfault⟩
    · rintro ⟨-, htag, hposition, hfault⟩
      refine ⟨w.fault, hfault, ?_⟩
      rw [← htag, ← hposition]

/-- Each tag with a value that cannot be read gives one warning, and the other tags give none. -/
theorem map_flatMap_warnings (source : Text) {ts : List Tag}
    (h : ∀ tag ∈ ts, tag.kind = .closing → tag.faults = []) :
    (ts.flatMap (Tag.warnings source)).map (fun w => (w.tag, w.position, [w.fault])) =
      (ts.filter (·.faults ≠ [])).map
        (fun tag => (tag.text, Text.position source tag.start, tag.faults)) := by
  induction ts with
  | nil => rfl
  | cons tag ts ih =>
    have hrest := ih fun t ht => h t (List.mem_cons_of_mem _ ht)
    rw [List.flatMap_cons, List.map_append, hrest]
    have hcases : tag.faults = [] ∨ ∃ fault, tag.faults = [fault] := faults_cases tag.attributes
    rcases hcases with hnil | ⟨fault, hfault⟩
    · have hwarnings : tag.warnings source = [] := by
        rw [List.eq_nil_iff_forall_not_mem]
        intro w hw
        have hmem := (mem_warnings_iff.1 hw).2.2.2
        rw [hnil] at hmem
        cases hmem
      rw [hwarnings, List.filter_cons_of_neg (by simpa using hnil)]
      rfl
    · have hkind : tag.kind ≠ .closing := by
        intro hkind
        rw [h tag List.mem_cons_self hkind] at hfault
        cases hfault
      have hwarnings : tag.warnings source =
          [⟨tag.text, Text.position source tag.start, fault⟩] := by
        rw [Tag.warnings, if_neg hkind, ← Tag.faults, hfault]
        rfl
      rw [hwarnings, List.filter_cons_of_pos (by simp [hfault]), List.map_cons, List.map_cons,
        hfault]
      rfl

/-- Diagnostics point at tags. An error gives the text and the place of a closing tag, or of an
opening tag if it is about one that is never closed. Each warning gives those of a tag that is no
closing one; there is one for every tag with a value that cannot be read, and they stand in the
order of their places. -/
theorem diagnostics_point_at_tags (conventions : Conventions) (source : Text) :
    (∀ e, transpile conventions source = .error e →
      Text.slice? source e.offset (e.offset + Text.byteSize e.tag) = some e.tag ∧
      e.position = Text.position source e.offset ∧
      ∃ tag ∈ tags source, tag.kind = e.fault.tagKind ∧ tag.text = e.tag ∧ tag.start = e.offset ∧
        tag.stop = e.offset + Text.byteSize e.tag) ∧
    (∀ r, transpile conventions source = .ok r →
      (∀ w ∈ r.warnings, ∃ tag ∈ tags source, tag.kind ≠ .closing ∧ tag.text = w.tag ∧
        Text.slice? source tag.start tag.stop = some w.tag ∧
        w.position = Text.position source tag.start) ∧
      r.warnings.Pairwise (fun w w' => w.position.Before w'.position) ∧
      r.warnings.map (fun w => (w.tag, w.position, [w.fault])) =
        ((tags source).filter (·.faults ≠ [])).map
          (fun tag => (tag.text, Text.position source tag.start, tag.faults))) := by
  have hdiagnose := map_warnings_transpile conventions source
  constructor
  · intro e herror
    rw [herror] at hdiagnose
    obtain ⟨tag, htag, fault, hkind, rfl⟩ := exists_of_diagnose_error hdiagnose.symm
    exact ⟨slice?_of_mem_tags htag, rfl, tag, htag, hkind, rfl, rfl, rfl⟩
  · intro r hok
    rw [hok] at hdiagnose
    have hwarnings := warnings_of_diagnose hdiagnose.symm
    have hclosing : ∀ tag ∈ tags source, tag.kind = .closing → tag.faults = [] :=
      fun tag htag => faults_of_closing htag
    have hlist := map_flatMap_warnings source hclosing
    rw [← hwarnings] at hlist
    refine ⟨?_, ?_, hlist⟩
    · intro w hw
      rw [hwarnings] at hw
      obtain ⟨tag, htag, hw⟩ := List.mem_flatMap.1 hw
      obtain ⟨hkind, htext, hposition, -⟩ := mem_warnings_iff.1 hw
      exact ⟨tag, htag, hkind, htext.symm, by rw [htext]; exact slice?_of_mem_tags htag, hposition⟩
    · -- The warnings have the positions of some of the tags, which stand in their order.
      have hpositions := congrArg (List.map fun x => x.2.1) hlist
      rw [List.map_map, List.map_map] at hpositions
      have hordered : (r.warnings.map fun w => w.position).Pairwise Position.Before := by
        refine (congrArg (List.Pairwise Position.Before) hpositions).mpr ?_
        rw [List.pairwise_map]
        refine ((pairwise_start_tags source).sublist List.filter_sublist).imp_of_mem ?_
        intro tag tag' _ htag' hlt
        have hinside := start_lt_byteSize (List.mem_of_mem_filter htag')
        exact Text.position_before (Or.inl hinside) hlt
      exact List.pairwise_map.1 hordered

/-- Tags that close out of order, and values that are never closed, behind characters of several
bytes. -/
theorem diagnostics_point_at_tags_crossing :
    let broken := "é\n<A>é<B></A><C/>".toList
    let degraded := "ü<A x=\x7b /><B y=1>\n</B><C z-z=' />".toList
    (transpile .standard broken = .error ⟨.unclosedOpen, "<B>".toList, 8, ⟨2, 6⟩⟩ ∧
      ∃ tag ∈ tags broken, tag.kind = .opening ∧ tag.text = "<B>".toList ∧ tag.start = 8 ∧
        tag.stop = 11) ∧
    ∃ r, transpile .standard degraded = .ok r ∧
      r.warnings.Pairwise (fun w w' => w.position.Before w'.position) ∧
      r.warnings.map (fun w => (w.tag, w.position, [w.fault])) =
        [("<A x=\x7b />".toList, ⟨1, 3⟩, [.unbalanced "x".toList]),
          ("<C z-z=' />".toList, ⟨2, 5⟩, [.unterminated "z_z".toList])] := by
  intro broken degraded
  have hbroken : transpile .standard broken =
      .error ⟨.unclosedOpen, "<B>".toList, 8, ⟨2, 6⟩⟩ := by decide +kernel
  have hbalanced : (transpile .standard degraded).isOk = true := by decide +kernel
  have hfaulty : ((tags degraded).filter (·.faults ≠ [])).map
      (fun tag => (tag.text, Text.position degraded tag.start, tag.faults)) =
        [("<A x=\x7b />".toList, ⟨1, 3⟩, [.unbalanced "x".toList]),
          ("<C z-z=' />".toList, ⟨2, 5⟩, [.unterminated "z_z".toList])] := by decide +kernel
  obtain ⟨-, -, herror⟩ := (diagnostics_point_at_tags .standard broken).1 _ hbroken
  refine ⟨⟨hbroken, herror⟩, ?_⟩
  cases hdegraded : transpile .standard degraded with
  | error e =>
    rw [hdegraded] at hbalanced
    cases hbalanced
  | ok r =>
    obtain ⟨-, hordered, hwarnings⟩ := (diagnostics_point_at_tags .standard degraded).2 r hdegraded
    exact ⟨r, rfl, hordered, hwarnings.trans hfaulty⟩

end ErbTags
