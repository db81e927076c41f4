import ErbTags.Proofs.Links

/-!
# Text with some of its block parameters

While the blocks of a template end one after the other, the generated text has the parameters of
some blocks and not yet those of others. This file describes such texts (`textOf`) and the places
where parameters are missing (`pointOf`). Adding one parameter is an insertion at its place, and it
moves exactly the places behind it (`AddsParameter`).

Linked tags come with the text before each of them here, the latest first.
-/

namespace ErbTags

/-- What an opening tag gives up to the place of its parameter. -/
def Linked.opener (conventions : Conventions) (l : Linked) : Text :=
  l.call conventions ++ Fragment.blockKeyword

/-- The generated text in which the blocks in `declared` have their parameters. -/
def textOf (conventions : Conventions) (declared : Linked → Bool) (done : List (Text × Linked)) :
    Text :=
  done.reverse.flatMap fun x => x.1 ++ x.2.fragment conventions (declared x.2)

/-- The byte offset of the place for the parameter of a block. -/
def pointOf (conventions : Conventions) (declared : Linked → Bool) :
    List (Text × Linked) → Linked → Nat
  | [], _ => 0
  | x :: done, l =>
    if x.2 = l then
      Text.byteSize (textOf conventions declared done ++ (x.1 ++ x.2.opener conventions))
    else pointOf conventions declared done l

section Parameters

variable {conventions : Conventions} {declared declared' : Linked → Bool}
  {done later earlier : List (Text × Linked)} {x : Text × Linked} {l m : Linked} {gap : Text}

theorem fragment_opening (h : l.tag.kind = .opening) (b : Bool) :
    l.fragment conventions b = l.opener conventions ++
      ((if b then Fragment.blockParameter l.tag.blockVariable else []) ++ Fragment.close) := by
  rw [fragment_block conventions h, Linked.opener, List.append_assoc]

theorem textOf_cons :
    textOf conventions declared (x :: done) =
      textOf conventions declared done ++ (x.1 ++ x.2.fragment conventions (declared x.2)) := by
  simp [textOf]

theorem textOf_append :
    textOf conventions declared (later ++ earlier) =
      textOf conventions declared earlier ++ textOf conventions declared later := by
  simp [textOf]

theorem textOf_congr (h : ∀ x ∈ done, declared x.2 = declared' x.2) :
    textOf conventions declared done = textOf conventions declared' done := by
  rw [textOf, textOf, List.flatMap_congr]
  intro x hx
  rw [h x (List.mem_reverse.1 hx)]

theorem pointOf_congr (h : ∀ x ∈ done, declared x.2 = declared' x.2) :
    pointOf conventions declared done l = pointOf conventions declared' done l := by
  induction done with
  | nil => rfl
  | cons x done ih =>
    have hdone : ∀ y ∈ done, declared y.2 = declared' y.2 :=
      fun y hy => h y (List.mem_cons_of_mem _ hy)
    rw [pointOf, pointOf, ih hdone, textOf_congr hdone]

theorem pointOf_of_notMem (h : l ∉ later.map Prod.snd) :
    pointOf conventions declared (later ++ earlier) l = pointOf conventions declared earlier l := by
  induction later with
  | nil => rfl
  | cons x later ih =>
    rw [List.map_cons, List.mem_cons, not_or] at h
    rw [List.cons_append, pointOf, if_neg (Ne.symm h.1), ih h.2]

/-- A place among later tags moves with the text before them. -/
theorem pointOf_of_mem (h : l ∈ later.map Prod.snd) :
    pointOf conventions declared (later ++ earlier) l =
      Text.byteSize (textOf conventions declared earlier) +
        pointOf conventions declared later l := by
  induction later with
  | nil => simp at h
  | cons x later ih =>
    rw [List.cons_append, pointOf, pointOf]
    by_cases hx : x.2 = l
    · rw [if_pos hx, if_pos hx, textOf_append, List.append_assoc, Text.byteSize_append]
    · rw [List.map_cons, List.mem_cons] at h
      rw [if_neg hx, if_neg hx]
      exact ih (h.resolve_left (Ne.symm hx))

/-- The place for a parameter lies before the end of the text. -/
theorem pointOf_lt (h : l ∈ done.map Prod.snd) (hkind : l.tag.kind = .opening) :
    pointOf conventions declared done l < Text.byteSize (textOf conventions declared done) := by
  have hclose : 0 < Text.byteSize Fragment.close := by decide
  induction done with
  | nil => simp at h
  | cons x done ih =>
    rw [pointOf, textOf_cons]
    by_cases hx : x.2 = l
    · subst hx
      rw [if_pos rfl, fragment_opening hkind]
      simp only [Text.byteSize_append]
      omega
    · rw [List.map_cons, List.mem_cons] at h
      have := ih (h.resolve_left (Ne.symm hx))
      rw [if_neg hx, Text.byteSize_append]
      omega

/-- `declared'` has one parameter more than `declared` in a list of tags that occur once: that of
`m`. -/
structure AddsParameter (declared declared' : Linked → Bool) (done : List (Text × Linked))
    (m : Linked) : Prop where
  opening : m.tag.kind = .opening
  mem : m ∈ done.map Prod.snd
  nodup : (done.map Prod.snd).Nodup
  without : declared m = false
  added : declared' m = true
  same : ∀ l ∈ done.map Prod.snd, l ≠ m → declared l = declared' l

namespace AddsParameter

/-- The tags before `m` and those after it are other tags, with the same parameters as before. -/
theorem split (h : AddsParameter declared declared' done m) :
    ∃ later gap earlier, done = later ++ (gap, m) :: earlier ∧ m ∉ later.map Prod.snd ∧
      (∀ x ∈ later, declared x.2 = declared' x.2) ∧
        ∀ x ∈ earlier, declared x.2 = declared' x.2 := by
  obtain ⟨⟨gap, m⟩, hx, rfl⟩ := List.mem_map.1 h.mem
  obtain ⟨later, earlier, rfl⟩ := List.append_of_mem hx
  have hnodup := h.nodup
  rw [List.map_append, List.map_cons, List.nodup_append, List.nodup_cons] at hnodup
  obtain ⟨-, ⟨hearlier, -⟩, hlater⟩ := hnodup
  refine ⟨later, gap, earlier, rfl, ?_, ?_, ?_⟩
  · intro hm
    exact hlater m hm m List.mem_cons_self rfl
  · intro x hx
    refine h.same x.2 ?_ (hlater x.2 (List.mem_map_of_mem hx) m List.mem_cons_self)
    exact List.mem_map_of_mem (List.mem_append_left _ hx)
  · intro x hx
    refine h.same x.2 ?_ ?_
    · exact List.mem_map_of_mem (List.mem_append_right _ (List.mem_cons_of_mem _ hx))
    · intro heq
      exact hearlier (List.mem_map.2 ⟨x, hx, heq⟩)

/-- Inserting the parameter at its place gives the text with that parameter. -/
theorem textOf_insert (h : AddsParameter declared declared' done m) (conventions : Conventions) :
    ∃ before behind, textOf conventions declared done = before ++ behind ∧
      Text.byteSize before = pointOf conventions declared done m ∧
      textOf conventions declared' done =
        before ++ (Fragment.blockParameter m.tag.blockVariable ++ behind) := by
  obtain ⟨later, gap, earlier, rfl, hnotMem, hlater, hearlier⟩ := h.split
  refine ⟨textOf conventions declared earlier ++ (gap ++ m.opener conventions),
    Fragment.close ++ textOf conventions declared later, ?_, ?_, ?_⟩
  · rw [textOf_append, textOf_cons, fragment_opening h.opening, h.without]
    simp
  · rw [pointOf_of_notMem hnotMem, pointOf, if_pos rfl]
  · rw [textOf_append, textOf_cons, fragment_opening h.opening, h.added, ← textOf_congr hlater,
      ← textOf_congr hearlier]
    simp

/-- The places behind the inserted parameter move by its size, the others stay. -/
theorem pointOf_eq (h : AddsParameter declared declared' done m) (conventions : Conventions)
    (hl : l ∈ done.map Prod.snd) (hopening : l.tag.kind = .opening) (hne : l ≠ m) :
    pointOf conventions declared' done l =
      if pointOf conventions declared done m < pointOf conventions declared done l then
        pointOf conventions declared done l +
          Text.byteSize (Fragment.blockParameter m.tag.blockVariable)
      else pointOf conventions declared done l := by
  obtain ⟨later, gap, earlier, rfl, hnotMem, hlater, hearlier⟩ := h.split
  have hpoint : pointOf conventions declared (later ++ (gap, m) :: earlier) m =
      Text.byteSize (textOf conventions declared earlier ++ (gap ++ m.opener conventions)) := by
    rw [pointOf_of_notMem hnotMem, pointOf, if_pos rfl]
  by_cases hmem : l ∈ later.map Prod.snd
  · -- The tag stands after `m`: all the text up to `m` is before its place.
    have hclose : 0 < Text.byteSize Fragment.close := by decide
    have hbase : ∀ b, Text.byteSize (m.fragment conventions b) =
        Text.byteSize (m.opener conventions) +
          ((if b then Text.byteSize (Fragment.blockParameter m.tag.blockVariable) else 0) +
            Text.byteSize Fragment.close) := by
      intro b
      cases b <;> simp [fragment_opening h.opening]
    rw [hpoint, pointOf_of_mem hmem, pointOf_of_mem hmem, ← pointOf_congr hlater, textOf_cons,
      textOf_cons, ← textOf_congr hearlier, h.without, h.added]
    simp only [Text.byteSize_append, hbase, if_true, Bool.false_eq_true, if_false]
    rw [if_pos (by omega)]
    omega
  · -- The tag stands before `m`: its place lies in the text before `m`.
    have hmem' : l ∈ earlier.map Prod.snd := by
      rw [List.map_append, List.mem_append, List.map_cons, List.mem_cons] at hl
      exact (hl.resolve_left hmem).resolve_left hne
    have hlt : pointOf conventions declared earlier l <
        Text.byteSize (textOf conventions declared earlier) := pointOf_lt hmem' hopening
    have hstay : ∀ d, pointOf conventions d (later ++ (gap, m) :: earlier) l =
        pointOf conventions d earlier l := by
      intro d
      rw [pointOf_of_notMem hmem, pointOf, if_neg (Ne.symm hne)]
    rw [hpoint, hstay, hstay, ← pointOf_congr hearlier, Text.byteSize_append, if_neg (by omega)]

end AddsParameter

end Parameters

end ErbTags
