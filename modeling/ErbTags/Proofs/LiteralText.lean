import ErbTags.Proofs.Scopes
import ErbTags.Proofs.SnakeCase

/-!
# Text outside the tags

The text between the tags of a template holds no tag: wherever a `<` stands in it, what follows has
not the shape of a tag (`Untagged`, `SplitAtTags`). That depends on the text that follows only as
far as the next `<`, save that a tag needs a `>` somewhere (`Untagged.congr`). In the output every
tag is replaced by a fragment that begins with `<%`, so the text between the tags is still free of
tags there.

Two results come out of that. Code between `<%` and `%>` is copied as it is exactly if no tag starts
in it (`copiesCode_iff`); a tag can start there, for nothing keeps the scanner out of such code
(`code_not_copied`). And the output of a template whose attributes hold no `<` has no tags at all,
so that it is its own output (`output_is_fixed`).
-/

namespace ErbTags

/-! ## Text that no tag starts in -/

/-- No tag starts in the text if `rest` follows it. -/
def Untagged (t rest : Text) : Prop :=
  ∀ before later, t = before ++ '<' :: later → ∀ name, ¬ BeginsTag name (later ++ rest)

section Untagged

variable {s t u rest name x y later : Text} {c : Char}

theorem Name.IsName.notMem_lt (h : Name.IsName name) : '<' ∉ name := by
  intro hmem
  rcases h.isWordChar_or_colon '<' hmem with hword | hcolon
  · exact absurd hword (by decide)
  · exact absurd hcolon (by decide)

/-- A tag begins with a slash or a capital. -/
theorem BeginsTag.head (h : BeginsTag name (c :: t)) : c = '/' ∨ c.isUpper = true := by
  have hcapital : ∀ {u : Text}, Name.IsName name → c :: t = name ++ u → c.isUpper = true := by
    rintro u ⟨n, rfl⟩ htext
    obtain ⟨d, w, hfirst, hd, -⟩ := Name.exists_of_isSegment n.isSegment_first
    rw [PrintedName.text, hfirst] at htext
    rw [(List.cons.inj htext).1]
    exact hd
  generalize htext : c :: t = text at h
  cases h with
  | closing => exact Or.inl (List.cons.inj htext).1
  | bare longest => exact Or.inr (hcapital longest.isName htext)
  | slashed longest => exact Or.inr (hcapital longest.isName htext)
  | spaced longest => exact Or.inr (hcapital longest.isName htext)

theorem not_beginsTag_percent : ¬ BeginsTag name ('%' :: t) := by
  intro h
  rcases h.head with hslash | hupper
  · exact absurd hslash (by decide)
  · exact absurd hupper (by decide)

/-- A part without a `<` in front of a `<` lies before it. -/
theorem exists_append_of_notMem_lt (hs : '<' ∉ s) (h : later ++ '<' :: x = s ++ t) :
    ∃ w, later = s ++ w ∧ t = w ++ '<' :: x := by
  rcases List.append_eq_append_iff.1 h with ⟨w, rfl, hx⟩ | ⟨w, rfl, ht⟩
  · cases w with
    | nil => exact ⟨[], by simp, hx.symm⟩
    | cons d w =>
      obtain ⟨rfl, -⟩ := List.cons.inj hx
      exact absurd (by simp) hs
  · exact ⟨w, rfl, ht⟩

/-- Up to the next `<`, what begins a tag goes on to do so whatever follows, as long as there is
a `>` in it. -/
theorem BeginsTag.replace (h : BeginsTag name (later ++ '<' :: x)) (hy : '>' ∈ y) :
    BeginsTag name (later ++ '<' :: y) := by
  generalize htext : later ++ '<' :: x = text at h
  cases h with
  | @closing blanks rest longest hblanks =>
    have hlt : '<' ∉ '/' :: (name ++ (blanks ++ ['>'])) := by
      have hname := longest.isName.notMem_lt
      have hblank : '<' ∉ blanks := fun hmem => absurd (hblanks '<' hmem) (by decide)
      simp [hname, hblank]
    obtain ⟨w, rfl, -⟩ := exists_append_of_notMem_lt hlt
      (htext.trans (by simp) : later ++ '<' :: x = _ ++ rest)
    have hname := longest.isName.longest (endsName_blanks hblanks (w ++ '<' :: y))
    simpa using BeginsTag.closing hname hblanks
  | @bare rest longest =>
    have hlt : '<' ∉ name ++ ['>'] := by simp [longest.isName.notMem_lt]
    obtain ⟨w, rfl, -⟩ := exists_append_of_notMem_lt hlt
      (htext.trans (by simp) : later ++ '<' :: x = _ ++ rest)
    have hname := longest.isName.longest (TellsKind.bare.endsName (w ++ '<' :: y))
    simpa using BeginsTag.bare hname
  | @slashed rest longest =>
    have hlt : '<' ∉ name ++ ['/', '>'] := by simp [longest.isName.notMem_lt]
    obtain ⟨w, rfl, -⟩ := exists_append_of_notMem_lt hlt
      (htext.trans (by simp) : later ++ '<' :: x = _ ++ rest)
    have hname := longest.isName.longest (TellsKind.slashed.endsName (w ++ '<' :: y))
    simpa using BeginsTag.slashed hname
  | @spaced c rest longest hc hmem =>
    have hlt : '<' ∉ name ++ [c] := by
      have hne : '<' ≠ c := by
        rintro rfl
        exact absurd hc (by decide)
      simp [longest.isName.notMem_lt, hne]
    obtain ⟨w, rfl, -⟩ := exists_append_of_notMem_lt hlt
      (htext.trans (by simp) : later ++ '<' :: x = _ ++ rest)
    have hname : Name.Longest name (c :: (w ++ '<' :: y)) :=
      longest.isName.longest (by simpa using endsName_of_isBlank hc)
    simpa using BeginsTag.spaced hname hc (by simp [hy])

/-- What follows a text free of tags can be replaced from its `<` on. -/
theorem Untagged.congr (h : Untagged t ('<' :: x)) (hx : '>' ∈ x) : Untagged t ('<' :: y) := by
  intro before later htext name hbegins
  exact h before later htext name (hbegins.replace hx)

theorem untagged_of_notMem (h : '<' ∉ t) : Untagged t rest := by
  rintro before later rfl
  exact absurd (by simp) h

theorem Untagged.append (hs : Untagged s (t ++ rest)) (ht : Untagged t rest) :
    Untagged (s ++ t) rest := by
  intro before later htext name hbegins
  rcases List.append_eq_append_iff.1 htext with ⟨more, rfl, hmore⟩ | ⟨more, rfl, hmore⟩
  · exact ht more later hmore name hbegins
  · cases more with
    | nil => exact ht [] later hmore.symm name hbegins
    | cons d more =>
      obtain ⟨rfl, rfl⟩ := List.cons.inj hmore
      exact hs before more rfl name (by simpa using hbegins)

theorem Untagged.of_append (h : Untagged (s ++ t) rest) : Untagged s (t ++ rest) := by
  rintro before later rfl name hbegins
  exact h before (later ++ t) (by simp) name (by simpa using hbegins)

/-- A fragment of generated code holds one `<`, and that begins no tag. -/
theorem untagged_percent (h : '<' ∉ t) : Untagged ('<' :: '%' :: t) rest := by
  intro before later htext name hbegins
  cases before with
  | nil =>
    obtain ⟨-, rfl⟩ := List.cons.inj htext
    exact not_beginsTag_percent hbegins
  | cons d before =>
    have htail : '%' :: t = before ++ '<' :: later := (List.cons.inj htext).2
    have hlt : '<' ∉ '%' :: t := by simp [h]
    exact hlt (by rw [htail]; simp)

/-- Text without a `>` at the end makes no difference. -/
theorem Untagged.append_rest (h : Untagged t rest) (hu : '>' ∉ u) : Untagged t (rest ++ u) := by
  intro before later htext name hbegins
  rw [← List.append_assoc, beginsTag_append_iff hu] at hbegins
  exact h before later htext name hbegins

/-- A text that no tag starts in has no segments. -/
theorem Untagged.segments_eq (h : Untagged t []) : segments t = ([], t) := by
  have hfind : findTag? false 0 (Scanner.searchable t).1 = none := by
    rw [findTag?, findTagAfter_eq_none_iff]
    intro before after htext name hbegins
    have hwhole : t = before ++ '<' :: (after ++ (Scanner.searchable t).2) := by
      conv => lhs; rw [← Text.splitLast_append '>' t]
      rw [Scanner.searchable] at htext ⊢
      rw [htext]
      simp
    refine h before _ hwhole name ?_
    rw [List.append_nil]
    exact (beginsTag_append_iff (notMem_splitLast '>' t)).2 hbegins
  have hfrom : segmentsFrom false 0 (Scanner.searchable t).1 = ([], (Scanner.searchable t).1) := by
    rw [segmentsFrom]
    split
    · rfl
    · next f heq =>
      rw [hfind] at heq
      cases heq
  simp only [segments, hfrom]
  rw [Scanner.searchable, Text.splitLast_append]

theorem Untagged.next_eq_none (h : Untagged t []) :
    ((Scanner.ofText t).next 0).1 = none := by
  rw [Scanner.ofText, next_eq_none_iff]
  rintro start - hstarts
  obtain ⟨before, name, after, rfl, -, hbegins⟩ := tagStartsAt_searchable.1 hstarts
  exact h before after rfl name (by rwa [List.append_nil])

end Untagged

/-! ## The gaps of a template -/

/-- Each tag is the first one behind the tag before it, and no tag starts behind the last one. -/
def SplitAtTags : List Segment → Text → Prop
  | [], tail => Untagged tail []
  | s :: ss, tail =>
    Untagged s.gap (s.tag.text ++ (ss.flatMap Segment.text ++ tail)) ∧
      (∃ after, s.tag.text ++ (ss.flatMap Segment.text ++ tail) = '<' :: after ∧
        BeginsTag s.tag.name after) ∧
      SplitAtTags ss tail

section Gaps

variable {exhausted : Bool} {start : Nat} {t tail u : Text} {f : Found}

/-- No tag starts in the text before the first one. -/
theorem untagged_gap_of_findTag? (h : findTag? exhausted start t = some f) :
    Untagged f.gap (f.tag.text ++ f.rest) := by
  intro before later hgap name hbegins
  obtain ⟨gap, after, hfound, -, -, hquiet⟩ := read?_of_findTagAfter h
  rw [List.reverse_nil, List.nil_append] at hfound
  have hwhole : t = before ++ '<' :: (later ++ (f.tag.text ++ f.rest)) := by
    rw [text_of_findTag? h, hgap]
    simp
  have hlt : before.length < gap.length := by
    rw [← hfound, hgap]
    simp
  exact hquiet before _ hwhole hlt name hbegins

theorem beginsTag_of_findTag? (h : findTag? exhausted start t = some f) :
    ∃ after, f.tag.text ++ f.rest = '<' :: after ∧ BeginsTag f.tag.name after := by
  obtain ⟨gap, after, -, -, hread, -⟩ := read?_of_findTagAfter h
  exact ⟨after, (Tag.text_of_read? hread).symm, Tag.beginsTag_of_read? hread⟩

theorem splitAtTags_segmentsFrom (exhausted : Bool) (start : Nat) (t : Text) :
    SplitAtTags (segmentsFrom exhausted start t).1 (segmentsFrom exhausted start t).2 := by
  fun_induction segmentsFrom exhausted start t with
  | case1 exhausted start t h =>
    intro before later hsplit name hbegins
    rw [List.append_nil] at hbegins
    exact findTagAfter_eq_none_iff.1 h before later hsplit name hbegins
  | case2 exhausted start t f h segments tail heq ih =>
    have hrest := text_segmentsFrom f.exhausted f.tag.stop f.rest
    rw [heq] at ih hrest
    refine ⟨?_, ?_, ih⟩
    · show Untagged f.gap (f.tag.text ++ (segments.flatMap Segment.text ++ tail))
      rw [hrest]
      exact untagged_gap_of_findTag? h
    · show ∃ after, f.tag.text ++ (segments.flatMap Segment.text ++ tail) = '<' :: after ∧ _
      rw [hrest]
      exact beginsTag_of_findTag? h

/-- Text without a `>` behind the last tag makes no difference. -/
theorem SplitAtTags.append_tail {ss : List Segment} (h : SplitAtTags ss tail) (hu : '>' ∉ u) :
    SplitAtTags ss (tail ++ u) := by
  induction ss with
  | nil =>
    have htail : Untagged tail ([] ++ u) := Untagged.append_rest h hu
    refine Untagged.append (by simpa using htail) ?_
    rintro before later rfl name hbegins
    exact hu (by simpa using Or.inr (by simpa using hbegins.mem))
  | cons s ss ih =>
    obtain ⟨hgap, ⟨after, hafter, hbegins⟩, hrest⟩ := h
    refine ⟨by simpa using hgap.append_rest hu, ⟨after ++ u, ?_, ?_⟩, ih hrest⟩
    · rw [← List.cons_append, ← hafter]
      simp
    · exact (beginsTag_append_iff hu).2 hbegins

/-- The segments of a template split it at its tags. -/
theorem splitAtTags_segments (t : Text) : SplitAtTags (segments t).1 (segments t).2 :=
  (splitAtTags_segmentsFrom false 0 (Scanner.searchable t).1).append_tail (notMem_splitLast '>' t)

end Gaps

/-! ## Fragments between the gaps -/

section Fragments

variable {conventions : Conventions} {source : Text} {done : List Linked} {l : Linked}

theorem slotName_of_linkOf {tag parent : Tag} {slot : Text}
    (h : linkOf conventions done tag = .ok (.slot parent slot)) :
    Name.slotName tag.name conventions.slotPrefix = some slot := by
  rcases linkOf_inversion h with ⟨-, inner, m, outer, -, hlink⟩ | ⟨hkind, -, -⟩
  · cases hlink
  · cases hslot : Name.slotName tag.name conventions.slotPrefix with
    | none =>
      rw [linkOf_component hkind (Or.inl hslot)] at h
      cases Except.ok.inj h
    | some found =>
      cases hparent : parentOf? (stillOpen done) with
      | none =>
        rw [linkOf_component hkind (Or.inr hparent)] at h
        cases Except.ok.inj h
      | some m =>
        rw [linkOf_slot hkind hslot hparent] at h
        rw [(Link.slot.inj (Except.ok.inj h)).2]

/-- A tag that ends no block has a call that begins with `<%`. -/
theorem call_eq (h : linkOf conventions done l.tag = .ok l.link) (hkind : l.tag.kind ≠ .closing) :
    ∃ w, l.call conventions = '<' :: '%' :: w := by
  cases hlink : l.link with
  | component => exact ⟨_, by rw [Linked.call, hlink]; rfl⟩
  | slot parent slot => exact ⟨_, by rw [Linked.call, hlink]; rfl⟩
  | close opener =>
    rcases linkOf_inversion h with ⟨hclosing, -⟩ | ⟨-, hopener, -⟩
    · exact absurd hclosing hkind
    · rw [hlink] at hopener
      cases hopener

/-- Every fragment begins with `<%`. -/
theorem fragment_eq (h : linkOf conventions done l.tag = .ok l.link) (declared : Bool) :
    ∃ w, l.fragment conventions declared = '<' :: '%' :: w := by
  cases hkind : l.tag.kind with
  | closing => exact ⟨_, by simp only [Linked.fragment, hkind]; rfl⟩
  | selfClosing =>
    obtain ⟨w, hw⟩ := call_eq h (by rw [hkind]; decide)
    exact ⟨_, by simp only [Linked.fragment, hkind, hw]; rfl⟩
  | opening =>
    obtain ⟨w, hw⟩ := call_eq h (by rw [hkind]; decide)
    exact ⟨_, by simp only [Linked.fragment, hkind, hw]; rfl⟩

/-- The output of a template that succeeds has a fragment for each tag, in their order. -/
theorem exists_fragments {r : Transpiled} (h : transpile conventions source = .ok r) :
    ∃ fragments : List Text, fragments.length = (segments source).1.length ∧
      r.output = interleave ((segments source).1.map Segment.gap ++ [(segments source).2])
        fragments ∧
      ∀ fragment ∈ fragments, ∃ l done declared, fragment = l.fragment conventions declared ∧
        LinkedBy conventions (l :: done) ∧ ∀ m ∈ l :: done, m.tag ∈ tags source := by
  obtain ⟨done, hlinks, houtput⟩ := exists_linkAll_of_transpile h
  have hnil : LinkedBy conventions [] := trivial
  obtain ⟨hlinked, htags⟩ := linkedBy_of_linkAll hnil hlinks
  rw [List.map_nil, List.append_nil] at htags
  refine ⟨_, ?_, houtput, ?_⟩
  · have hlength := congrArg List.length htags
    simpa [tags] using hlength
  · intro fragment hmem
    obtain ⟨l, hl, rfl⟩ := List.mem_map.1 hmem
    obtain ⟨later, earlier, hdone⟩ := List.append_of_mem (List.mem_reverse.1 hl)
    rw [hdone] at hlinked
    refine ⟨l, earlier, _, rfl, hlinked.of_append, ?_⟩
    intro m hm
    have hmem : m.tag ∈ done.map Linked.tag := by
      refine List.mem_map_of_mem ?_
      rw [hdone]
      exact List.mem_append_right _ hm
    rw [htags] at hmem
    exact List.mem_reverse.1 hmem

end Fragments

/-! ## Embedded code -/

section Code

variable {conventions : Conventions} {front pre code post : Text} {r : Transpiled}

/-- The front part of a template is copied just if no tag starts in it; where its last character is
a `<`, one could start there without being seen. -/
theorem copiesFront_iff (h : transpile conventions (front ++ post) = .ok r)
    (hlast : front.getLast? ≠ some '<') : front <+: r.output ↔ Untagged front post := by
  obtain ⟨fragments, hlength, houtput, hfragments⟩ := exists_fragments h
  have hsplit := splitAtTags_segments (front ++ post)
  have htext := text_segments (front ++ post)
  generalize (segments (front ++ post)).2 = tail at houtput hsplit htext
  cases hsegments : (segments (front ++ post)).1 with
  | nil =>
    rw [hsegments] at hlength houtput hsplit htext
    obtain rfl := List.length_eq_zero_iff.1 hlength
    have hcopied : r.output = front ++ post := by
      rw [houtput, ← htext]
      simp [interleave]
    obtain rfl : tail = front ++ post := by simpa using htext
    rw [hcopied]
    exact iff_of_true (List.prefix_append _ _) (by simpa using hsplit.of_append)
  | cons s ss =>
    rw [hsegments] at hlength houtput hsplit htext
    obtain ⟨hgap, ⟨after, hafter, hbegins⟩, -⟩ := hsplit
    obtain ⟨fragment, fragments, rfl⟩ := List.exists_cons_of_length_eq_add_one hlength
    obtain ⟨l, done, declared, rfl, hlinked, -⟩ := hfragments fragment List.mem_cons_self
    obtain ⟨w, hw⟩ := fragment_eq hlinked.1 declared
    have hsource : s.gap ++ '<' :: after = front ++ post := by
      rw [← hafter, ← htext]
      simp [Segment.text]
    have hout : ∃ more, r.output = s.gap ++ '<' :: '%' :: more :=
      ⟨_, by rw [houtput, List.map_cons, List.cons_append, interleave, hw]; rfl⟩
    obtain ⟨more, hout⟩ := hout
    rw [hafter] at hgap
    rcases List.append_eq_append_iff.1 hsource with ⟨u, rfl, hu⟩ | ⟨u, hu, rfl⟩
    · cases u with
      | nil =>
        -- The tag starts right behind the front part.
        rw [List.append_nil, hout, ← show '<' :: after = post from hu]
        exact iff_of_true (List.prefix_append _ _) hgap
      | cons c u =>
        obtain ⟨rfl, rfl⟩ := List.cons.inj hu
        refine iff_of_false ?_ ?_
        · rintro ⟨v, hv⟩
          cases u with
          | nil => exact hlast (by simp)
          | cons d u =>
            rw [hout, List.append_assoc] at hv
            have hd : d = '%' := (List.cons.inj (List.cons.inj (List.append_cancel_left hv)).2).1
            rw [hd] at hbegins
            exact not_beginsTag_percent hbegins
        · intro huntagged
          exact huntagged s.gap u rfl s.tag.name hbegins
    · rw [hu] at hgap
      refine iff_of_true ⟨u ++ '<' :: '%' :: more, by rw [hout, hu]; simp⟩ hgap.of_append

/-- Code embedded in a template. -/
def embedded (code : Text) : Text := '<' :: '%' :: (code ++ ['%', '>'])

/-- If a template succeeds that begins with text without a `<` and with embedded code, this code is
copied as it is just if no tag starts in it. -/
theorem copiesCode_iff (hpre : '<' ∉ pre)
    (h : transpile conventions (pre ++ (embedded code ++ post)) = .ok r) :
    pre ++ embedded code <+: r.output ↔
      ∀ u v, code = u ++ '<' :: v → ∀ name, ¬ BeginsTag name (v ++ '%' :: '>' :: post) := by
  rw [← List.append_assoc] at h
  have hlast : (pre ++ embedded code).getLast? ≠ some '<' := by
    rw [show pre ++ embedded code = (pre ++ '<' :: '%' :: (code ++ ['%'])) ++ ['>'] by
      simp [embedded], List.getLast?_concat]
    decide
  rw [copiesFront_iff h hlast]
  constructor
  · intro hfront u v hcode name hbegins
    refine hfront (pre ++ '<' :: '%' :: u) (v ++ ['%', '>']) ?_ name (by simpa using hbegins)
    simp [embedded, hcode]
  · intro hcode
    have htail : '<' ∉ ['%', '>'] := by decide
    have hinside : Untagged (code ++ ['%', '>']) post :=
      Untagged.append hcode (untagged_of_notMem htail)
    refine (untagged_of_notMem hpre).append ?_
    intro before later htext name hbegins
    cases before with
    | nil =>
      obtain ⟨-, rfl⟩ := List.cons.inj htext
      exact not_beginsTag_percent hbegins
    | cons c before =>
      obtain ⟨-, hrest⟩ := List.cons.inj htext
      cases before with
      | nil => cases (List.cons.inj hrest).1
      | cons d before => exact hinside before later (List.cons.inj hrest).2 name hbegins

/-- The comparison and the string are code, but no tag starts at their `<`. -/
theorem copiesCode_iff_comparison :
    let pre := "é ".toList
    let code := " if a < b || c <D-e || f == \"</G\" ".toList
    let post := "<H/><% end %>".toList
    transpile .standard (pre ++ (embedded code ++ post)) =
        .ok ⟨("é <% if a < b || c <D-e || f == \"</G\" %>" ++
          "<%= render HComponent.new %><% end %>").toList, []⟩ ∧
      ∀ u v, code = u ++ '<' :: v → ∀ name, ¬ BeginsTag name (v ++ '%' :: '>' :: post) := by
  intro pre code post
  have hok : transpile .standard (pre ++ (embedded code ++ post)) =
      .ok ⟨("é <% if a < b || c <D-e || f == \"</G\" %>" ++
        "<%= render HComponent.new %><% end %>").toList, []⟩ := by decide +kernel
  refine ⟨hok, (copiesCode_iff (by decide) hok).1 ?_⟩
  exact ⟨"<%= render HComponent.new %><% end %>".toList, by decide +kernel⟩

/-- A tag in a string of the code is no tag for the host language, but it is one here. -/
theorem code_not_copied :
    let code := " x = \"<A/>\" ".toList
    let output := "<% x = \"<%= render AComponent.new %>\" %>".toList
    ¬ ['%', '>'] <:+: code ∧ transpile .standard ([] ++ (embedded code ++ [])) = .ok ⟨output, []⟩ ∧
      ¬ [] ++ embedded code <+: output := by
  decide +kernel

end Code

/-! ## Characters of generated code -/

section Characters

variable {t name : Text} {c : Char}

theorem notMem_lt_snakeAfter {before : Option Char} (h : '<' ∉ t) :
    '<' ∉ Name.snakeAfter before t := by
  induction t generalizing before with
  | nil => exact h
  | cons c t ih =>
    rw [List.mem_cons, not_or] at h
    have hrest : '<' ∉ Name.snakeAfter (some c) t := ih h.2
    have hlower : '<' ≠ c.toLower := fun hc =>
      h.1 (Name.eq_of_toLower_eq (by decide) hc.symm).symm
    rw [Name.snakeAfter_cons]
    split <;> simp [hlower, hrest]

theorem notMem_lt_joined (h : '<' ∉ t) : '<' ∉ Name.joined t := by
  fun_induction Name.joined t with
  | case1 t ih => simp_all
  | case2 c t _ ih => simp_all
  | case3 => exact h

theorem notMem_lt_snakeCase (h : '<' ∉ t) : '<' ∉ Name.snakeCase t :=
  notMem_lt_snakeAfter (notMem_lt_joined h)

theorem notMem_lt_slotName {slotPrefix slot : Text} (h : '<' ∉ name)
    (hslot : Name.slotName name slotPrefix = some slot) : '<' ∉ slot := by
  obtain ⟨-, c, rest, rfl, -, rfl⟩ := Name.slotName_eq_some_iff.1 hslot
  exact notMem_lt_snakeCase fun hmem => h (List.mem_append_right slotPrefix hmem)

theorem notMem_lt_escapeQuotes {escaped : Bool} (h : '<' ∉ t) : '<' ∉ escapeQuotes escaped t := by
  fun_induction escapeQuotes escaped t with
  | case1 => exact h
  | _ => simp_all

theorem notMem_lt_trim (h : '<' ∉ t) : '<' ∉ Text.trim t := by
  intro hmem
  have hend : '<' ∈ t.dropWhile Text.isWhiteSpace := by
    have hsub := List.dropWhile_sublist Text.isWhiteSpace
      (l := (t.dropWhile Text.isWhiteSpace).reverse)
    exact List.mem_reverse.1 (hsub.subset (List.mem_reverse.1 hmem))
  exact h ((List.dropWhile_sublist _).subset hend)

theorem notMem_intercalate {sep : Text} {ts : List Text} (hsep : c ∉ sep) (h : ∀ t ∈ ts, c ∉ t) :
    c ∉ List.intercalate sep ts := by
  induction ts with
  | nil => simp
  | cons t ts ih =>
    have hrest := ih fun u hu => h u (List.mem_cons_of_mem t hu)
    have ht := h t List.mem_cons_self
    cases ts with
    | nil => simpa using ht
    | cons u ts =>
      rw [List.intercalate_cons_cons]
      simp [ht, hsep, hrest]

end Characters

section Attributes

open Attribute

variable {t : Text} {p : Piece} {tag : Tag}

theorem notMem_lt_piece (h : '<' ∉ t) (hp : p ∈ pieces t) : '<' ∉ p.text := by
  intro hmem
  rw [← text_pieces t] at h
  exact h (List.mem_flatMap.2 ⟨p, hp, hmem⟩)

theorem notMem_lt_normalizeKey (h : '<' ∉ t) : '<' ∉ normalizeKey t := by
  intro hmem
  obtain ⟨c, hc, heq⟩ := List.mem_map.1 hmem
  split at heq
  · exact absurd heq (by decide)
  · exact h (heq ▸ hc)

theorem notMem_lt_render {e : AttributeEntry} (h : '<' ∉ p.text) (he : p.entry? = some e) :
    '<' ∉ e.render := by
  have hyes : '<' ∉ ": ".toList ++ "true".toList := by decide
  have hcolon : '<' ∉ ": ".toList := by decide
  cases p with
  | filler => cases he
  | flag key =>
    obtain rfl := Option.some.inj he
    have hkey := notMem_lt_normalizeKey (t := key) h
    rw [AttributeEntry.render, List.append_assoc, List.mem_append, not_or]
    exact ⟨hkey, hyes⟩
  | assigned key before after value =>
    rw [Piece.text, List.append_assoc, List.mem_append, not_or] at h
    have hkey := notMem_lt_normalizeKey h.1
    have hvalue : '<' ∉ value.text := by
      intro hmem
      exact h.2 (by simp [hmem])
    have hentry : ∃ v, e = ⟨normalizeKey key, v⟩ ∧ '<' ∉ v.render := by
      cases value with
      | quoted q body =>
        simp only [Piece.entry?] at he
        split at he
        · cases he
        · refine ⟨_, (Option.some.inj he).symm, ?_⟩
          have hbody : '<' ∉ body := fun hmem => hvalue (by simp [Written.text, hmem])
          have hescaped : '<' ∉ escapeQuotes false body := notMem_lt_escapeQuotes hbody
          simp [AttributeValue.render, doubleQuoted, hescaped]
      | braced body =>
        refine ⟨_, (Option.some.inj he).symm, ?_⟩
        exact fun hmem => hvalue (List.mem_cons_of_mem _ (List.mem_append_left _ hmem))
      | bare | openQuoted | openBraced =>
        exact ⟨_, (Option.some.inj he).symm, by decide⟩
    obtain ⟨v, rfl, hv⟩ := hentry
    rw [AttributeEntry.render, List.append_assoc, List.mem_append, List.mem_append, not_or, not_or]
    exact ⟨hkey, hcolon, hv⟩

theorem notMem_lt_arguments (h : '<' ∉ tag.attributes) : '<' ∉ tag.arguments := by
  rw [Tag.arguments, Attributes.arguments]
  refine notMem_intercalate (by decide) ?_
  intro u hu
  obtain ⟨e, he, rfl⟩ := List.mem_map.1 hu
  obtain ⟨p, hp, hentry⟩ := List.mem_filterMap.1 he
  exact notMem_lt_render (notMem_lt_piece h hp) hentry

theorem notMem_lt_blockVariable (hname : '<' ∉ tag.name) (h : '<' ∉ tag.attributes) :
    '<' ∉ tag.blockVariable := by
  rw [Tag.blockVariable]
  cases halias : tag.alias? with
  | none => exact notMem_lt_snakeCase hname
  | some name =>
    have hmem := (List.mem_filter.1 (List.mem_of_getLast? halias)).1
    obtain ⟨p, hp, hvariable⟩ := List.mem_filterMap.1 hmem
    have hpiece := notMem_lt_piece h hp
    unfold Piece.alias? at hvariable
    split at hvariable
    · split at hvariable
      · rw [← Option.some.inj hvariable]
        refine notMem_lt_trim ?_
        intro hmem
        exact hpiece (by simp [Piece.text, Written.text, hmem])
      · cases hvariable
    · cases hvariable

end Attributes

/-! ## Output without tags -/

section Output

variable {conventions : Conventions} {source : Text} {ss : List Segment} {tail : Text}
  {done : List Linked} {l : Linked}

theorem SplitAtTags.isName (h : SplitAtTags ss tail) : ∀ s ∈ ss, Name.IsName s.tag.name := by
  induction ss with
  | nil =>
    intro s hs
    cases hs
  | cons s ss ih =>
    obtain ⟨-, ⟨after, -, hbegins⟩, hrest⟩ := h
    intro s' hs'
    rcases List.mem_cons.1 hs' with rfl | hs'
    · cases hbegins with
      | closing longest => exact longest.isName
      | bare longest => exact longest.isName
      | slashed longest => exact longest.isName
      | spaced longest => exact longest.isName
    · exact ih hrest s' hs'

/-- If neither the tags nor the suffix of components bring in a `<`, a call holds only its first. -/
theorem call_eq_of_notMem (h : LinkedBy conventions (l :: done)) (hkind : l.tag.kind ≠ .closing)
    (hsuffix : '<' ∉ conventions.componentSuffix)
    (htags : ∀ m ∈ l :: done, '<' ∉ m.tag.name ∧
      (m.tag.kind ≠ .closing → '<' ∉ m.tag.attributes)) :
    ∃ w, l.call conventions = '<' :: '%' :: w ∧ '<' ∉ w := by
  obtain ⟨hname, hattributes⟩ := htags l List.mem_cons_self
  have harguments : '<' ∉ Fragment.parenthesized l.tag.arguments := by
    have hplain := notMem_lt_arguments (hattributes hkind)
    rw [Fragment.parenthesized]
    split <;> simp [hplain]
  rcases linkOf_inversion h.1 with ⟨hclosing, -⟩ | ⟨-, hopener, hparent⟩
  · exact absurd hclosing hkind
  · cases hlink : l.link with
    | close opener =>
      rw [hlink] at hopener
      cases hopener
    | component =>
      refine ⟨"= render ".toList ++ (l.tag.name ++ conventions.componentSuffix) ++ ".new".toList ++
        Fragment.parenthesized l.tag.arguments, by rw [Linked.call, hlink]; rfl, ?_⟩
      simp [hname, hsuffix, harguments]
    | slot parent slot =>
      obtain ⟨m, hm, rfl⟩ := hparent parent (by rw [hlink]; rfl)
      obtain ⟨outer, hopen⟩ := eq_cons_of_parentOf? hm
      obtain ⟨hmem, hopening, -⟩ :=
        mem_stillOpen.1 (hopen ▸ List.mem_cons_self : m ∈ stillOpen done)
      obtain ⟨hname', hattributes'⟩ := htags m (List.mem_cons_of_mem l hmem)
      have hreceiver : '<' ∉ m.tag.blockVariable :=
        notMem_lt_blockVariable hname' (hattributes' (by rw [hopening]; decide))
      have hlinkOf := h.1
      rw [hlink] at hlinkOf
      have hslot := notMem_lt_slotName hname (slotName_of_linkOf hlinkOf)
      refine ⟨" ".toList ++ m.tag.blockVariable ++ ".with_".toList ++ slot ++
        Fragment.parenthesized l.tag.arguments, by rw [Linked.call, hlink]; rfl, ?_⟩
      simp [hreceiver, hslot, harguments]

theorem fragment_eq_of_notMem (h : LinkedBy conventions (l :: done))
    (hsuffix : '<' ∉ conventions.componentSuffix)
    (htags : ∀ m ∈ l :: done, '<' ∉ m.tag.name ∧
      (m.tag.kind ≠ .closing → '<' ∉ m.tag.attributes)) (declared : Bool) :
    ∃ w, l.fragment conventions declared = '<' :: '%' :: w ∧ '<' ∉ w := by
  have hclose : '<' ∉ Fragment.close := by decide
  cases hkind : l.tag.kind with
  | closing =>
    refine ⟨" end %>".toList, by simp only [Linked.fragment, hkind]; rfl, by decide⟩
  | selfClosing =>
    obtain ⟨w, hw, hlt⟩ := call_eq_of_notMem h (by rw [hkind]; decide) hsuffix htags
    refine ⟨w ++ Fragment.close, by simp only [Linked.fragment, hkind, hw]; rfl, ?_⟩
    simp [hlt, hclose]
  | opening =>
    obtain ⟨hname, hattributes⟩ := htags l List.mem_cons_self
    have hkind' : l.tag.kind ≠ .closing := by rw [hkind]; decide
    obtain ⟨w, hw, hlt⟩ := call_eq_of_notMem h hkind' hsuffix htags
    have hvariable := notMem_lt_blockVariable hname (hattributes hkind')
    have hdo : '<' ∉ Fragment.blockKeyword := by decide
    have hparameter : '<' ∉ (if declared then Fragment.blockParameter l.tag.blockVariable
        else []) := by
      cases declared with
      | false => exact List.not_mem_nil
      | true => simp [Fragment.blockParameter, hvariable]
    refine ⟨w ++ (Fragment.blockKeyword ++ ((if declared then
      Fragment.blockParameter l.tag.blockVariable else []) ++ Fragment.close)),
      by simp only [Linked.fragment, hkind, hw]; rfl, ?_⟩
    simp only [List.mem_append, not_or]
    exact ⟨hlt, hdo, hparameter, hclose⟩

/-- With a fragment that holds one `<` in place of each tag, no tag is left. -/
theorem SplitAtTags.untagged_interleave {fragments : List Text} (h : SplitAtTags ss tail)
    (hlength : fragments.length = ss.length)
    (hfragments : ∀ fragment ∈ fragments, ∃ w, fragment = '<' :: '%' :: w ∧ '<' ∉ w) :
    Untagged (interleave (ss.map Segment.gap ++ [tail]) fragments) [] := by
  induction ss generalizing fragments with
  | nil =>
    obtain rfl := List.length_eq_zero_iff.1 hlength
    have hout : interleave [tail] [] = tail := by simp [interleave]
    rw [List.map_nil, List.nil_append, hout]
    exact h
  | cons s ss ih =>
    obtain ⟨hgap, ⟨after, hafter, hbegins⟩, hrest⟩ := h
    obtain ⟨fragment, fragments, rfl⟩ := List.exists_cons_of_length_eq_add_one hlength
    obtain ⟨w, rfl, hw⟩ := hfragments fragment List.mem_cons_self
    have hlater := ih hrest (Nat.succ.inj hlength) fun f hf =>
      hfragments f (List.mem_cons_of_mem _ hf)
    rw [hafter] at hgap
    rw [List.map_cons, List.cons_append, interleave]
    exact (hgap.congr hbegins.mem).append ((untagged_percent hw).append hlater)

/-- If neither the attributes of its tags nor the suffix of components hold a `<`, the output of a
template has no tags, and turning it into ERB again gives it back without a warning. -/
theorem output_is_fixed {r : Transpiled} (hsuffix : '<' ∉ conventions.componentSuffix)
    (h : transpile conventions source = .ok r)
    (hattributes : ∀ tag ∈ tags source, tag.kind ≠ .closing → '<' ∉ tag.attributes) :
    ((Scanner.ofText r.output).next 0).1 = none ∧
      transpile conventions r.output = .ok ⟨r.output, []⟩ := by
  obtain ⟨fragments, hlength, houtput, hfragments⟩ := exists_fragments h
  have hsplit := splitAtTags_segments source
  have hnames : ∀ tag ∈ tags source, '<' ∉ tag.name := by
    intro tag htag
    obtain ⟨s, hs, rfl⟩ := List.mem_map.1 htag
    exact (hsplit.isName s hs).notMem_lt
  have huntagged : Untagged r.output [] := by
    rw [houtput]
    refine hsplit.untagged_interleave hlength ?_
    intro fragment hmem
    obtain ⟨l, done, declared, rfl, hlinked, htags⟩ := hfragments fragment hmem
    refine fragment_eq_of_notMem hlinked hsuffix ?_ declared
    intro m hm
    exact ⟨hnames m.tag (htags m hm), hattributes m.tag (htags m hm)⟩
  refine ⟨huntagged.next_eq_none, ?_⟩
  have hsegments := huntagged.segments_eq
  have hrun : (Pass.start.run conventions r.output (segments r.output).1).result =
      .ok Pass.start := by
    rw [hsegments]
    rfl
  rw [transpile_of_closed hrun rfl, tags, hsegments]
  rfl

/-- Text before and between the tags that looks like tags comes to stand next to generated code. -/
theorem output_is_fixed_candidates :
    let source := "<Card-x</B <A as=\"b\" c=\x7bd > 1\x7d><WithX/></Y <C::d></A><E ".toList
    let output := ("<Card-x</B <%= render AComponent.new(c: d > 1) do |b| %>" ++
      "<% b.with_x %></Y <C::d>" ++
      "<% end %><E ").toList
    transpile .standard source = .ok ⟨output, []⟩ ∧
      transpile .standard output = .ok ⟨output, []⟩ := by
  intro source output
  have hok : transpile .standard source = .ok ⟨output, []⟩ := by decide +kernel
  have hattributes : ∀ tag ∈ tags source, tag.kind ≠ .closing → '<' ∉ tag.attributes := by
    decide +kernel
  exact ⟨hok, (output_is_fixed (by decide) hok hattributes).2⟩

end Output

end ErbTags
