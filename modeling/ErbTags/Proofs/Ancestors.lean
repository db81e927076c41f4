import ErbTags.Proofs.TreeViews
import Mathlib.Data.List.Induction
import Mathlib.Data.List.Infix

/-!
# The directories that a path leads through

A path leads through the locations that its names lead to, from the first name on
(`Disk.LeadsThrough`). Its ancestors are paths to some of them, each of which goes on from the next
one by a single name (`Disk.climbs_ancestors`). So making a directory and those that it lies in
makes no directories but those that the path leads through, and it succeeds if no file stands in one
of these places and the names are not too long (`Disk.Opens.createDirectoryAll`).
-/

namespace ErbTags

/-! ## Parts of a path -/

namespace Path

theorem joinParts_cons (p : Text) {ps : List Text} (h : ps ≠ []) :
    joinParts (p :: ps) = p ++ '/' :: joinParts ps := by
  cases ps with
  | nil => exact absurd rfl h
  | cons q ps =>
    unfold joinParts
    rw [List.intercalate_cons_cons, List.append_assoc]
    rfl

theorem joinParts_append {ps qs : List Text} (hp : ps ≠ []) (hq : qs ≠ []) :
    joinParts (ps ++ qs) = joinParts ps ++ '/' :: joinParts qs := by
  induction ps with
  | nil => exact absurd rfl hp
  | cons p ps ih =>
    rw [List.cons_append]
    by_cases hps : ps = []
    · subst hps
      rw [List.nil_append, joinParts_cons p hq, joinParts, joinParts, List.intercalate_singleton]
    · rw [joinParts_cons p (List.append_ne_nil_of_left_ne_nil hps qs), ih hps,
        joinParts_cons p hps, List.append_assoc, List.cons_append]

theorem joinParts_parts (t : Text) : joinParts (parts t) = t := by
  induction t with
  | nil => rfl
  | cons c t ih =>
    rw [parts]
    split
    case isTrue hc => rw [joinParts_cons [] (parts_ne_nil t), ih, hc, List.nil_append]
    case isFalse =>
      cases hparts : parts t with
      | nil => exact absurd hparts (parts_ne_nil t)
      | cons p ps =>
        rw [hparts] at ih
        dsimp only
        by_cases hps : ps = []
        · subst hps
          exact congrArg (c :: ·) ih
        · rw [joinParts_cons _ hps] at ih ⊢
          rw [List.cons_append, ih]

theorem slash_notMem_of_mem_parts {t p : Text} (h : p ∈ parts t) : '/' ∉ p := by
  induction t generalizing p with
  | nil =>
    rw [List.mem_singleton.1 h]
    exact List.not_mem_nil
  | cons c t ih =>
    rw [parts] at h
    split at h
    case isTrue =>
      rcases List.mem_cons.1 h with rfl | h
      · exact List.not_mem_nil
      · exact ih h
    case isFalse hc =>
      cases hparts : parts t with
      | nil => exact absurd hparts (parts_ne_nil t)
      | cons q qs =>
        rw [hparts] at h ih
        rcases List.mem_cons.1 h with rfl | h
        · rw [List.mem_cons, not_or]
          exact ⟨Ne.symm hc, ih List.mem_cons_self⟩
        · exact ih (List.mem_cons_of_mem q h)

theorem lead_append (t : Text) : (lead t).1 ++ (lead t).2 = t := by
  unfold lead
  split <;> rfl

/-- A leading dot is followed by a slash or by nothing. -/
theorem lead_cases (t : Text) :
    (lead t).1 = [] ∨ (lead t).1 = ['/'] ∨
      (lead t).1 = ['.'] ∧ (parts (lead t).2).head? = some [] := by
  unfold lead
  split
  · exact Or.inr (Or.inl rfl)
  · exact Or.inr (Or.inr ⟨rfl, rfl⟩)
  · exact Or.inr (Or.inr ⟨rfl, rfl⟩)
  · exact Or.inl rfl

end Path

namespace Disk

variable {d d' : Disk} {path name : String} {l : Location} {ns blanks : List String}

/-! ## Names of the ancestors -/

/-- A name that leads from each directory to itself. -/
def IsVoidName (name : String) : Prop := name = "" ∨ name = "."

theorem isVoidName_ofList {p : Text} (h : Path.isVoid p = true) : IsVoidName (String.ofList p) := by
  rw [Path.isVoid, Bool.or_eq_true, beq_iff_eq, beq_iff_eq] at h
  rcases h with rfl | rfl
  · exact Or.inl rfl
  · exact Or.inr rfl

theorem ofList_ne_empty {p : Text} (h : ¬ Path.isVoid p = true) : String.ofList p ≠ "" := by
  intro hempty
  obtain rfl : p = [] := String.ofList_injective hempty
  exact h rfl

/-- The names of the first of some paths. -/
def headNames : List String → List String
  | [] => []
  | path :: _ => names path

/-- The last name of the path, up to empty ones, and the names before it. -/
structure EndsWith (path : String) (ns : List String) (name : String) : Prop where
  ne_empty : name ≠ ""
  exists_blanks : ∃ blanks, (∀ n ∈ blanks, n = "") ∧ names path = ns ++ name :: blanks

/-- Each path goes on from the next one by a single name, and the last one is such a name; void
names may stand before it. -/
def Climbs : List String → Prop
  | [] => True
  | path :: outer =>
    (∃ voids name, (∀ n ∈ voids, IsVoidName n) ∧ EndsWith path (headNames outer ++ voids) name) ∧
      Climbs outer

theorem names_ofList {p : Text} (h : '/' ∉ p) : names (String.ofList p) = [String.ofList p] :=
  names_of_slash_notMem (by rwa [String.toList_ofList])

theorem names_joinParts_concat (start : Text) {qs : List Text} (hqs : qs ≠ []) {p : Text}
    (hp : '/' ∉ p) :
    names (String.ofList (start ++ Path.joinParts (qs ++ [p]))) =
      names (String.ofList (start ++ Path.joinParts qs)) ++ [String.ofList p] := by
  have htext : String.ofList (start ++ Path.joinParts (qs ++ [p])) =
      String.ofList (start ++ Path.joinParts qs) ++ "/" ++ String.ofList p := by
    apply String.toList_inj.1
    rw [Path.joinParts_append hqs (List.cons_ne_nil p [])]
    simp [Path.joinParts]
  rw [htext, names_append_slash, names_ofList hp]

/-- A path of one part, after the slash of an absolute path or at the start of another one. -/
theorem names_ofList_append {start p : Text} (hstart : start = [] ∨ start = ['/'])
    (hp : '/' ∉ p) :
    ∃ voids, (∀ n ∈ voids, IsVoidName n) ∧
      names (String.ofList (start ++ p)) = voids ++ [String.ofList p] := by
  rcases hstart with rfl | rfl
  · exact ⟨[], by simp, names_ofList hp⟩
  · have htext : String.ofList (['/'] ++ p) = "" ++ "/" ++ String.ofList p := by
      apply String.toList_inj.1
      simp
    refine ⟨[""], fun n hn => Or.inl (List.mem_singleton.1 hn), ?_⟩
    rw [htext, names_append_slash, names_ofList hp]
    rfl

/-- The paths climb, and the names go on from the first of them by void names only. -/
def ClimbsFrom (ns : List String) (paths : List String) : Prop :=
  Climbs paths ∧ ∃ voids, (∀ n ∈ voids, IsVoidName n) ∧ ns = headNames paths ++ voids

/-- One part more gives one path more, unless it is void. -/
theorem ClimbsFrom.cons {paths : List String} {p : Text} (h : ClimbsFrom ns paths)
    (hpath : names path = ns ++ [String.ofList p]) :
    ClimbsFrom (names path) (if Path.isVoid p then paths else path :: paths) := by
  obtain ⟨hclimbs, voids, hvoids, rfl⟩ := h
  split
  case isTrue hvoid =>
    refine ⟨hclimbs, voids ++ [String.ofList p], fun n hn => ?_, ?_⟩
    · rcases List.mem_append.1 hn with hn | hn
      · exact hvoids n hn
      · rw [List.mem_singleton.1 hn]
        exact isVoidName_ofList hvoid
    · rw [hpath, List.append_assoc]
  case isFalse hvoid =>
    have hends : EndsWith path (headNames paths ++ voids) (String.ofList p) :=
      ⟨ofList_ne_empty hvoid, [], by simp, hpath⟩
    exact ⟨⟨⟨voids, _, hvoids, hends⟩, hclimbs⟩, [], by simp, (List.append_nil _).symm⟩

/-- The parts are given with the last one first. -/
theorem climbsFrom_ancestorsFrom {start : Text} {rs : List Text} (hrs : rs ≠ [])
    (hstart : start = [] ∨ start = ['/'] ∨ start = ['.'] ∧ rs.getLast? = some [])
    (hslash : ∀ p ∈ rs, '/' ∉ p) :
    ClimbsFrom (names (String.ofList (start ++ Path.joinParts rs.reverse)))
      (Path.ancestorsFrom start rs) := by
  induction rs with
  | nil => exact absurd rfl hrs
  | cons p ps ih =>
    obtain ⟨hp, hps⟩ := List.forall_mem_cons.1 hslash
    rw [Path.ancestorsFrom]
    by_cases hnil : ps = []
    · subst hnil
      have hjoin : Path.joinParts [p].reverse = p := List.intercalate_singleton
      rw [hjoin]
      rcases or_assoc.2 hstart with hstart | ⟨rfl, hlast⟩
      · obtain ⟨voids, hvoids, hnames⟩ := names_ofList_append hstart hp
        have hdot : start ≠ ['.'] := by rcases hstart with rfl | rfl <;> decide
        rw [Path.ancestorsFrom, if_neg hdot]
        exact ClimbsFrom.cons ⟨trivial, voids, hvoids, rfl⟩ hnames
      · obtain rfl : p = [] := Option.some.inj hlast
        have hends : EndsWith "." [] "." := ⟨by decide, [], by simp, by decide⟩
        exact ⟨⟨⟨[], ".", by simp, hends⟩, trivial⟩, [], by simp, (List.append_nil _).symm⟩
    · have hstart' : start = [] ∨ start = ['/'] ∨ start = ['.'] ∧ ps.getLast? = some [] := by
        rwa [List.getLast?_cons_of_ne_nil hnil] at hstart
      rw [List.reverse_cons]
      refine (ih hnil hstart' hps).cons ?_
      exact names_joinParts_concat start (List.reverse_ne_nil_iff.2 hnil) hp

/-- The path does not end in a dot. -/
def EndsInName (path : String) : Prop := ((names path).reverse.dropWhile (· = "")).head? ≠ some "."

instance (path : String) : Decidable (EndsInName path) := inferInstanceAs (Decidable (_ ≠ _))

theorem eq_empty_of_head?_dropWhile {voids : List String} (hvoids : ∀ n ∈ voids, IsVoidName n)
    (h : ((ns ++ voids).reverse.dropWhile (· = "")).head? ≠ some ".") : ∀ n ∈ voids, n = "" := by
  induction voids using List.reverseRecOn with
  | nil => simp
  | append_singleton voids v ih =>
    rw [← List.append_assoc, List.reverse_append, List.reverse_singleton,
      List.singleton_append] at h
    obtain rfl : v = "" := by
      rcases hvoids v (List.mem_append_right _ List.mem_cons_self) with hv | rfl
      · exact hv
      · exact absurd rfl h
    have hfront := ih (fun n hn => hvoids n (List.mem_append_left _ hn)) h
    intro n hn
    rcases List.mem_append.1 hn with hn | hn
    · exact hfront n hn
    · exact List.mem_singleton.1 hn

/-- A path of void names has no ancestors. The first ancestor of another path is the path, in place
of one that has the same names up to void ones. -/
theorem ancestors_cases (path : String) :
    (Path.ancestors path = [] ∧ ∀ n ∈ names path, IsVoidName n) ∨ path ≠ "" ∧ ∃ first outer,
      Path.ancestors path = path :: outer ∧ ClimbsFrom (names path) (first :: outer) := by
  have hpath := congrArg String.ofList (Path.lead_append path.toList)
  have hlead := Path.lead_cases path.toList
  rw [String.ofList_toList] at hpath
  unfold Path.ancestors
  generalize hparts : Path.lead path.toList = leads at hpath hlead
  obtain ⟨start, body⟩ := leads
  dsimp only at hpath hlead ⊢
  rw [← List.getLast?_reverse] at hlead
  have hne := List.reverse_ne_nil_iff.2 (Path.parts_ne_nil body)
  have hclimbs := climbsFrom_ancestorsFrom hne hlead fun p hp =>
    Path.slash_notMem_of_mem_parts (List.mem_reverse.1 hp)
  rw [List.reverse_reverse, Path.joinParts_parts, hpath] at hclimbs
  generalize hfrom : Path.ancestorsFrom start (Path.parts body).reverse = paths at hclimbs
  cases paths with
  | nil =>
    obtain ⟨-, voids, hvoids, hnames⟩ := hclimbs
    exact Or.inl ⟨rfl, hnames ▸ hvoids⟩
  | cons first outer =>
    refine Or.inr ⟨?_, first, outer, rfl, hclimbs⟩
    rintro rfl
    cases hparts
    cases hfrom

/-- The ancestors of a path go on from one another by single names. -/
theorem climbs_ancestors (h : EndsInName path) : Climbs (Path.ancestors path) := by
  rcases ancestors_cases path with ⟨hnil, -⟩ | ⟨-, first, outer, houter, hclimbs⟩
  · rw [hnil]
    trivial
  · obtain ⟨⟨⟨voids, name, hvoids, hends⟩, hclimbs⟩, rest, hrest, hnames⟩ := hclimbs
    obtain ⟨hname, blanks, hblanks, hfirst⟩ := hends
    rw [EndsInName, hnames] at h
    have hempty := eq_empty_of_head?_dropWhile hrest h
    rw [houter]
    refine ⟨⟨voids, name, hvoids, hname, blanks ++ rest, fun n hn => ?_, ?_⟩, hclimbs⟩
    · exact (List.mem_append.1 hn).elim (hblanks n) (hempty n)
    · rw [hnames, headNames, hfirst, List.append_assoc, List.cons_append]

theorem Climbs.isPrefix {paths : List String} (h : Climbs paths) :
    ∀ path ∈ paths, path ≠ "" ∧ names path <+: headNames paths := by
  induction paths with
  | nil => simp
  | cons path outer ih =>
    obtain ⟨⟨voids, name, -, hname, blanks, -, hnames⟩, houter⟩ := h
    refine List.forall_mem_cons.2 ⟨⟨?_, List.prefix_refl _⟩, fun a ha => ?_⟩
    · rintro rfl
      have hlast := congrArg (fun ns => name ∈ ns) hnames
      simp [names, Path.parts, hname] at hlast
    · obtain ⟨hne, hstart⟩ := ih houter a ha
      refine ⟨hne, hstart.trans ?_⟩
      rw [headNames, hnames, List.append_assoc]
      exact List.prefix_append _ _

/-- The names of an ancestor are some of those of the path, from the first on. -/
theorem isPrefix_of_mem_ancestors {a : String} (h : a ∈ Path.ancestors path) :
    a ≠ "" ∧ names a <+: names path := by
  rcases ancestors_cases path with ⟨hnil, -⟩ | ⟨hpath, first, outer, houter, hfrom⟩
  · rw [hnil] at h
    cases h
  · obtain ⟨hclimbs, voids, -, hnames⟩ := hfrom
    rw [houter] at h
    rcases List.mem_cons.1 h with rfl | h
    · exact ⟨hpath, List.prefix_refl _⟩
    · obtain ⟨hne, hstart⟩ := hclimbs.isPrefix a (List.mem_cons_of_mem first h)
      rw [hnames]
      exact ⟨hne, hstart.trans (List.prefix_append _ _)⟩

theorem isAbsolute_iff (h : path ≠ "") :
    Path.isAbsolute path = true ↔ (names path).head? = some "" := by
  have hne : path.toList ≠ [] := fun hnil => h (String.toList_inj.1 hnil)
  obtain ⟨c, t, hpath⟩ := List.exists_cons_of_ne_nil hne
  rw [Path.isAbsolute, names, hpath, Path.parts]
  by_cases hc : c = '/'
  · simp [hc]
  · rw [if_neg hc]
    split <;> simp [hc]

/-- A path whose names are the first ones of another path starts from the same directory. -/
theorem origin_eq_of_isPrefix {a : String} (ha : a ≠ "") (hpath : path ≠ "")
    (h : names a <+: names path) (d : Disk) : d.origin a = d.origin path := by
  have hnames : names a ≠ [] := fun hnil =>
    Path.parts_ne_nil a.toList (List.map_eq_nil_iff.1 hnil)
  obtain ⟨n, ns, ha'⟩ := List.exists_cons_of_ne_nil hnames
  obtain ⟨rest, hrest⟩ := h
  have hhead : (names a).head? = (names path).head? := by
    rw [← hrest, ha']
    rfl
  have hsame : Path.isAbsolute a = Path.isAbsolute path := by
    rw [Bool.eq_iff_iff, isAbsolute_iff ha, isAbsolute_iff hpath, hhead]
  rw [origin, origin, hsame]

theorem exists_append_of_isPrefix {a : String} (h : names a <+: names path) :
    ∃ t, path.toList = a.toList ++ t := by
  obtain ⟨rest, hrest⟩ := h
  have hparts : Path.parts path.toList = Path.parts a.toList ++ rest.map String.toList := by
    have hmap := congrArg (List.map String.toList) hrest
    rw [List.map_append, names, names, List.map_map, List.map_map] at hmap
    simpa [Function.comp_def] using hmap.symm
  rw [← Path.joinParts_parts path.toList, hparts]
  by_cases hnil : rest.map String.toList = []
  · exact ⟨[], by rw [hnil, List.append_nil, List.append_nil, Path.joinParts_parts]⟩
  · rw [Path.joinParts_append (Path.parts_ne_nil a.toList) hnil, Path.joinParts_parts]
    exact ⟨_, rfl⟩

/-- What is wrong with the text of an ancestor is wrong with the path too. -/
theorem ofPath?_of_isPrefix {a : String} (ha : a ≠ "") (h : names a <+: names path)
    (hpath : FileFault.ofPath? path = none) : FileFault.ofPath? a = none := by
  obtain ⟨t, ht⟩ := exists_append_of_isPrefix h
  unfold FileFault.ofPath? at hpath ⊢
  rw [ht, Text.byteSize_append] at hpath
  split_ifs at hpath with hnul hempty hsize
  rw [if_neg fun hmem => hnul (List.mem_append_left t hmem), if_neg ha, if_neg (by omega)]

/-! ## Locations on the way -/

/-- A location that the path leads to, or that it passes on the way: some of its names, from the
first on, lead there. -/
def LeadsThrough (d : Disk) (path : String) (l : Location) : Prop :=
  ∃ ns, ns <+: names path ∧ l = ns.foldl follow (d.origin path)

theorem leadsThrough_iff :
    d.LeadsThrough path l ↔ l ∈ (names path).inits.map (List.foldl follow (d.origin path)) := by
  simp only [LeadsThrough, List.mem_map, List.mem_inits, eq_comm]

instance (d : Disk) (path : String) (l : Location) : Decidable (d.LeadsThrough path l) :=
  decidable_of_iff _ leadsThrough_iff.symm

theorem leadsThrough_of_mem_ancestors {a : String} (h : a ∈ Path.ancestors path) (d : Disk) :
    d.LeadsThrough path (d.place a) := by
  obtain ⟨ha, hstart⟩ := isPrefix_of_mem_ancestors h
  have hpath : path ≠ "" := by
    rintro rfl
    cases h
  exact ⟨names a, hstart, by rw [place, origin_eq_of_isPrefix ha hpath hstart]⟩

theorem isPrefix_foldl_follow (h : ".." ∉ ns) (l : Location) : l <+: ns.foldl follow l := by
  induction ns generalizing l with
  | nil => exact List.prefix_refl l
  | cons n ns ih =>
    rw [List.mem_cons, not_or] at h
    obtain ⟨hn, hns⟩ := h
    have hfollow : l <+: follow l n := by
      unfold follow
      split_ifs with _ hdots
      · exact List.prefix_refl l
      · exact absurd hdots.symm hn
      · exact List.prefix_append l [n]
    exact hfollow.trans (ih hns _)

/-- A path that never turns back leads down all the way. -/
theorem LeadsThrough.isPrefix (h : d.LeadsThrough path l) (hdots : ".." ∉ names path) :
    l <+: d.place path := by
  obtain ⟨ns, ⟨rest, hrest⟩, rfl⟩ := h
  rw [place, ← hrest, List.foldl_append]
  exact isPrefix_foldl_follow (fun hmem => hdots (hrest ▸ List.mem_append_right ns hmem)) _

/-- The path starts from a directory, its names are not too long, and no file stands where it leads
through. -/
structure IsClear (d : Disk) (path : String) : Prop where
  hasDirectory_origin : d.HasDirectory (d.origin path)
  size_le : ∀ name ∈ names path, Text.byteSize name.toList ≤ maxNameSize
  fileAt?_eq_none : ∀ l, d.LeadsThrough path l → d.fileAt? l = none

theorem follow_of_isVoidName (h : IsVoidName name) (l : Location) : follow l name = l := by
  rcases h with rfl | rfl <;> rfl

/-- From a directory a name leads to another one, or nothing is there, unless a file is. -/
theorem follows_cases (hl : d.HasDirectory l) (hsize : Text.byteSize name.toList ≤ maxNameSize)
    (hfile : d.fileAt? (follow l name) = none) :
    d.Follows l name ∧ d.HasDirectory (follow l name) ∨
      d.find? (follow l name) = none ∧ ∀ ns, d.walk l (name :: ns) = .error .missing := by
  obtain ⟨es, hes⟩ : ∃ es, d.find? l = some (.directory es) := hl
  by_cases hvoid : IsVoidName name
  · rw [follow_of_isVoidName hvoid]
    exact Or.inl ⟨⟨es, hes, hvoid.imp_right Or.inl⟩, es, hes⟩
  by_cases hdots : name = ".."
  · subst hdots
    obtain ⟨t, ht⟩ := List.dropLast_prefix l
    have habove : d.root.HasDirectory (l.dropLast ++ t) := ⟨es, by rw [ht]; exact hes⟩
    exact Or.inl ⟨⟨es, hes, Or.inr (Or.inr (Or.inl rfl))⟩, habove.of_append⟩
  have hnone : ¬ (name = "" || name = ".") = true := by
    simpa [IsVoidName] using hvoid
  have hfollow : follow l name = l ++ [name] := by rw [follow, if_neg hnone, if_neg hdots]
  rw [hfollow, fileAt?, find?_append_singleton hes] at hfile
  cases hentry : es.lookup name with
  | none =>
    refine Or.inr ⟨by rw [hfollow, find?_append_singleton hes, hentry], fun ns => ?_⟩
    have hsome : ¬ (es.lookup name).isSome = true := by rw [hentry]; exact Bool.false_ne_true
    rw [walk, hes]
    dsimp only
    rw [if_neg hnone, if_neg hdots, if_neg (Nat.not_lt.2 hsize), if_neg hsome]
  | some node =>
    rw [hentry] at hfile
    cases node with
    | file bytes => cases hfile
    | directory es₁ =>
      refine Or.inl ⟨⟨es, hes, Or.inr (Or.inr (Or.inr ⟨hsize, by rw [hentry]; rfl⟩))⟩, es₁, ?_⟩
      rw [hfollow]
      exact (find?_append_singleton hes name).trans hentry

/-- A walk along a clear path leads to a directory, or something is missing. -/
theorem walk_cases (hl : d.HasDirectory l)
    (hsize : ∀ name ∈ ns, Text.byteSize name.toList ≤ maxNameSize)
    (hfile : ∀ ms, ms <+: ns → d.fileAt? (ms.foldl follow l) = none) :
    d.walk l ns = .ok (ns.foldl follow l) ∧ d.HasDirectory (ns.foldl follow l) ∨
      d.walk l ns = .error .missing := by
  induction ns generalizing l with
  | nil => exact Or.inl ⟨rfl, hl⟩
  | cons n ns ih =>
    obtain ⟨hn, hns⟩ := List.forall_mem_cons.1 hsize
    have hnext := hfile [n] (List.cons_prefix_cons.2 ⟨rfl, List.nil_prefix⟩)
    rcases follows_cases hl hn hnext with ⟨hfollows, hdirectory⟩ | ⟨-, hmissing⟩
    · rw [walk_cons_of_follows hfollows]
      exact ih hdirectory hns fun ms hms => hfile (n :: ms) (List.cons_prefix_cons.2 ⟨rfl, hms⟩)
    · exact Or.inr (hmissing ns)

theorem IsClear.walk_cases (h : d.IsClear path) (hns : ns <+: names path) :
    d.walk (d.origin path) ns = .ok (ns.foldl follow (d.origin path)) ∧
        d.HasDirectory (ns.foldl follow (d.origin path)) ∨
      d.walk (d.origin path) ns = .error .missing :=
  Disk.walk_cases h.hasDirectory_origin (fun name hname => h.size_le name (hns.subset hname))
    fun ms hms => h.fileAt?_eq_none _ ⟨ms, hms.trans hns, rfl⟩

theorem walk_of_isVoidName (hl : d.HasDirectory l) (h : ∀ n ∈ ns, IsVoidName n) :
    d.walk l ns = .ok l := by
  induction ns with
  | nil => rfl
  | cons n ns ih =>
    obtain ⟨hn, hns⟩ := List.forall_mem_cons.1 h
    obtain ⟨es, hes⟩ := hl
    rw [walk_cons_of_follows ⟨es, hes, hn.imp_right Or.inl⟩, follow_of_isVoidName hn]
    exact ih hns

/-- Void names behind the path of a directory lead to the directory too. -/
theorem walk_names_append {voids : List String} {es : List (String × Node)}
    (h : d.node path = .ok (.directory es)) (hvoids : ∀ n ∈ voids, IsVoidName n) :
    d.walk (d.origin path) (names path ++ voids) = .ok (d.place path) ∧
      d.HasDirectory (d.place path) := by
  obtain ⟨hlocate, hes⟩ := node_eq_ok_iff.1 h
  refine ⟨?_, es, hes⟩
  rw [walk_append (locate_eq_ok_iff.1 hlocate).2]
  exact walk_of_isVoidName ⟨es, hes⟩ hvoids

/-! ## Making directories -/

/-- A clear path stays clear when directories are made. -/
theorem IsClear.of_makes {paths : List String} (h : d.IsClear path) (hmakes : Makes paths d d') :
    d'.IsClear path := by
  have horigin : d'.origin path = d.origin path := by rw [origin, origin, hmakes.here_eq]
  refine ⟨?_, h.size_le, fun l hl => ?_⟩
  · rw [horigin]
    exact hmakes.hasDirectory h.hasDirectory_origin
  · rw [LeadsThrough, horigin] at hl
    rw [hmakes.fileAt?_eq]
    exact h.fileAt?_eq_none l hl

section Ends

variable (hends : EndsWith path ns name)
include hends

theorem EndsWith.trim_eq : (names path).reverse.dropWhile (· = "") = name :: ns.reverse := by
  obtain ⟨hname, blanks, hblanks, hnames⟩ := hends
  have hall : ∀ n ∈ blanks.reverse, decide (n = "") = true := fun n hn =>
    decide_eq_true (hblanks n (List.mem_reverse.1 hn))
  rw [hnames, List.reverse_append, List.reverse_cons, List.append_assoc,
    List.dropWhile_append_of_pos hall, List.singleton_append, List.dropWhile_cons_of_neg (by simpa)]

theorem EndsWith.target_of_missing (hpath : FileFault.ofPath? path = none)
    (h : d.walk (d.origin path) ns = .error .missing) : d.target path = .error .missing := by
  rw [target, hpath]
  dsimp only
  rw [hends.trim_eq]
  dsimp only
  rw [List.reverse_reverse, h]
  rfl

theorem EndsWith.target_of_walk (hpath : FileFault.ofPath? path = none)
    (hsize : Text.byteSize name.toList ≤ maxNameSize)
    (h : d.walk (d.origin path) ns = .ok l) (hl : d.HasDirectory l) :
    d.target path = .ok (d.place path) := by
  obtain ⟨es, hes⟩ : ∃ es, d.find? l = some (.directory es) := hl
  have htarget : ∃ m, d.target path = .ok m := by
    rw [target, hpath]
    dsimp only
    rw [hends.trim_eq]
    dsimp only
    rw [List.reverse_reverse, h, ok_bind, hes]
    dsimp only
    rw [if_neg (Nat.not_lt.2 hsize)]
    split_ifs <;> exact ⟨_, rfl⟩
  obtain ⟨m, hm⟩ := htarget
  rw [hm, eq_place_of_target hm]

/-- A directory where the path leads is found there, if the way to it is. -/
theorem EndsWith.node_of_walk {es : List (String × Node)} (hpath : FileFault.ofPath? path = none)
    (hsize : Text.byteSize name.toList ≤ maxNameSize)
    (h : d.walk (d.origin path) ns = .ok l) (hl : d.HasDirectory l)
    (hes : d.find? (d.place path) = some (.directory es)) : d.node path = .ok (.directory es) := by
  obtain ⟨-, blanks, hblanks, hnames⟩ := hends
  have hvoids : ∀ n ∈ blanks, IsVoidName n := fun n hn => Or.inl (hblanks n hn)
  have hplace : d.place path = follow l name := by
    rw [place, hnames, List.foldl_append, ← eq_of_walk h, List.foldl_cons,
      foldl_follow_of_empty hblanks]
  rw [hplace] at hes
  have hfile : d.fileAt? (follow l name) = none := by
    rw [fileAt?, hes]
    rfl
  have hfollows : d.Follows l name := by
    rcases follows_cases hl hsize hfile with ⟨hfollows, -⟩ | ⟨hnone, -⟩
    · exact hfollows
    · cases hnone.symm.trans hes
  refine node_eq_ok_iff.2 ⟨locate_eq_ok_iff.2 ⟨hpath, ?_⟩, by rw [hplace, hes]⟩
  rw [hnames, walk_append h, walk_cons_of_follows hfollows, hplace]
  exact walk_of_isVoidName ⟨es, hes⟩ hvoids

/-- A directory is made where the path leads, or one is there already. -/
theorem EndsWith.createDirectory [Host] (hpath : FileFault.ofPath? path = none)
    (hsize : Text.byteSize name.toList ≤ maxNameSize)
    (h : d.walk (d.origin path) ns = .ok l) (hl : d.HasDirectory l)
    (hfile : d.fileAt? (d.place path) = none) :
    ∃ answer d' es, (FileSystem.createDirectory path : StateM Disk _) d = (answer, d') ∧
      (answer = .ok () ∨ answer = .error .alreadyExists) ∧ d'.node path = .ok (.directory es) := by
  have htarget := hends.target_of_walk hpath hsize h hl
  cases hfind : d.find? (d.place path) with
  | none =>
    have hcreate : d.createDirectory path = .ok (d.put (d.place path) (.directory [])) := by
      rw [Disk.createDirectory, htarget, ok_bind, hfind]
    have hkeeps := (grows_of_createDirectory hcreate).toKeepsDirectories
    obtain ⟨-, -, hlook⟩ := look_createDirectory hcreate
    obtain ⟨es, hes⟩ : (d.put (d.place path) (.directory [])).HasDirectory (d.place path) := by
      rw [← look_eq_directory_iff, hlook, Function.update_self]
    refine ⟨.ok (), _, es, attempt_of_ok hcreate, Or.inl rfl, ?_⟩
    refine hends.node_of_walk hpath hsize ?_ (hkeeps.hasDirectory hl) ?_
    · rw [hkeeps.origin_eq]
      exact hkeeps.walk_eq_ok h hl
    · rw [hkeeps.place_eq]
      exact hes
  | some node =>
    rw [fileAt?, hfind] at hfile
    cases node with
    | file bytes => cases hfile
    | directory es =>
      have hcreate : d.createDirectory path = .error .alreadyExists := by
        rw [Disk.createDirectory, htarget, ok_bind, hfind]
      exact ⟨_, d, es, attempt_of_error hcreate, Or.inr rfl,
        hends.node_of_walk hpath hsize h hl hfind⟩

end Ends

section CreateDirectories

variable [Host] {paths outer : List String} {answer : Except FileFault Unit}
  {es : List (String × Node)} {d₁ : Disk}

theorem createDirectories_cons_of_missing
    (h : (FileSystem.createDirectory path : StateM Disk _) d = (.error .missing, d))
    (houter : (FileSystem.createDirectories outer : StateM Disk _) d = (.ok (), d₁))
    (h' : (FileSystem.createDirectory path : StateM Disk _) d₁ = (answer, d'))
    (hanswer : answer = .ok () ∨ answer = .error .alreadyExists)
    (hnode : d'.node path = .ok (.directory es)) :
    (FileSystem.createDirectories (path :: outer) : StateM Disk _) d = (.ok (), d') := by
  rw [FileSystem.createDirectories, bind_apply, h]
  dsimp only
  rw [bind_apply, houter]
  dsimp only
  rw [bind_apply, h']
  rcases hanswer with rfl | rfl
  · rfl
  · dsimp only
    rw [bind_apply, isDirectory_of_node hnode]
    rfl

/-- Paths that climb along a clear path can all be made directories: one that is missing on the way
is made before. -/
theorem Climbs.createDirectories (hclimbs : Climbs paths) (hclear : d.IsClear path)
    (hpath : FileFault.ofPath? path = none) (hne : path ≠ "")
    (hstart : ∀ a ∈ paths, a ≠ "" ∧ names a <+: names path) :
    ∃ d', (FileSystem.createDirectories paths : StateM Disk _) d = (.ok (), d') ∧
      ∀ a, paths.head? = some a → ∃ es, d'.node a = .ok (.directory es) := by
  induction paths with
  | nil => exact ⟨d, rfl, by simp⟩
  | cons a outer ih =>
    obtain ⟨⟨voids, name, hvoids, hends⟩, houter⟩ := hclimbs
    obtain ⟨⟨ha, hnames⟩, hstart⟩ := List.forall_mem_cons.1 hstart
    have hpathA := ofPath?_of_isPrefix ha hnames hpath
    have horigin : ∀ x : Disk, x.origin a = x.origin path := origin_eq_of_isPrefix ha hne hnames
    obtain ⟨-, blanks, -, hsplit⟩ := id hends
    have hfront : headNames outer ++ voids <+: names path :=
      (hsplit ▸ List.prefix_append _ _).trans hnames
    have hsize : Text.byteSize name.toList ≤ maxNameSize :=
      hclear.size_le name (hnames.subset (hsplit ▸ List.mem_append_right _ List.mem_cons_self))
    have hfile : ∀ x : Disk, x.IsClear path → x.fileAt? (x.place a) = none := fun x hx =>
      hx.fileAt?_eq_none _ ⟨names a, hnames, by rw [place, horigin]⟩
    rcases hclear.walk_cases hfront with ⟨hwalk, hl⟩ | hmissing
    · rw [← horigin] at hwalk hl
      obtain ⟨answer, d', es, hmade, hanswer, hnode⟩ :=
        hends.createDirectory hpathA hsize hwalk hl (hfile d hclear)
      exact ⟨d', createDirectories_cons_of_settled hmade hanswer hnode,
        fun b hb => Option.some.inj hb ▸ ⟨es, hnode⟩⟩
    · obtain ⟨d₁, hok, hhead⟩ := ih houter hstart
      have hclear₁ : d₁.IsClear path := by
        have hmakes := makes_createDirectories outer d
        rw [hok] at hmakes
        exact hclear.of_makes hmakes
      have hwalk : ∃ l, d₁.walk (d₁.origin a) (headNames outer ++ voids) = .ok l ∧
          d₁.HasDirectory l := by
        cases outer with
        | nil =>
          -- Void names cannot be missing.
          have hfound := walk_of_isVoidName hclear.hasDirectory_origin hvoids
          cases hfound.symm.trans hmissing
        | cons b outer =>
          obtain ⟨es, hes⟩ := hhead b rfl
          obtain ⟨hbne, hbstart⟩ := hstart b List.mem_cons_self
          have hb := walk_names_append hes hvoids
          rw [origin_eq_of_isPrefix hbne hne hbstart, ← horigin] at hb
          exact ⟨d₁.place b, hb⟩
      obtain ⟨l, hwalk, hl⟩ := hwalk
      obtain ⟨answer, d', es, hmade, hanswer, hnode⟩ :=
        hends.createDirectory hpathA hsize hwalk hl (hfile d₁ hclear₁)
      have hfails : (FileSystem.createDirectory a : StateM Disk _) d = (.error .missing, d) := by
        apply attempt_of_error
        rw [Disk.createDirectory, hends.target_of_missing hpathA (by rwa [horigin])]
        rfl
      exact ⟨d', createDirectories_cons_of_missing hfails hok hmade hanswer hnode,
        fun b hb => Option.some.inj hb ▸ ⟨es, hnode⟩⟩

/-- A directory can be made at the path: the way there is clear, and the path is not too long and
does not end in a dot. -/
structure Opens (d : Disk) (path : String) : Prop extends d.IsClear path where
  ofPath?_eq_none : FileFault.ofPath? path = none
  endsInName : EndsInName path

/-- The directory that a path leads to is made, with those that it leads through. -/
theorem Opens.createDirectoryAll (h : d.Opens path) :
    ∃ d' es, (FileSystem.createDirectoryAll path : StateM Disk _) d = (.ok (), d') ∧
      d'.node path = .ok (.directory es) := by
  have hne : path ≠ "" := by
    rintro rfl
    cases h.ofPath?_eq_none
  obtain ⟨d', hok, hhead⟩ := (climbs_ancestors h.endsInName).createDirectories h.toIsClear
    h.ofPath?_eq_none hne fun a ha => isPrefix_of_mem_ancestors ha
  rcases ancestors_cases path with ⟨hnil, hvoids⟩ | ⟨-, first, outer, houter, -⟩
  · obtain ⟨es, hes⟩ := h.hasDirectory_origin
    have hwalk := walk_of_isVoidName h.hasDirectory_origin hvoids
    have hplace : d.place path = d.origin path := (eq_of_walk hwalk).symm
    refine ⟨d, es, by rw [FileSystem.createDirectoryAll, hnil]; rfl, node_eq_ok_iff.2 ⟨?_, ?_⟩⟩
    · rw [hplace]
      exact locate_eq_ok_iff.2 ⟨h.ofPath?_eq_none, hwalk⟩
    · rw [hplace]
      exact hes
  · obtain ⟨es, hes⟩ := hhead path (by rw [houter]; rfl)
    exact ⟨d', es, hok, hes⟩

end CreateDirectories

/-! ## Files in a directory that can be made -/

theorem walk_append_of_error {e : FileFault} (h : d.walk l ns = .error e) (ns' : List String) :
    d.walk l (ns ++ ns') = .error e := by
  induction ns generalizing l with
  | nil => cases h
  | cons n ns ih =>
    rw [walk] at h
    rw [List.cons_append, walk]
    cases hfind : d.find? l with
    | none =>
      rw [hfind] at h
      exact h
    | some node =>
      rw [hfind] at h
      cases node with
      | file bytes => exact h
      | directory es =>
        dsimp only at h ⊢
        split_ifs at h ⊢
        · exact ih h
        · exact ih h
        · exact h
        · exact ih h
        · exact h

/-- The names before the last one of a path to an entry are those of the directory, up to empty
ones. -/
theorem names_eq_of_names_join (h : names (Path.join path name) = ns ++ [name])
    (hname : IsEntryName name) : ∃ blanks, (∀ n ∈ blanks, n = "") ∧ names path = ns ++ blanks := by
  obtain ⟨ms, hjoin, hms⟩ := names_join path hname.slash_notMem
  obtain rfl : ns = ms := List.append_cancel_right (h.symm.trans hjoin)
  rcases hms with hms | hms
  · exact ⟨[], by simp, by rw [hms, List.append_nil]⟩
  · exact ⟨[""], by simp, hms⟩

/-- Where a directory can be made, it is there already, or whatever would lie in it is missing. -/
theorem Opens.node_cases (h : d.Opens path) (hname : IsEntryName name) (hfits : Fits path name) :
    (∃ es, d.node path = .ok (.directory es)) ∨
      d.node (Path.join path name) = .error .missing := by
  obtain ⟨ns, hjoin, hplace, -⟩ := exists_names_join d path hname
  obtain ⟨blanks, hblanks, hnames⟩ := names_eq_of_names_join hjoin hname
  rcases h.walk_cases (hnames ▸ List.prefix_append ns blanks) with ⟨hwalk, hl⟩ | hmissing
  · left
    rw [hplace] at hwalk hl
    have hvoids : ∀ n ∈ blanks, IsVoidName n := fun n hn => Or.inl (hblanks n hn)
    obtain ⟨es, hes⟩ := id hl
    refine ⟨es, node_eq_ok_iff.2 ⟨locate_eq_ok_iff.2 ⟨h.ofPath?_eq_none, ?_⟩, hes⟩⟩
    rw [hnames, walk_append hwalk, walk_of_isVoidName hl hvoids]
  · right
    have hwalk := walk_append_of_error hmissing [name]
    rw [← hjoin, ← origin_join d path hname] at hwalk
    rw [Disk.node, locate, hfits.ofPath?_eq_none]
    dsimp only
    rw [hwalk]
    rfl

/-- Something that no entry of a directory is named by is missing. -/
theorem node_join_of_lookup_eq_none {es : List (String × Node)} (hname : IsEntryName name)
    (hfits : Fits path name) (hnode : d.node path = .ok (.directory es))
    (hnone : es.lookup name = none) : d.node (Path.join path name) = .error .missing := by
  obtain ⟨hlocate, hes⟩ := node_eq_ok_iff.1 hnode
  obtain ⟨ns, hjoin, -, hwalk⟩ := exists_names_join d path hname
  have hstart := hwalk _ (locate_eq_ok_iff.1 hlocate).2
  have hfile : d.fileAt? (follow (d.place path) name) = none := by
    rw [hname.follow, fileAt?, find?_append_singleton hes, hnone]
    rfl
  rcases follows_cases ⟨es, hes⟩ hfits.size_le hfile with ⟨-, es₁, hes₁⟩ | ⟨-, hmissing⟩
  · rw [hname.follow] at hes₁
    cases hnone.symm.trans ((find?_append_singleton hes name).symm.trans hes₁)
  · rw [Disk.node, locate, hfits.ofPath?_eq_none]
    dsimp only
    rw [hjoin, origin_join d path hname, walk_append hstart, hmissing]
    rfl

end Disk

end ErbTags
