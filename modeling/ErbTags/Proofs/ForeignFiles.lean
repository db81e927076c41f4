import ErbTags.Proofs.DirectoryStore
import ErbTags.Proofs.TreeViews

/-!
# Files of other programs in the directory

The directory of a store may hold files that the store has not written. Whatever is done with the
store, files outside of the directory, in directories below it, and files in it with another
extension are left alone (`Reaches.spares`). Clearing, however, goes by the extension only: it
removes all files of the directory that have the extension of an entry, and counts them
(`clearEntries_cases`). Files of other programs are safe from it exactly if those with that
extension have names such as a fingerprint gives (`clear_spares_iff`).
-/

namespace ErbTags

namespace Node

variable {es : List (String × Node)} {name : String} {bytes : ByteArray}

theorem mem_filesOf : (name, bytes) ∈ filesOf es ↔ (name, .file bytes) ∈ es := by
  rw [filesOf, List.mem_filterMap]
  constructor
  · rintro ⟨⟨n, node⟩, hmem, hfile⟩
    cases node with
    | directory _ => cases hfile
    | file _ =>
      cases hfile
      exact hmem
  · intro h
    exact ⟨_, h, rfl⟩

theorem names_filesOf_sublist (es : List (String × Node)) :
    ((filesOf es).map Prod.fst).Sublist (es.map Prod.fst) := by
  induction es with
  | nil => exact List.Sublist.refl _
  | cons e es ih =>
    obtain ⟨n, node⟩ := e
    cases node with
    | file _ => exact ih.cons_cons n
    | directory _ => exact ih.cons n

theorem mem_filesOf_set {e : String × ByteArray}
    (h : e ∈ filesOf (Entries.set name (.file bytes) es)) : e.1 = name ∨ e ∈ filesOf es := by
  induction es with
  | nil =>
    rw [Entries.set, filesOf_cons_file] at h
    rcases List.mem_cons.1 h with rfl | h
    · exact Or.inl rfl
    · exact Or.inr h
  | cons first es ih =>
    obtain ⟨n, old⟩ := first
    have hsubset : filesOf es ⊆ filesOf ((n, old) :: es) := by
      cases old with
      | file _ => exact List.subset_cons_self _ _
      | directory _ => exact List.Subset.refl _
    rw [Entries.set] at h
    split at h
    · rw [filesOf_cons_file] at h
      rcases List.mem_cons.1 h with rfl | h
      · exact Or.inl rfl
      · exact Or.inr (hsubset h)
    · cases old with
      | file _ =>
        rw [filesOf_cons_file] at h ⊢
        rcases List.mem_cons.1 h with rfl | h
        · exact Or.inr List.mem_cons_self
        · exact (ih h).imp_right (List.mem_cons_of_mem _)
      | directory _ => exact ih h

end Node

/-! ## Removing files of one directory -/

namespace Disk

section Loses

variable {d d₁ d' : Disk} {l : Location} {path name : String} {names : List String}

/-- A file of this name lies in the directory that the path leads to. -/
def Holds (d : Disk) (path name : String) : Prop :=
  ∃ es bytes, d.node path = .ok (.directory es) ∧ es.lookup name = some (.file bytes)

/-- Files of these names are gone from a directory, and nothing else happened. -/
structure Loses (l : Location) (names : List String) (d d' : Disk) : Prop where
  here_eq : d'.here = d.here
  nodup : names.Nodup
  isSome_fileAt? : ∀ name ∈ names, (d.fileAt? (l ++ [name])).isSome
  look_eq : ∀ m, d'.look m = if ∃ name ∈ names, m = l ++ [name] then none else d.look m
  filesAt_subset : d'.filesAt l ⊆ d.filesAt l

theorem Loses.nil (l : Location) (d : Disk) : Loses l [] d d where
  here_eq := rfl
  nodup := List.nodup_nil
  isSome_fileAt? := by simp
  look_eq := by simp
  filesAt_subset := List.Subset.refl _

theorem Loses.fileAt?_eq (h : Loses l names d d') (m : Location) :
    d'.fileAt? m = if ∃ name ∈ names, m = l ++ [name] then none else d.fileAt? m := by
  rw [fileAt?_eq_bind, fileAt?_eq_bind, h.look_eq]
  split <;> rfl

theorem Loses.hasDirectory_iff (h : Loses l names d d') {m : Location} :
    d'.HasDirectory m ↔ d.HasDirectory m := by
  rw [← look_eq_directory_iff, ← look_eq_directory_iff, h.look_eq]
  split
  case isTrue hgone =>
    obtain ⟨name, hname, rfl⟩ := hgone
    have hfile := h.isSome_fileAt? name hname
    rw [fileAt?_eq_bind] at hfile
    constructor
    · intro hnone
      cases hnone
    · intro hdirectory
      rw [hdirectory] at hfile
      cases hfile
  case isFalse => exact Iff.rfl

theorem Loses.keepsDirectories (h : Loses l names d d') : d.KeepsDirectories d' :=
  ⟨h.here_eq, h.hasDirectory_iff.2⟩

theorem loses_removeFile (hname : IsEntryName name)
    (h : d.removeFile (Path.join path name) = .ok d') : Loses (d.place path) [name] d d' := by
  obtain ⟨⟨bytes, hfile⟩, hhere, hlook⟩ := look_removeFile hname h
  obtain ⟨es, -, hes, -, hes', -⟩ := removeFile_ok hname h
  refine ⟨hhere, List.nodup_singleton name, fun n hn => ?_, fun m => ?_, ?_⟩
  · rw [List.mem_singleton.1 hn, fileAt?_eq_bind, hfile]
    rfl
  · rw [hlook, Function.update_apply]
    simp
  · rw [filesAt_of_find? hes, filesAt_of_find? hes',
      Node.filesOf_filter fun n => decide (n ≠ name)]
    exact fun e he => List.mem_of_mem_filter he

theorem Loses.trans {names' : List String} (h : Loses l names d d₁) (h' : Loses l names' d₁ d') :
    Loses l (names ++ names') d d' := by
  -- What is gone already cannot be lost again.
  have hgone : ∀ name ∈ names', name ∉ names ∧ (d.fileAt? (l ++ [name])).isSome := by
    intro name hname
    have hsome := h'.isSome_fileAt? name hname
    rw [h.fileAt?_eq] at hsome
    split at hsome
    case isTrue => cases hsome
    case isFalse hnot => exact ⟨fun hmem => hnot ⟨name, hmem, rfl⟩, hsome⟩
  refine ⟨h'.here_eq.trans h.here_eq, ?_, fun name hname => ?_, fun m => ?_,
    List.Subset.trans h'.filesAt_subset h.filesAt_subset⟩
  · rw [List.nodup_append]
    refine ⟨h.nodup, h'.nodup, fun a ha b hb => ?_⟩
    rintro rfl
    exact (hgone a hb).1 ha
  · rcases List.mem_append.1 hname with hname | hname
    · exact h.isSome_fileAt? name hname
    · exact (hgone name hname).2
  · have hiff : (∃ name ∈ names ++ names', m = l ++ [name]) ↔
        (∃ name ∈ names', m = l ++ [name]) ∨ ∃ name ∈ names, m = l ++ [name] := by
      simp only [List.mem_append, or_and_right, exists_or, or_comm]
    rw [h'.look_eq, h.look_eq]
    by_cases hin' : ∃ name ∈ names', m = l ++ [name]
    · rw [if_pos hin', if_pos (hiff.2 (Or.inl hin'))]
    · by_cases hin : ∃ name ∈ names, m = l ++ [name]
      · rw [if_neg hin', if_pos hin, if_pos (hiff.2 (Or.inr hin))]
      · rw [if_neg hin', if_neg hin, if_neg fun h => (hiff.1 h).elim hin' hin]

end Loses

end Disk

namespace CacheDirectory

section Clearing

variable {c : CacheDirectory} {d d' : Disk} {path : String} {names : List String}
  {es : List (String × Node)}

/-- Files are removed one after the other, up to the first that cannot be removed. -/
theorem removeAll_cases [Host] (hnames : ∀ name ∈ names, Disk.IsEntryName name) (d : Disk) :
    ∃ front back answer d', names = front ++ back ∧
      (removeAll (names.map (Path.join path)) : StateM Disk _) d = (answer, d') ∧
      Disk.Loses (d.place path) front d d' ∧ (answer = .ok () → back = []) := by
  induction names generalizing d with
  | nil => exact ⟨[], [], .ok (), d, rfl, rfl, Disk.Loses.nil _ d, fun _ => rfl⟩
  | cons name names ih =>
    obtain ⟨hname, hnames⟩ := List.forall_mem_cons.1 hnames
    have happly : (FileSystem.removeFile (Path.join path name) : StateM Disk _) d =
        Disk.attempt (·.removeFile (Path.join path name)) d := rfl
    rw [List.map_cons, removeAll, Disk.bind_apply, happly]
    cases hremove : d.removeFile (Path.join path name) with
    | error e =>
      rw [Disk.attempt_of_error hremove]
      refine ⟨[], name :: names, _, d, rfl, rfl, Disk.Loses.nil _ d, fun hok => ?_⟩
      cases hok
    | ok d₁ =>
      rw [Disk.attempt_of_ok hremove]
      have hloses := Disk.loses_removeFile hname hremove
      obtain ⟨front, back, answer, d', rfl, hrest, hloses', hback⟩ := ih hnames d₁
      rw [Disk.place_eq_of_here hloses.here_eq] at hloses'
      exact ⟨name :: front, back, answer, d', rfl, hrest, hloses.trans hloses', hback⟩

/-- Files of a directory can be removed if their paths are not too long. -/
theorem exists_removeAll_ok [Host] (hnode : d.node path = .ok (.directory es))
    (hnodup : names.Nodup)
    (hnames : ∀ name ∈ names, Disk.IsEntryName name ∧ Disk.Fits path name ∧
      ∃ bytes, es.lookup name = some (.file bytes)) :
    ∃ d', (removeAll (names.map (Path.join path)) : StateM Disk _) d = (.ok (), d') := by
  induction names generalizing d es with
  | nil => exact ⟨d, rfl⟩
  | cons name names ih =>
    obtain ⟨⟨hname, hfits, bytes, hfile⟩, hnames⟩ := List.forall_mem_cons.1 hnames
    obtain ⟨hnotMem, hnodup⟩ := List.nodup_cons.1 hnodup
    have hremove := Disk.removeFile_join hname hfits hnode hfile
    have happly : (FileSystem.removeFile (Path.join path name) : StateM Disk _) d =
        (.ok (), d.remove (d.place path ++ [name])) :=
      Disk.attempt_of_ok hremove
    obtain ⟨hes', hkeeps⟩ := Disk.remove_entry (Disk.node_eq_ok_iff.1 hnode).2 name
      fun es₁ hes₁ => (by cases hfile.symm.trans hes₁)
    rw [List.map_cons, removeAll, Disk.bind_apply, happly]
    refine ih (hkeeps.node_eq hnode hes') hnodup fun other hother => ?_
    obtain ⟨hentry, hfits', bytes', hfile'⟩ := hnames other hother
    have hne : other ≠ name := fun h => hnotMem (h ▸ hother)
    exact ⟨hentry, hfits', bytes', by rw [Entries.lookup_filter_ne, if_neg hne, hfile']⟩

/-- The names of the files that clearing takes for entries. -/
def entryNames (c : CacheDirectory) (d : Disk) : List String :=
  (d.fileNames c.path).filter (Path.extension? · = some entryExtension)

theorem clearEntries_of_ok [Host]
    (h : (removeAll ((c.entryNames d).map (Path.join c.path)) : StateM Disk _) d = (.ok (), d')) :
    (c.clearEntries : StateM Disk _) d = (.ok (c.entryNames d).length, d') := by
  rw [clearEntries, Disk.bind_apply, entries_apply, Disk.bind_apply]
  dsimp only [entriesOn]
  rw [entryNames] at h ⊢
  rw [h, List.length_map]
  rfl

theorem clearEntries_of_error [Host] {e : CacheFault}
    (h : (removeAll ((c.entryNames d).map (Path.join c.path)) : StateM Disk _) d = (.error e, d')) :
    (c.clearEntries : StateM Disk _) d = (.error e, d') := by
  rw [clearEntries, Disk.bind_apply, entries_apply, Disk.bind_apply]
  dsimp only [entriesOn]
  rw [entryNames] at h
  rw [h]
  rfl

/-- The files of the directory have names that a path can end in. -/
def Tidy (c : CacheDirectory) (d : Disk) : Prop :=
  ∀ e ∈ d.filesAt (d.place c.path), '/' ∉ e.1.toList

theorem isEntryName_of_extension? {name extension : String} (hslash : '/' ∉ name.toList)
    (h : Path.extension? name = some extension) : Disk.IsEntryName name where
  slash_notMem := hslash
  ne_empty := by
    rintro rfl
    cases h
  ne_dot := by
    rintro rfl
    cases h
  ne_dotDot := by
    rintro rfl
    cases h

theorem extension?_of_mem_entryNames {name : String} (h : name ∈ c.entryNames d) :
    Path.extension? name = some entryExtension := by
  have hextension := (List.mem_filter.1 h).2
  exact of_decide_eq_true hextension

theorem Tidy.isEntryName (h : c.Tidy d) : ∀ name ∈ c.entryNames d, Disk.IsEntryName name := by
  intro name hname
  refine isEntryName_of_extension? ?_ (extension?_of_mem_entryNames hname)
  have hlisted := (List.mem_filter.1 hname).1
  by_cases hnode : ∃ es, d.node c.path = .ok (.directory es)
  · obtain ⟨es, hes⟩ := hnode
    rw [fileNames_of_node hes, ← Disk.filesAt_of_find? (Disk.node_eq_ok_iff.1 hes).2] at hlisted
    obtain ⟨e, he, rfl⟩ := List.mem_map.1 hlisted
    exact h e he
  · rw [fileNames_eq_nil (not_exists.1 hnode)] at hlisted
    cases hlisted

/-- A file that the directory holds is listed, and what is listed is in the directory. -/
theorem mem_entryNames_of_holds {name : String} (h : d.Holds c.path name)
    (hextension : Path.extension? name = some entryExtension) : name ∈ c.entryNames d := by
  obtain ⟨es, bytes, hnode, hfile⟩ := h
  refine List.mem_filter.2 ⟨?_, decide_eq_true hextension⟩
  rw [fileNames_of_node hnode]
  exact List.mem_map.2 ⟨_, Node.mem_filesOf.2 (Entries.mem_of_lookup hfile), rfl⟩

theorem holds_of_mem_entryNames {name : String} (h : name ∈ c.entryNames d)
    (hfile : (d.fileAt? (d.place c.path ++ [name])).isSome) : d.Holds c.path name := by
  have hlisted := (List.mem_filter.1 h).1
  by_cases hnode : ∃ es, d.node c.path = .ok (.directory es)
  · obtain ⟨es, hes⟩ := hnode
    rw [Disk.fileAt?, Disk.find?_append_singleton (Disk.node_eq_ok_iff.1 hes).2] at hfile
    obtain ⟨bytes, hbytes⟩ := Option.isSome_iff_exists.1 hfile
    obtain ⟨node, hlookup, hnodeBytes⟩ := Option.bind_eq_some_iff.1 hbytes
    cases node with
    | directory _ => cases hnodeBytes
    | file bytes' => exact ⟨es, bytes', hes, hlookup⟩
  · rw [fileNames_eq_nil (not_exists.1 hnode)] at hlisted
    cases hlisted

/-- Clearing removes some of the files that it takes for entries; if it succeeds, it removes them
all and gives their number. -/
theorem clearEntries_cases [Host] (h : c.Tidy d) :
    ∃ front back answer d', c.entryNames d = front ++ back ∧
      (c.clearEntries : StateM Disk _) d = (answer, d') ∧
      Disk.Loses (d.place c.path) front d d' ∧
      ∀ n, answer = .ok n → back = [] ∧ n = front.length := by
  obtain ⟨front, back, answer, d', hnames, hremove, hloses, hback⟩ :=
    removeAll_cases h.isEntryName d
  cases answer with
  | error e =>
    refine ⟨front, back, _, d', hnames, clearEntries_of_error hremove, hloses, fun n hn => ?_⟩
    cases hn
  | ok _ =>
    refine ⟨front, back, _, d', hnames, clearEntries_of_ok hremove, hloses, fun n hn => ?_⟩
    cases hn
    rw [hnames, hback rfl, List.append_nil]
    exact ⟨rfl, rfl⟩

theorem exists_clearEntries_ok [Host] (h : c.Tidy d) (hnode : d.node c.path = .ok (.directory es))
    (hnodup : (es.map Prod.fst).Nodup)
    (hfits : ∀ name, d.Holds c.path name → Disk.Fits c.path name) :
    ∃ n d', (c.clearEntries : StateM Disk _) d = (.ok n, d') := by
  have hlisted : ∀ name ∈ c.entryNames d, ∃ bytes, es.lookup name = some (.file bytes) := by
    intro name hname
    have hmem := (List.mem_filter.1 hname).1
    rw [fileNames_of_node hnode] at hmem
    obtain ⟨e, he, rfl⟩ := List.mem_map.1 hmem
    exact ⟨e.2, Entries.lookup_of_mem hnodup (Node.mem_filesOf.1 he)⟩
  have hnames : (c.entryNames d).Nodup := by
    rw [entryNames, fileNames_of_node hnode]
    exact List.Nodup.filter _ (List.Nodup.sublist (Node.names_filesOf_sublist es) hnodup)
  obtain ⟨d', hremove⟩ := exists_removeAll_ok hnode hnames fun name hname => by
    obtain ⟨bytes, hbytes⟩ := hlisted name hname
    exact ⟨h.isEntryName name hname, hfits name ⟨es, bytes, hnode, hbytes⟩, bytes, hbytes⟩
  exact ⟨_, d', clearEntries_of_ok hremove⟩

end Clearing

/-! ## Sequences of operations -/

section Spares

variable {c : CacheDirectory} {p : String → Prop} {d d₁ d' : Disk}

/-- The disks that reading, writing and clearing lead to, whether they succeed or fail. -/
inductive Reaches [Host] (c : CacheDirectory) (d : Disk) : Disk → Prop
  | start : Reaches c d d
  | read {x : Disk} (key : CacheKey) :
    Reaches c d x → Reaches c d ((c.read key : StateM Disk _) x).2
  | write {x : Disk} (key : CacheKey) (text : String) :
    Reaches c d x → Reaches c d ((c.write key text : StateM Disk _) x).2
  | clearEntries {x : Disk} : Reaches c d x → Reaches c d ((c.clearEntries : StateM Disk _) x).2

/-- Only files in the directory with some of the names have changed. -/
structure Spares (c : CacheDirectory) (p : String → Prop) (d d' : Disk) : Prop where
  here_eq : d'.here = d.here
  fileAt?_eq : ∀ l, (∀ name, l = d.place c.path ++ [name] → ¬ p name) → d'.fileAt? l = d.fileAt? l

theorem Spares.refl (c : CacheDirectory) (p : String → Prop) (d : Disk) : c.Spares p d d :=
  ⟨rfl, fun _ _ => rfl⟩

theorem Spares.trans (h : c.Spares p d d₁) (h' : c.Spares p d₁ d') : c.Spares p d d' := by
  refine ⟨h'.here_eq.trans h.here_eq, fun l hl => ?_⟩
  have hplace := Disk.place_eq_of_here h.here_eq c.path
  rw [h'.fileAt?_eq l (fun name hname => hl name (hplace ▸ hname)), h.fileAt?_eq l hl]

theorem Spares.fileAt?_entry {name : String} (h : c.Spares p d d') (hname : ¬ p name) :
    d'.fileAt? (d.place c.path ++ [name]) = d.fileAt? (d.place c.path ++ [name]) := by
  apply h.fileAt?_eq
  intro other hother hp
  obtain rfl : name = other := List.singleton_inj.1 (List.append_cancel_left hother)
  exact hname hp

/-- Removing files spares the others exactly if only files with some of the names are removed. -/
theorem spares_iff_of_loses {names : List String} (h : Disk.Loses (d.place c.path) names d d') :
    c.Spares p d d' ↔ ∀ name ∈ names, p name := by
  constructor
  · intro hspares name hname
    by_contra hnot
    have hfile := h.isSome_fileAt? name hname
    rw [← hspares.fileAt?_entry hnot, h.fileAt?_eq, if_pos ⟨name, hname, rfl⟩] at hfile
    cases hfile
  · intro hnames
    refine ⟨h.here_eq, fun l hl => ?_⟩
    rw [h.fileAt?_eq, if_neg]
    rintro ⟨name, hname, hplace⟩
    exact hl name hplace (hnames name hname)

/-- The files that clearing takes for entries have only some of the names. -/
def ClearsOnly (c : CacheDirectory) (p : String → Prop) (d : Disk) : Prop :=
  ∀ name, (d.fileAt? (d.place c.path ++ [name])).isSome →
    Path.extension? name = some entryExtension → p name

/-- No file of another name can have come into the directory. -/
theorem ClearsOnly.of_spares (h : c.ClearsOnly p d) (hspares : c.Spares p d d') :
    c.ClearsOnly p d' := by
  intro name hfile hextension
  by_contra hname
  rw [Disk.place_eq_of_here hspares.here_eq, hspares.fileAt?_entry hname] at hfile
  exact hname (h name hfile hextension)

theorem spares_write [Host] (hp : ∀ displayed, p (entryName displayed)) (key : CacheKey)
    (text : String) (h : c.Tidy d) :
    c.Spares p d ((c.write key text : StateM Disk _) d).2 ∧
      c.Tidy ((c.write key text : StateM Disk _) d).2 := by
  have hmakes : d.Makes (Path.ancestors c.path) (c.opened d) := Disk.makes_createDirectories _ d
  have hgrows : d.Grows (c.opened d) := Disk.grows_createDirectories _ d
  have hcases := write_cases c key text d
  generalize c.opened d = d₁ at hmakes hgrows hcases
  have hspares : c.Spares p d d₁ := ⟨hmakes.here_eq, fun l _ => hmakes.fileAt?_eq l⟩
  have htidy : c.Tidy d₁ := by
    rw [Tidy, hgrows.place_eq, hgrows.filesAt_eq]
    exact h
  rcases hcases with ⟨e, hwrite⟩ | ⟨es, hnode, hnot, -, hwrite⟩
  · rw [hwrite]
    exact ⟨hspares, htidy⟩
  · have hentry := isEntryName_entryName key.display
    have hes := (Disk.node_eq_ok_iff.1 hnode).2
    have hbare : (Node.file text.toByteArray).entries = [] := rfl
    have hlook := Disk.look_put_entry hes _ hnot hbare
    obtain ⟨hput, hkeeps⟩ := Disk.put_entry hes _ hnot (.file text.toByteArray)
    rw [hwrite, entryPath_eq, Disk.place_join d₁ c.path hentry]
    refine ⟨hspares.trans ⟨rfl, fun l hl => ?_⟩, ?_⟩
    · have hne : l ≠ d₁.place c.path ++ [entryName key.display] := fun hl' =>
        hl (entryName key.display) hl' (hp key.display)
      rw [Disk.fileAt?_eq_bind, Disk.fileAt?_eq_bind, hlook, Function.update_of_ne hne]
    · rw [Tidy, hkeeps.place_eq, Disk.filesAt_of_find? hput]
      intro e he
      rcases Node.mem_filesOf_set he with hname | hold
      · rw [hname]
        exact hentry.slash_notMem
      · rw [← Disk.filesAt_of_find? hes] at hold
        exact htidy e hold

theorem spares_clearEntries [Host] (hp : c.ClearsOnly p d) (h : c.Tidy d) :
    c.Spares p d ((c.clearEntries : StateM Disk _) d).2 ∧
      c.Tidy ((c.clearEntries : StateM Disk _) d).2 := by
  obtain ⟨front, back, answer, d', hnames, hclear, hloses, -⟩ := clearEntries_cases h
  rw [hclear]
  refine ⟨(spares_iff_of_loses hloses).2 fun name hname => ?_, fun e he => ?_⟩
  · have hlisted : name ∈ c.entryNames d := hnames ▸ List.mem_append_left back hname
    exact hp name (hloses.isSome_fileAt? name hname) (extension?_of_mem_entryNames hlisted)
  · rw [Disk.place_eq_of_here hloses.here_eq] at he
    exact h e (hloses.filesAt_subset he)

/-- Along any sequence of operations, the files that may change have names that the store gives, or
that clearing took for entries at the start. -/
theorem Reaches.spares [Host] (h : c.Reaches d d') (hwrites : ∀ displayed, p (entryName displayed))
    (hclears : c.ClearsOnly p d) (htidy : c.Tidy d) : c.Spares p d d' ∧ c.Tidy d' := by
  induction h with
  | start => exact ⟨Spares.refl c p d, htidy⟩
  | read key _ ih =>
    rw [snd_read]
    exact ih
  | write key text _ ih =>
    obtain ⟨hspares, htidy'⟩ := spares_write hwrites key text ih.2
    exact ⟨ih.1.trans hspares, htidy'⟩
  | clearEntries _ ih =>
    obtain ⟨hspares, htidy'⟩ := spares_clearEntries (hclears.of_spares ih.1) ih.2
    exact ⟨ih.1.trans hspares, htidy'⟩

end Spares

/-! ## Names of entries -/

section Names

variable {c : CacheDirectory} {d d₁ : Disk}

/-- A name such as the store gives: 64 hexadecimal digits and the extension. -/
def IsFingerprintName (name : String) : Prop :=
  ∃ digits : Text, name.toList = digits ++ ".erb".toList ∧ digits.length = 64 ∧
    ∀ x ∈ digits, isHexDigit x

theorem isFingerprintName_entryName (displayed : String) :
    IsFingerprintName (entryName displayed) :=
  ⟨_, toList_entryName displayed, length_fingerprint displayed,
    fun _ => isHexDigit_of_mem_fingerprint⟩

theorem IsFingerprintName.extension?_eq {name : String} (h : IsFingerprintName name) :
    Path.extension? name = some entryExtension := by
  obtain ⟨digits, hname, hlength, -⟩ := h
  apply extension?_of_toList hname
  rw [← List.length_pos_iff, hlength]
  decide

/-- Whatever was done with the store before, clearing removes exactly the files in the directory
that have the extension of an entry, and gives their number. So it leaves other files alone, and
removes exactly the entries, if and only if no other file in the directory has that extension; and
if none had it at first, none is ever lost. -/
theorem clear_spares_iff [Host] (c : CacheDirectory) (d d₁ : Disk) (htidy : c.Tidy d)
    (hreach : c.Reaches d d₁) :
    (∀ key, ∃ name, IsFingerprintName name ∧ d.place (c.entryPath key) = d.place c.path ++ [name]) ∧
      c.Spares (Path.extension? · = some entryExtension) d d₁ ∧
      (c.ClearsOnly IsFingerprintName d → c.Spares IsFingerprintName d d₁) ∧
      (∀ n d₂, (c.clearEntries : StateM Disk _) d₁ = (.ok n, d₂) →
        ∃ names : List String, names.Nodup ∧ names.length = n ∧
          (∀ name, name ∈ names ↔
            d₁.Holds c.path name ∧ Path.extension? name = some entryExtension) ∧
          (∀ l, d₂.look l =
            if ∃ name ∈ names, l = d.place c.path ++ [name] then none else d₁.look l) ∧
          (c.Spares IsFingerprintName d₁ d₂ ↔ ∀ name ∈ names, IsFingerprintName name) ∧
          ((∀ name, name ∈ names ↔ d₁.Holds c.path name ∧ IsFingerprintName name) ↔
            ∀ name ∈ names, IsFingerprintName name)) ∧
      ∀ es, d₁.node c.path = .ok (.directory es) → (es.map Prod.fst).Nodup →
        (∀ name, d₁.Holds c.path name → Disk.Fits c.path name) →
        ∃ n d₂, (c.clearEntries : StateM Disk _) d₁ = (.ok n, d₂) := by
  obtain ⟨hspares, htidy₁⟩ :=
    hreach.spares extension?_entryName (fun name _ hextension => hextension) htidy
  refine ⟨fun key => ?_, hspares, fun honly => ?_, fun n d₂ hclear => ?_, fun es hnode => ?_⟩
  · exact ⟨_, isFingerprintName_entryName key.display,
      Disk.place_join d c.path (isEntryName_entryName key.display)⟩
  · exact (hreach.spares isFingerprintName_entryName honly htidy).1
  · obtain ⟨names, back, answer, d', hnames, hclear', hloses, hback⟩ := clearEntries_cases htidy₁
    obtain ⟨rfl, rfl⟩ := Prod.mk.inj (hclear.symm.trans hclear')
    obtain ⟨rfl, rfl⟩ := hback n rfl
    rw [List.append_nil] at hnames
    have hplace := Disk.place_eq_of_here hspares.here_eq c.path
    have hmem : ∀ name, name ∈ names ↔
        d₁.Holds c.path name ∧ Path.extension? name = some entryExtension := by
      intro name
      rw [← hnames]
      constructor
      · intro hname
        have hfile := hloses.isSome_fileAt? name (hnames ▸ hname)
        exact ⟨holds_of_mem_entryNames hname hfile, extension?_of_mem_entryNames hname⟩
      · rintro ⟨hholds, hextension⟩
        exact mem_entryNames_of_holds hholds hextension
    refine ⟨names, hloses.nodup, rfl, hmem, hplace ▸ hloses.look_eq, spares_iff_of_loses hloses,
      ⟨fun h name hname => ((h name).1 hname).2, fun h name => ?_⟩⟩
    · rw [hmem]
      constructor
      · rintro ⟨hholds, hextension⟩
        exact ⟨hholds, h name ((hmem name).2 ⟨hholds, hextension⟩)⟩
      · rintro ⟨hholds, hname⟩
        exact ⟨hholds, hname.extension?_eq⟩
  · exact exists_clearEntries_ok htidy₁ hnode

/-- The files of other programs lie in the directory and below it; clearing after a write removes
what was written. -/
theorem clear_spares_iff_nested :
    let c : CacheDirectory := ⟨"./cache"⟩
    let d : Disk := ⟨.directory [("cache", .directory [("notes.txt", .file "mine".toByteArray),
      ("old.erb", .directory [("page.erb", .file "mine".toByteArray)])])], []⟩
    let d₁ := ((c.write ⟨"", "", ""⟩ "x" : StateM Disk _) d).2
    c.Tidy d ∧ c.Reaches d d₁ ∧ c.Spares (Path.extension? · = some entryExtension) d d₁ ∧
      ∃ d₂, (c.clearEntries : StateM Disk _) d₁ = (.ok 1, d₂) ∧
        ∃ names : List String, names.length = 1 ∧
          (∀ name, name ∈ names ↔
            d₁.Holds c.path name ∧ Path.extension? name = some entryExtension) ∧
          ∀ l, d₂.look l =
            if ∃ name ∈ names, l = d.place c.path ++ [name] then none else d₁.look l := by
  intro c d d₁
  have htidy : c.Tidy d := by
    intro e he
    have hfiles : d.filesAt (d.place c.path) = [("notes.txt", "mine".toByteArray)] := by
      decide +kernel
    rw [hfiles, List.mem_singleton] at he
    rw [he]
    decide
  have hreach : c.Reaches d d₁ := Reaches.start.write _ _
  have hclear : (c.clearEntries : StateM Disk _) d₁ =
      (.ok 1, ((c.clearEntries : StateM Disk _) d₁).2) :=
    Prod.ext (by decide +kernel) rfl
  obtain ⟨-, hspares, -, hclears, -⟩ := clear_spares_iff c d d₁ htidy hreach
  obtain ⟨names, -, hlength, hmem, hlook, -⟩ := hclears _ _ hclear
  exact ⟨htidy, hreach, hspares, _, hclear, names, hlength, hmem, hlook⟩

/-- A template of another program that lies in the directory is removed as if it were an entry. -/
theorem clear_removes_foreign :
    let c : CacheDirectory := ⟨"cache"⟩
    let d : Disk :=
      ⟨.directory [("cache", .directory [("page.erb", .file "mine".toByteArray)])], []⟩
    let d' := ((c.clearEntries : StateM Disk _) d).2
    ¬ IsFingerprintName "page.erb" ∧ d.place c.path = ["cache"] ∧
      d.fileAt? ["cache", "page.erb"] = some "mine".toByteArray ∧
      ((c.clearEntries : StateM Disk _) d).1 = .ok 1 ∧ d'.fileAt? ["cache", "page.erb"] = none := by
  refine ⟨?_, by decide +kernel⟩
  rintro ⟨digits, hname, hlength, -⟩
  have hlength' := congrArg List.length hname
  rw [List.length_append, hlength] at hlength'
  exact absurd hlength' (by decide)

end Names

end CacheDirectory

end ErbTags
