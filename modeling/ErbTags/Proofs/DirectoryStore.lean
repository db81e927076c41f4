import ErbTags.Cache.Directory
import ErbTags.Proofs.FileChanges

/-!
# The directory store on a disk

The file of a key is named by a fingerprint, so it lies directly in the directory of the store,
whatever the key is made of (`isEntryName_entryName`). What each operation of the store does to the
entries of that directory is told here. A write makes directories, makes a temporary file, writes
its text there and moves the file to its place, each of which can fail when the ones before have
changed the disk already; all the ways that it can go are told by `write_cases`. A write that
succeeds sets one entry (`write_ok`), and clearing that succeeds takes out the files of compiled
templates (`clear_ok`).
-/

namespace ErbTags

/-! ## Names of files -/

/-- The digits of a fingerprint. -/
def isHexDigit (c : Char) : Bool := "0123456789abcdef".toList.contains c

theorem Sha256.isHexDigit_of_mem_hexDigits {c : Char} {n x : Nat} (h : c ∈ hexDigits n x) :
    isHexDigit c := by
  induction n generalizing x with
  | zero => exact absurd h List.not_mem_nil
  | succ n ih =>
    rw [hexDigits, List.mem_append, List.mem_singleton] at h
    rcases h with h | rfl
    · exact ih h
    · have hdigits : ∀ i < 16, isHexDigit (Nat.digitChar i) := by decide
      exact hdigits _ (Nat.mod_lt x (by decide))

theorem isHexDigit_of_mem_fingerprint {source : String} {c : Char}
    (h : c ∈ (fingerprint source).toList) : isHexDigit c := by
  rw [fingerprint, String.toList_ofList, Sha256.Digest.hex, List.mem_flatMap] at h
  obtain ⟨w, -, hc⟩ := h
  exact Sha256.isHexDigit_of_mem_hexDigits hc

theorem fromUTF8?_toByteArray (text : String) : String.fromUTF8? text.toByteArray = some text :=
  dif_pos text.isValidUTF8

namespace CacheDirectory

/-- The name of the file for a displayed key. -/
def entryName (displayed : String) : String := fingerprint displayed ++ "." ++ entryExtension

theorem entryPath_eq (c : CacheDirectory) (key : CacheKey) :
    c.entryPath key = Path.join c.path (entryName key.display) := rfl

theorem toList_entryName (displayed : String) :
    (entryName displayed).toList = (fingerprint displayed).toList ++ ".erb".toList := by
  rw [entryName, String.toList_append, String.toList_append, List.append_assoc]
  rfl

theorem isEntryName_entryName (displayed : String) : Disk.IsEntryName (entryName displayed) := by
  apply Disk.IsEntryName.of_length
  · rw [toList_entryName, List.mem_append]
    rintro (h | h)
    · exact absurd (isHexDigit_of_mem_fingerprint h) (by decide)
    · exact absurd h (by decide)
  · have hlength : ".erb".toList.length = 4 := rfl
    rw [toList_entryName, List.length_append]
    omega

theorem extension?_of_toList {name : String} {t : Text} (h : name.toList = t ++ ".erb".toList)
    (hne : t ≠ []) : Path.extension? name = some entryExtension := by
  have hreversed : name.toList.reverse = 'b' :: 'r' :: 'e' :: '.' :: t.reverse := by
    have hend : ".erb".toList.reverse = ['b', 'r', 'e', '.'] := by decide
    rw [h, List.reverse_append, hend]
    simp only [List.cons_append, List.nil_append]
  have hdots : name ≠ ".." := by
    rintro rfl
    cases hreversed
  simp [Path.extension?, hreversed, hne, hdots, entryExtension]

theorem extension?_entryName (displayed : String) :
    Path.extension? (entryName displayed) = some entryExtension := by
  apply extension?_of_toList (toList_entryName displayed)
  rw [← List.length_pos_iff, length_fingerprint]
  decide

/-! ## Files of a directory -/

section Files

variable {c : CacheDirectory} {key : CacheKey} {text : String} {d : Disk}

theorem fileNames_of_node {path : String} {es : List (String × Node)}
    (h : d.node path = .ok (.directory es)) :
    d.fileNames path = (Node.filesOf es).map Prod.fst := by
  rw [Disk.fileNames, h]
  dsimp only
  clear h
  induction es with
  | nil => rfl
  | cons e es ih =>
    obtain ⟨n, node⟩ := e
    cases node with
    | file bytes => exact congrArg (n :: ·) ih
    | directory _ => exact ih

theorem fileNames_eq_nil {path : String} (h : ∀ es, d.node path ≠ .ok (.directory es)) :
    d.fileNames path = [] := by
  rw [Disk.fileNames]
  split
  case h_1 es hes => exact absurd hes (h es)
  case h_2 => rfl

end Files

/-! ## Reading -/

section Run

variable [Host] {c : CacheDirectory} {key : CacheKey} {text : String} {d d' : Disk}

theorem read_of_text (h : d.readText (c.entryPath key) = .ok text) :
    (c.read key : StateM Disk _) d = (.ok (some text), d) := by
  rw [read, Disk.bind_apply, Disk.readText_apply, h]
  rfl

theorem read_of_missing (h : d.readText (c.entryPath key) = .error .missing) :
    (c.read key : StateM Disk _) d = (.ok none, d) := by
  rw [read, Disk.bind_apply, Disk.readText_apply, h]
  rfl

theorem read_of_error {e : FileFault} (h : d.readText (c.entryPath key) = .error e)
    (he : e ≠ .missing) :
    (c.read key : StateM Disk _) d = (.error (.unreadable (c.entryPath key) e), d) := by
  rw [read, Disk.bind_apply, Disk.readText_apply, h]
  cases e with
  | missing => exact absurd rfl he
  | _ => rfl

/-- The file of a key is read if it lies in the directory and its path is not too long. -/
theorem read_of_lookup {es : List (String × Node)} (hnode : d.node c.path = .ok (.directory es))
    (hfits : Disk.Fits c.path (entryName key.display))
    (hfile : es.lookup (entryName key.display) = some (.file text.toByteArray)) :
    (c.read key : StateM Disk _) d = (.ok (some text), d) := by
  have hentry := isEntryName_entryName key.display
  have hlocate := Disk.locate_join_of_fits hentry hfits hnode hfile
  have hfound : d.find? (d.place c.path ++ [entryName key.display]) =
      some (.file text.toByteArray) := by
    rw [Disk.find?_append_singleton (Disk.node_eq_ok_iff.1 hnode).2, hfile]
  rw [← Disk.place_join d c.path hentry] at hlocate hfound
  apply read_of_text
  rw [Disk.readText, entryPath_eq, Disk.node_eq_ok_iff.2 ⟨hlocate, hfound⟩, Disk.ok_bind]
  dsimp only
  rw [fromUTF8?_toByteArray]

theorem read_of_node_missing (h : d.node (c.entryPath key) = .error .missing) :
    (c.read key : StateM Disk _) d = (.ok none, d) := by
  apply read_of_missing
  rw [Disk.readText, h]
  rfl

theorem snd_read (c : CacheDirectory) (key : CacheKey) (d : Disk) :
    ((c.read key : StateM Disk _) d).2 = d := by
  cases hread : d.readText (c.entryPath key) with
  | ok text => rw [read_of_text hread]
  | error e =>
    by_cases he : e = .missing
    · rw [read_of_missing (he ▸ hread)]
    · rw [read_of_error hread he]

/-! ## Writing -/

theorem rename_apply_of_ok {temporary path : String}
    (hfault : Host.renameFault? d temporary path = none) (h : d.rename temporary path = .ok d') :
    (FileSystem.rename temporary path : StateM Disk _) d = (.ok (), d') := by
  dsimp only [FileSystem.rename]
  rw [hfault]
  exact Disk.attempt_of_ok h

theorem persist_of_ok {temporary path : String}
    (h : (FileSystem.rename temporary path : StateM Disk _) d = (.ok (), d')) :
    (persist temporary path : StateM Disk _) d = (.ok (), d') := by
  rw [persist, Disk.bind_apply, h]
  rfl

/-- A temporary file that cannot be kept is taken away, and then the disk is what it was. -/
theorem discardTemporary_apply {temporary : String} {bytes : ByteArray}
    (h : Disk.AddsFile c.path temporary bytes d d') (fault : CacheFault) :
    (discardTemporary temporary fault : StateM Disk _) d' = (.error fault, d) := by
  have hremove : (FileSystem.removeFile temporary : StateM Disk _) d' = (.ok (), d) :=
    Disk.attempt_of_ok h.removeFile
  show (_, ((FileSystem.removeFile temporary : StateM Disk _) d').2) = _
  rw [hremove]

/-- Moving a file changes nothing if it fails. -/
theorem rename_cases (temporary path : String) (d : Disk) :
    (∃ e, (FileSystem.rename temporary path : StateM Disk _) d = (.error e, d)) ∨
      ∃ d', d.rename temporary path = .ok d' ∧
        (FileSystem.rename temporary path : StateM Disk _) d = (.ok (), d') := by
  cases hfault : Host.renameFault? d temporary path with
  | some e =>
    refine Or.inl ⟨e, ?_⟩
    dsimp only [FileSystem.rename]
    rw [hfault]
  | none =>
    cases hrename : d.rename temporary path with
    | ok d' => exact Or.inr ⟨d', rfl, rename_apply_of_ok hfault hrename⟩
    | error e =>
      refine Or.inl ⟨e, ?_⟩
      dsimp only [FileSystem.rename]
      rw [hfault]
      exact Disk.attempt_of_error hrename

/-- A temporary file is moved to the place of an entry, or it is taken away again. -/
theorem persist_cases {temporary : String}
    (h : Disk.AddsFile c.path temporary text.toByteArray d d') :
    (∃ e, (persist temporary (c.entryPath key) : StateM Disk _) d' = (.error e, d)) ∨
      ∃ es, d.node c.path = .ok (.directory es) ∧
        (∀ es₁, es.lookup (entryName key.display) ≠ some (.directory es₁)) ∧
        Disk.Fits c.path (entryName key.display) ∧
        (persist temporary (c.entryPath key) : StateM Disk _) d' =
          (.ok (), d.put (d.place (c.entryPath key)) (.file text.toByteArray)) := by
  have hentry := isEntryName_entryName key.display
  rcases rename_cases temporary (c.entryPath key) d' with ⟨e, hfails⟩ | ⟨d'', hrename, hmoves⟩
  · left
    rw [persist, Disk.bind_apply, hfails]
    exact ⟨_, discardTemporary_apply h _⟩
  · obtain ⟨es, hnode, hnot, hfits, hd''⟩ := h.rename_eq hentry hrename
    refine Or.inr ⟨es, hnode, hnot, hfits, ?_⟩
    rw [persist_of_ok hmoves, hd'', entryPath_eq, Disk.place_join d c.path hentry]

/-- The disk when the directory has been made, as far as it can be. -/
def opened (c : CacheDirectory) (d : Disk) : Disk :=
  ((FileSystem.createDirectoryAll c.path : StateM Disk _) d).2

/-- All the ways that a write can go. Directories may be made in any case; a write that fails has
done nothing else, and one that succeeds has put its file into the directory. -/
theorem write_cases (c : CacheDirectory) (key : CacheKey) (text : String) (d : Disk) :
    (∃ e, (c.write key text : StateM Disk _) d = (.error e, c.opened d)) ∨
      ∃ es, (c.opened d).node c.path = .ok (.directory es) ∧
        (∀ es₁, es.lookup (entryName key.display) ≠ some (.directory es₁)) ∧
        Disk.Fits c.path (entryName key.display) ∧
        (c.write key text : StateM Disk _) d = (.ok (),
          (c.opened d).put ((c.opened d).place (c.entryPath key)) (.file text.toByteArray)) := by
  rw [write, Disk.bind_apply, opened]
  generalize (FileSystem.createDirectoryAll c.path : StateM Disk _) d = made
  obtain ⟨answer, d₁⟩ := made
  cases answer with
  | error e => exact Or.inl ⟨_, rfl⟩
  | ok _ =>
    dsimp only
    rw [Disk.bind_apply]
    cases htemporary : d₁.createTemporary c.path with
    | error e =>
      rw [Disk.createTemporary_apply_of_error htemporary]
      exact Or.inl ⟨_, rfl⟩
    | ok result =>
      obtain ⟨temporary, d₂⟩ := result
      rw [Disk.createTemporary_apply_of_ok htemporary]
      obtain ⟨answer, bytes, d₃, hwrite, hadds, hbytes, -⟩ :=
        (Disk.addsFile_of_createTemporary htemporary).writeText text
      dsimp only
      rw [Disk.bind_apply, hwrite]
      cases answer with
      | error e => exact Or.inl ⟨_, discardTemporary_apply hadds _⟩
      | ok _ =>
        rw [hbytes rfl] at hadds
        exact persist_cases hadds

/-- A write that succeeds sets the entry of its key to its text, and leaves the other entries as
they are. The directory may have been made for it. -/
theorem write_ok (h : ((c.write key text : StateM Disk _) d).1 = .ok ()) :
    ∃ es, Node.filesOf es = d.filesAt (d.place c.path) ∧
      (∀ es₁, es.lookup (entryName key.display) ≠ some (.directory es₁)) ∧
      ((c.write key text : StateM Disk _) d).2.node c.path = .ok (.directory
        (Entries.set (entryName key.display) (.file text.toByteArray) es)) ∧
      d.KeepsDirectories ((c.write key text : StateM Disk _) d).2 := by
  have hgrows : d.Grows (c.opened d) := Disk.grows_createDirectories _ d
  rcases write_cases c key text d with ⟨e, hwrite⟩ | ⟨es, hnode, hnot, -, hwrite⟩
  · rw [hwrite] at h
    cases h
  · rw [hwrite, entryPath_eq, Disk.place_join _ c.path (isEntryName_entryName key.display)]
    have hes := (Disk.node_eq_ok_iff.1 hnode).2
    obtain ⟨hput, hkeeps⟩ := Disk.put_entry hes _ hnot (.file text.toByteArray)
    refine ⟨es, ?_, hnot, hkeeps.node_eq hnode hput, hgrows.toKeepsDirectories.trans hkeeps⟩
    rw [← hgrows.filesAt_eq, ← hgrows.place_eq]
    exact (Disk.filesAt_of_find? hes).symm

/-! ## Clearing -/

/-- The paths of the files of compiled templates. -/
def entriesOn (c : CacheDirectory) (d : Disk) : List String :=
  ((d.fileNames c.path).filter (Path.extension? · = some entryExtension)).map (Path.join c.path)

theorem entries_apply (c : CacheDirectory) (d : Disk) :
    (c.entries : StateM Disk _) d = (c.entriesOn d, d) := rfl

/-- Removing files that lie in one directory takes them out of its entries. -/
theorem removeAll_ok {path : String} {names : List String} {es : List (String × Node)}
    (hnames : ∀ name ∈ names, Disk.IsEntryName name)
    (hes : d.find? (d.place path) = some (.directory es))
    (h : ((removeAll (names.map (Path.join path)) : StateM Disk _) d).1 = .ok ()) :
    ((removeAll (names.map (Path.join path)) : StateM Disk _) d).2.find? (d.place path) =
        some (.directory (es.filter fun e => e.1 ∉ names)) ∧
      d.KeepsDirectories ((removeAll (names.map (Path.join path)) : StateM Disk _) d).2 := by
  induction names generalizing d es with
  | nil =>
    refine ⟨hes.trans ?_, Disk.KeepsDirectories.refl d⟩
    rw [List.filter_eq_self.2 (by simp)]
  | cons name names ih =>
    have hremove : (FileSystem.removeFile (Path.join path name) : StateM Disk _) d =
        Disk.attempt (·.removeFile (Path.join path name)) d := rfl
    rw [List.map_cons, removeAll, Disk.bind_apply, hremove] at h ⊢
    cases hd : d.removeFile (Path.join path name) with
    | error e =>
      rw [Disk.attempt_of_error hd] at h
      cases h
    | ok d' =>
      rw [Disk.attempt_of_ok hd] at h ⊢
      dsimp only at h ⊢
      obtain ⟨es₀, bytes, hes₀, -, hes', hkeeps⟩ :=
        Disk.removeFile_ok (hnames name List.mem_cons_self) hd
      cases hes₀.symm.trans hes
      rw [← hkeeps.place_eq] at hes' ⊢
      obtain ⟨hfinal, hkeeps'⟩ := ih (fun n hn => hnames n (List.mem_cons_of_mem name hn)) hes' h
      refine ⟨hfinal.trans ?_, hkeeps.trans hkeeps'⟩
      rw [List.filter_filter]
      simp only [List.mem_cons, not_or, Bool.decide_and, ne_eq, Bool.and_comm]

theorem clear_apply (c : CacheDirectory) (d : Disk) :
    (c.store.clear : StateM Disk _) d = (removeAll (c.entriesOn d) : StateM Disk _) d := by
  dsimp only [store]
  rw [Disk.bind_apply, clearEntries, Disk.bind_apply, entries_apply, Disk.bind_apply]
  dsimp only
  generalize (removeAll (c.entriesOn d) : StateM Disk _) d = result
  obtain ⟨answer, d'⟩ := result
  cases answer <;> rfl

theorem snd_clear (c : CacheDirectory) (d : Disk) :
    ((c.store.clear : StateM Disk _) d).2 = ((c.clearEntries : StateM Disk _) d).2 := by
  dsimp only [store]
  rw [Disk.bind_apply]
  cases ((c.clearEntries : StateM Disk _) d).1 <;> rfl

/-- Clearing a directory whose files are all compiled templates takes out all of them. -/
theorem clear_ok {es : List (String × Node)} (hnode : d.node c.path = .ok (.directory es))
    (hnames : ∀ e ∈ Node.filesOf es, Disk.IsEntryName e.1 ∧
      Path.extension? e.1 = some entryExtension)
    (h : ((c.store.clear : StateM Disk _) d).1 = .ok ()) :
    ((c.store.clear : StateM Disk _) d).2.filesAt (d.place c.path) = [] ∧
      d.KeepsDirectories ((c.store.clear : StateM Disk _) d).2 := by
  have hfilter : (d.fileNames c.path).filter (Path.extension? · = some entryExtension) =
      (Node.filesOf es).map Prod.fst := by
    rw [fileNames_of_node hnode, List.filter_eq_self]
    intro name hname
    obtain ⟨e, he, rfl⟩ := List.mem_map.1 hname
    exact decide_eq_true (hnames e he).2
  have hentries : ∀ name ∈ (Node.filesOf es).map Prod.fst, Disk.IsEntryName name := by
    intro name hname
    obtain ⟨e, he, rfl⟩ := List.mem_map.1 hname
    exact (hnames e he).1
  rw [clear_apply, entriesOn, hfilter] at h ⊢
  obtain ⟨hfiles, hkeeps⟩ := removeAll_ok hentries (Disk.node_eq_ok_iff.1 hnode).2 h
  refine ⟨(Disk.filesAt_of_find? hfiles).trans ?_, hkeeps⟩
  rw [Node.filesOf_filter fun name => decide (name ∉ (Node.filesOf es).map Prod.fst),
    List.filter_eq_nil_iff]
  intro e he
  simpa using ⟨e.2, he⟩

end Run

end CacheDirectory

end ErbTags
