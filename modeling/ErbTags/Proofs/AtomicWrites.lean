import ErbTags.Proofs.Ancestors
import ErbTags.Proofs.DirectoryStore

/-!
# Writes that happen as a whole or not at all

The directories that a write makes are those that the path of the store leads through
(`Disk.leadsThrough_of_mem_ancestors`), and the one other thing it does, if it succeeds, is to put
the file of its key in place. What is then seen of all files and directories is told by
`write_all_or_nothing`, with conditions on the disk (`Accepts`) and on its host (`Served`) under
which a write does succeed.
-/

namespace ErbTags

namespace CacheDirectory

section Writes

variable [Host] {c : CacheDirectory} {key : CacheKey} {text : String} {d d' : Disk}

/-! ## A write that succeeds -/

/-- What is put in the place of an entry is read under its key. -/
theorem read_put_entry {es : List (String × Node)} (hnode : d.node c.path = .ok (.directory es))
    (hnot : ∀ es₁, es.lookup (entryName key.display) ≠ some (.directory es₁))
    (hfits : Disk.Fits c.path (entryName key.display))
    (hput : d' = d.put (d.place (c.entryPath key)) (.file text.toByteArray)) :
    (c.read key : StateM Disk _) d' = (.ok (some text), d') := by
  have hentry := isEntryName_entryName key.display
  rw [entryPath_eq, Disk.place_join d c.path hentry] at hput
  obtain ⟨hes', hkeeps⟩ := Disk.put_entry (Disk.node_eq_ok_iff.1 hnode).2 (entryName key.display)
    hnot (.file text.toByteArray)
  rw [← hput] at hes' hkeeps
  refine read_of_lookup (hkeeps.node_eq hnode hes') hfits ?_
  rw [Entries.lookup_set, if_pos rfl]

/-- The file of the key can be put into the directory: the directory is there or can be made, the
path of the file is not too long, and no directory stands in its place or would be made there. -/
structure Accepts (c : CacheDirectory) (key : CacheKey) (d : Disk) : Prop where
  opens : (∃ es, d.node c.path = .ok (.directory es)) ∨
    d.Opens c.path ∧ ¬ d.LeadsThrough c.path (d.place (c.entryPath key))
  fits : Disk.Fits c.path (entryName key.display)
  not_hasDirectory : ¬ d.HasDirectory (d.place (c.entryPath key))

/-- The host lets a file be put into the directory: a temporary file gets a name that is not too
long, and it can be filled and moved. -/
def Served (c : CacheDirectory) (d : Disk) : Prop :=
  ∃ name, Host.temporaryName (c.opened d) c.path = .ok name ∧ Disk.Fits c.path name ∧
    (∀ x text, Host.writeFault? x (Path.join c.path name) text = none) ∧
    ∀ x path, Host.renameFault? x (Path.join c.path name) path = none

theorem makes_opened (c : CacheDirectory) (d : Disk) :
    d.Makes (Path.ancestors c.path) (c.opened d) :=
  Disk.makes_createDirectories _ d

/-- The directory is made if it has to be, and then nothing stands in the way of the file. -/
theorem Accepts.node_opened (h : c.Accepts key d) :
    (FileSystem.createDirectoryAll c.path : StateM Disk _) d = (.ok (), c.opened d) ∧
      (∃ es, (c.opened d).node c.path = .ok (.directory es)) ∧
      ¬ (c.opened d).HasDirectory (d.place (c.entryPath key)) := by
  rcases h.opens with ⟨es, hnode⟩ | ⟨hopens, hthrough⟩
  · have hmake := Disk.createDirectoryAll_of_node hnode
    have hopened : c.opened d = d := congrArg Prod.snd hmake
    rw [hopened]
    exact ⟨hmake, ⟨es, hnode⟩, h.not_hasDirectory⟩
  · obtain ⟨d₁, es, hmake, hnode⟩ := hopens.createDirectoryAll
    have hopened : c.opened d = d₁ := congrArg Prod.snd hmake
    refine ⟨by rw [hopened, hmake], ⟨es, by rw [hopened, hnode]⟩, fun hdirectory => ?_⟩
    rcases (makes_opened c d).hasDirectory_cases hdirectory with hold | ⟨a, ha, hplace⟩
    · exact h.not_hasDirectory hold
    · rw [hplace] at hthrough
      exact hthrough (Disk.leadsThrough_of_mem_ancestors ha d)

theorem Accepts.lookup_ne_directory (h : c.Accepts key d) {es : List (String × Node)}
    (hnode : (c.opened d).node c.path = .ok (.directory es)) (es₁ : List (String × Node)) :
    es.lookup (entryName key.display) ≠ some (.directory es₁) := by
  intro hes₁
  apply h.node_opened.2.2
  rw [← Disk.place_eq_of_here (makes_opened c d).here_eq, entryPath_eq,
    Disk.place_join _ c.path (isEntryName_entryName key.display)]
  exact ⟨es₁, (Disk.find?_append_singleton (Disk.node_eq_ok_iff.1 hnode).2 _).trans hes₁⟩

/-- A write succeeds if the directory accepts the file and the host serves. -/
theorem Accepts.write (h : c.Accepts key d) (hserved : c.Served d) (text : String) :
    ((c.write key text : StateM Disk _) d).1 = .ok () := by
  obtain ⟨hmake, ⟨es, hnode⟩, -⟩ := h.node_opened
  obtain ⟨name, hname, hfits, hwrites, hmoves⟩ := hserved
  obtain ⟨d₂, htemporary⟩ := Disk.createTemporary_of_fits hnode hname hfits
  obtain ⟨answer, bytes, d₃, hwrite, hadds, -, hok⟩ :=
    (Disk.addsFile_of_createTemporary htemporary).writeText text
  obtain rfl := hok (hwrites _ _)
  obtain ⟨d₄, hrename⟩ := hadds.exists_rename_ok (isEntryName_entryName key.display) h.fits hnode
    (h.lookup_ne_directory hnode)
  rw [CacheDirectory.write, Disk.bind_apply, hmake]
  dsimp only
  rw [Disk.bind_apply, Disk.createTemporary_apply_of_ok htemporary]
  dsimp only
  rw [Disk.bind_apply, hwrite]
  exact congrArg Prod.fst (persist_of_ok (rename_apply_of_ok (hmoves _ _) hrename))

/-- A write makes no directories but those that it needs for its file. -/
theorem hasDirectory_of_write {l : Location}
    (hl : ((c.write key text : StateM Disk _) d).2.HasDirectory l) :
    (c.opened d).HasDirectory l := by
  have hcases := write_cases c key text d
  generalize c.opened d = d₁ at hcases ⊢
  rcases hcases with ⟨e, hwrite⟩ | ⟨es, hnode, hnot, -, hwrite⟩
  · rwa [hwrite] at hl
  · have hbare : (Node.file text.toByteArray).entries = [] := rfl
    have hlook := Disk.look_put_entry (Disk.node_eq_ok_iff.1 hnode).2 _ hnot hbare
    rw [hwrite, entryPath_eq, Disk.place_join d₁ c.path (isEntryName_entryName key.display),
      ← Disk.look_eq_directory_iff, hlook] at hl
    by_cases hl' : l = d₁.place c.path ++ [entryName key.display]
    · rw [hl', Function.update_self] at hl
      cases hl
    · rwa [Function.update_of_ne hl', Disk.look_eq_directory_iff] at hl

/-- Other files are accepted as before when one has been written. -/
theorem Accepts.of_write {key' : CacheKey} (h : c.Accepts key d)
    (hwrite : ((c.write key' text : StateM Disk _) d).1 = .ok ()) :
    c.Accepts key ((c.write key' text : StateM Disk _) d).2 := by
  obtain ⟨es, -, -, hnode, hkeeps⟩ := write_ok hwrite
  refine ⟨Or.inl ⟨_, hnode⟩, h.fits, fun hdirectory => h.node_opened.2.2 ?_⟩
  rw [hkeeps.place_eq] at hdirectory
  exact hasDirectory_of_write hdirectory

/-- A write that succeeds leaves its text to be read and all other files as they are; one that fails
leaves all files as they are. Neither leaves a file behind that was not there, and both make no
directories but those that the path of the store leads through, which it lies in unless the path
turns back. -/
theorem write_all_or_nothing (c : CacheDirectory) (key : CacheKey) (text : String) (d d' : Disk)
    (answer : Except CacheFault Unit)
    (h : (c.write key text : StateM Disk _) d = (answer, d')) :
    (answer = .ok () →
      (c.read key : StateM Disk _) d' = (.ok (some text), d') ∧
        d'.fileAt? (d.place (c.entryPath key)) = some text.toByteArray ∧
        ∀ l, l ≠ d.place (c.entryPath key) → d'.fileAt? l = d.fileAt? l) ∧
      (∀ e, answer = .error e → ∀ l, d'.fileAt? l = d.fileAt? l) ∧
      (∀ l, d.HasDirectory l → d'.HasDirectory l) ∧
      (∀ l, d'.HasDirectory l → d.HasDirectory l ∨
        d.LeadsThrough c.path l ∧ (".." ∉ Disk.names c.path → l <+: d.place c.path)) ∧
      (c.Accepts key d → c.Served d → answer = .ok ()) := by
  have hmakes := makes_opened c d
  have hcases := write_cases c key text d
  have hsucceeds : c.Accepts key d → c.Served d → answer = .ok () := by
    intro haccepts hserved
    rw [← haccepts.write hserved text, h]
  have hdirectories : ∀ l, d'.HasDirectory l → (c.opened d).HasDirectory l := by
    intro l hl
    have hd' : ((c.write key text : StateM Disk _) d).2 = d' := congrArg Prod.snd h
    rw [← hd'] at hl
    exact hasDirectory_of_write hl
  rw [h] at hcases
  generalize c.opened d = d₁ at hmakes hcases hdirectories
  have hnew : ∀ l, d'.HasDirectory l → d.HasDirectory l ∨
      d.LeadsThrough c.path l ∧ (".." ∉ Disk.names c.path → l <+: d.place c.path) := by
    intro l hl
    rcases hmakes.hasDirectory_cases (hdirectories l hl) with hold | ⟨a, ha, rfl⟩
    · exact Or.inl hold
    · have hthrough := Disk.leadsThrough_of_mem_ancestors ha d
      exact Or.inr ⟨hthrough, hthrough.isPrefix⟩
  rcases hcases with ⟨e, hwrite⟩ | ⟨es, hnode, hnot, hfits, hwrite⟩
  · obtain ⟨rfl, rfl⟩ := Prod.mk.inj hwrite
    exact ⟨fun hok => (by cases hok), fun _ _ => hmakes.fileAt?_eq, fun l => hmakes.hasDirectory,
      hnew, hsucceeds⟩
  · obtain ⟨rfl, hput⟩ := Prod.mk.inj hwrite
    have hentry := isEntryName_entryName key.display
    have hplace : d₁.place (c.entryPath key) = d₁.place c.path ++ [entryName key.display] :=
      Disk.place_join d₁ c.path hentry
    have hes := (Disk.node_eq_ok_iff.1 hnode).2
    have hkeeps := (Disk.put_entry hes _ hnot (.file text.toByteArray)).2
    have hbare : (Node.file text.toByteArray).entries = [] := rfl
    have hlook := Disk.look_put_entry hes _ hnot hbare
    rw [← hplace, ← hput] at hkeeps hlook
    rw [← Disk.place_eq_of_here hmakes.here_eq]
    refine ⟨fun _ => ⟨read_put_entry hnode hnot hfits hput, ?_, fun l hl => ?_⟩,
      fun e he => (by cases he), fun l hl => hkeeps.hasDirectory (hmakes.hasDirectory hl),
      hnew, hsucceeds⟩
    · rw [Disk.fileAt?_eq_bind, hlook, Function.update_self]
      rfl
    · rw [← hmakes.fileAt?_eq l, Disk.fileAt?_eq_bind, Disk.fileAt?_eq_bind, hlook,
        Function.update_of_ne hl]

end Writes

/-- A write on a disk of the given host. -/
def writeOn (_ : Host) (c : CacheDirectory) (key : CacheKey) (text : String) :
    StateM Disk (Except CacheFault Unit) :=
  c.write key text

/-- A host without space for more than one byte of a text. -/
@[reducible] def fullHost : Host :=
  { numberingHost with
    writeFault? := fun _ _ _ => some (.other "No space left", "x".toByteArray) }

/-- One write makes its directory. Another fails in its last stage, since a directory stands in the
place of the entry, and a third one when a part of its text has been written. -/
theorem write_all_or_nothing_blocked :
    let c : CacheDirectory := ⟨"a/cache"⟩
    let key : CacheKey := ⟨"", "", ""⟩
    let page : String × Node := ("page.erb", .file "mine".toByteArray)
    let free : Disk := ⟨.directory [page], []⟩
    let blocked : Disk := ⟨.directory [page, ("a", .directory [("cache", .directory
      [page, (entryName key.display, .directory [])])])], []⟩
    (∃ d', (c.write key "xy" : StateM Disk _) free = (.ok (), d') ∧
      (c.read key : StateM Disk _) d' = (.ok (some "xy"), d') ∧
      d'.fileAt? ["page.erb"] = free.fileAt? ["page.erb"]) ∧
    (∃ d', (c.write key "xy" : StateM Disk _) blocked =
        (.error (.unwritable (c.entryPath key) .persist .isDirectory), d') ∧
      ∀ l, d'.fileAt? l = blocked.fileAt? l) ∧
    ∃ fault d', writeOn fullHost c key "xy" free = (.error fault, d') ∧
      fault.message = "CACHE_WRITE_ERROR: a/cache: Failed to write temp file: No space left" ∧
      ∀ l, d'.fileAt? l = free.fileAt? l := by
  intro c key page free blocked
  have hfree : (c.write key "xy" : StateM Disk _) free =
      (.ok (), ((c.write key "xy" : StateM Disk _) free).2) :=
    Prod.ext (by decide +kernel) rfl
  have hblocked : (c.write key "xy" : StateM Disk _) blocked =
      (.error (.unwritable (c.entryPath key) .persist .isDirectory),
        ((c.write key "xy" : StateM Disk _) blocked).2) :=
    Prod.ext (by decide +kernel) rfl
  have hfull : writeOn fullHost c key "xy" free =
      (.error (.unwritable "a/cache" .writeTemporary (.other "No space left")),
        (writeOn fullHost c key "xy" free).2) :=
    Prod.ext (by decide +kernel) rfl
  have hother : ["page.erb"] ≠ free.place (c.entryPath key) := by decide +kernel
  obtain ⟨hread, -, hfiles⟩ := (write_all_or_nothing c key "xy" free _ _ hfree).1 rfl
  exact ⟨⟨_, hfree, hread, hfiles _ hother⟩,
    ⟨_, hblocked, (write_all_or_nothing c key "xy" blocked _ _ hblocked).2.1 _ rfl⟩,
    _, _, hfull, by decide, (@write_all_or_nothing fullHost c key "xy" free _ _ hfull).2.1 _ rfl⟩

/-- A path that turns back leads through directories that the store does not lie in, and they are
made too. -/
theorem write_makes_aside :
    let c : CacheDirectory := ⟨"a/../cache"⟩
    let d : Disk := ⟨.directory [], []⟩
    let d' := ((c.write ⟨"", "", ""⟩ "x" : StateM Disk _) d).2
    ((c.write ⟨"", "", ""⟩ "x" : StateM Disk _) d).1 = .ok () ∧ d.place c.path = ["cache"] ∧
      d.isDirectory "/a" = false ∧ d'.isDirectory "/a" = true := by
  decide +kernel

end CacheDirectory

end ErbTags
