import ErbTags.Proofs.FileTrees
import Mathlib.Data.List.Nodup
import Mathlib.Data.List.Perm.Subperm

/-!
# Changes of a file tree

Two things are followed through the changes of a disk. One is the list of files that lie directly in
a directory (`Disk.filesAt`). The other is which locations are directories: as long as no directory
is lost (`Disk.KeepsDirectories`), a path that led to a directory goes on leading there
(`KeepsDirectories.node_eq_ok`).

Making a directory and those that it lies in changes no file at all (`grows_createDirectories`).
Moving a file over another one and removing a file change the entries of one directory, and the
lemmas about them tell to what. A temporary file is a new entry of its directory (`AddsFile`); it
stays one when a text is written to it, whether this succeeds or fails, and removing it gives back
the disk as it was.
-/

namespace ErbTags.Disk

section Changes

variable {d d' d'' : Disk} {l m : Location} {path name : String} {es es' : List (String × Node)}
  {node : Node}

/-- No directory is lost, and relative paths start from where they did. -/
structure KeepsDirectories (d d' : Disk) : Prop where
  here_eq : d'.here = d.here
  hasDirectory : ∀ {l}, d.HasDirectory l → d'.HasDirectory l

namespace KeepsDirectories

theorem refl (d : Disk) : d.KeepsDirectories d := ⟨rfl, id⟩

theorem trans (h : d.KeepsDirectories d') (h' : d'.KeepsDirectories d'') :
    d.KeepsDirectories d'' :=
  ⟨h'.here_eq.trans h.here_eq, fun hl => h'.hasDirectory (h.hasDirectory hl)⟩

theorem origin_eq (h : d.KeepsDirectories d') (path : String) : d'.origin path = d.origin path := by
  rw [origin, origin, h.here_eq]

theorem place_eq (h : d.KeepsDirectories d') (path : String) : d'.place path = d.place path := by
  rw [place, place, h.origin_eq]

theorem walk_eq_ok (h : d.KeepsDirectories d') {ns : List String} (hwalk : d.walk l ns = .ok m)
    (hm : d.HasDirectory m) : d'.walk l ns = .ok m := by
  induction ns generalizing l with
  | nil => exact hwalk
  | cons n ns ih =>
    have hfollows := follows_of_walk_cons hwalk
    rw [walk_cons_of_follows hfollows] at hwalk
    have hnext := h.hasDirectory (hasDirectory_of_walk hwalk hm)
    obtain ⟨es, hes, hn⟩ := hfollows
    obtain ⟨es', hes'⟩ := h.hasDirectory ⟨es, hes⟩
    have hfollows' : d'.Follows l n := by
      refine ⟨es', hes', ?_⟩
      rcases follow_cases l n with hn' | hn' | hn' | hn'
      · exact Or.inl hn'
      · exact Or.inr (Or.inl hn')
      · exact Or.inr (Or.inr (Or.inl hn'))
      · rw [hn'] at hnext
        obtain ⟨es₁, hes₁⟩ := hnext
        have hentry := (find?_append_singleton hes' n).symm.trans hes₁
        exact hn.imp_right (Or.imp_right (Or.imp_right fun hn => ⟨hn.1, by rw [hentry]; rfl⟩))
    rw [walk_cons_of_follows hfollows']
    exact ih hwalk

/-- A path that leads to a directory goes on leading there. -/
theorem node_eq_ok (h : d.KeepsDirectories d') (hnode : d.node path = .ok (.directory es)) :
    ∃ es', d'.node path = .ok (.directory es') := by
  obtain ⟨hlocate, hes⟩ := node_eq_ok_iff.1 hnode
  obtain ⟨hpath, hwalk⟩ := locate_eq_ok_iff.1 hlocate
  obtain ⟨es', hes'⟩ := h.hasDirectory ⟨es, hes⟩
  refine ⟨es', node_eq_ok_iff.2 ⟨locate_eq_ok_iff.2 ⟨hpath, ?_⟩, ?_⟩⟩
  · rw [h.origin_eq, h.place_eq]
    exact h.walk_eq_ok hwalk ⟨es, hes⟩
  · rw [h.place_eq]
    exact hes'

/-- What the directory has become is found by the same path. -/
theorem node_eq (h : d.KeepsDirectories d') (hnode : d.node path = .ok (.directory es))
    (hfound : d'.find? (d.place path) = some (.directory es')) :
    d'.node path = .ok (.directory es') := by
  obtain ⟨es₁, hes₁⟩ := h.node_eq_ok hnode
  have hsame := (node_eq_ok_iff.1 hes₁).2
  rw [h.place_eq, hfound] at hsame
  rw [hes₁, ← Option.some.inj hsame]

end KeepsDirectories

theorem put_append_singleton (h : d.find? l = some (.directory es)) (name : String) (node : Node) :
    d.put (l ++ [name]) node = d.put l (.directory (Entries.set name node es)) := by
  rw [put, put, Node.put_append_singleton h]

theorem remove_append_singleton (h : d.find? l = some (.directory es)) (name : String) :
    d.remove (l ++ [name]) = d.put l (.directory (es.filter (·.1 ≠ name))) := by
  rw [remove, put, Node.remove_append_singleton h]

theorem find?_put (h : d.find? l = some node) (new : Node) : (d.put l new).find? l = some new := by
  have hput := Node.find?_put_append new h []
  rwa [List.append_nil] at hput

/-- New entries for one directory lose no directory if they have those that were among the old
ones. -/
theorem keepsDirectories_put (h : d.find? l = some (.directory es))
    (hkeep : ∀ n es₁, es.lookup n = some (.directory es₁) → es'.lookup n = some (.directory es₁)) :
    d.KeepsDirectories (d.put l (.directory es')) := by
  refine ⟨rfl, fun {m} hm => ?_⟩
  by_cases hl : l <+: m
  · obtain ⟨k, rfl⟩ := hl
    obtain ⟨es₂, hes₂⟩ := hm
    have hroot : d.root.find? l = some (.directory es) := h
    rw [Node.find?_append, hroot, Option.bind_some] at hes₂
    cases k with
    | nil => exact ⟨es', Node.find?_put_append _ h []⟩
    | cons n k =>
      -- What lies in an entry lies in a directory, and that entry is still there.
      rw [Node.find?_cons, Option.bind_eq_some_iff] at hes₂
      obtain ⟨child, hchild, hfound⟩ := hes₂
      obtain ⟨es₁, hes₁⟩ : child.HasDirectory [] := Node.HasDirectory.of_append ⟨es₂, hfound⟩
      cases hes₁
      refine ⟨es₂, (Node.find?_put_append _ h (n :: k)).trans ?_⟩
      rw [Node.find?_cons, Node.entries, hkeep n es₁ hchild]
      exact hfound
  · exact (Node.put_outside h hl).2.2 hm

/-- Putting a node into a directory, not in place of a directory. -/
theorem put_entry (h : d.find? l = some (.directory es)) (name : String)
    (hname : ∀ es₁, es.lookup name ≠ some (.directory es₁)) (node : Node) :
    (d.put (l ++ [name]) node).find? l = some (.directory (Entries.set name node es)) ∧
      d.KeepsDirectories (d.put (l ++ [name]) node) := by
  rw [put_append_singleton h]
  refine ⟨find?_put h _, keepsDirectories_put h fun n es₁ hn => ?_⟩
  have hne : n ≠ name := fun hn' => hname es₁ (by rw [← hn', hn])
  rw [Entries.lookup_set, if_neg hne, hn]

/-- Taking a node that is no directory out of a directory. -/
theorem remove_entry (h : d.find? l = some (.directory es)) (name : String)
    (hname : ∀ es₁, es.lookup name ≠ some (.directory es₁)) :
    (d.remove (l ++ [name])).find? l = some (.directory (es.filter (·.1 ≠ name))) ∧
      d.KeepsDirectories (d.remove (l ++ [name])) := by
  rw [remove_append_singleton h]
  refine ⟨find?_put h _, keepsDirectories_put h fun n es₁ hn => ?_⟩
  have hne : n ≠ name := fun hn' => hname es₁ (by rw [← hn', hn])
  rw [Entries.lookup_filter_ne, if_neg hne, hn]

/-- An entry that is new in its directory can be taken back. -/
theorem remove_put_entry (h : d.find? l = some (.directory es)) (hname : es.lookup name = none)
    (node : Node) : (d.put (l ++ [name]) node).remove (l ++ [name]) = d := by
  have hput := find?_put h (.directory (Entries.set name node es))
  rw [put_append_singleton h, remove_append_singleton hput, Entries.filter_set hname]
  exact congrArg (fun root => { d with root := root })
    ((Node.put_put h _ _).trans (Node.put_self h))

/-- An entry that is new in its directory can be replaced. -/
theorem put_put_entry (h : d.find? l = some (.directory es)) (name : String) (node new : Node) :
    (d.put (l ++ [name]) node).put (l ++ [name]) new = d.put (l ++ [name]) new := by
  have hput := find?_put h (.directory (Entries.set name node es))
  rw [put_append_singleton h, put_append_singleton hput, Entries.set_set, put_append_singleton h]
  exact congrArg (fun root => { d with root := root }) (Node.put_put h _ _)

/-- The files of all directories are the same. -/
theorem filesAt_put_directory (h : d.find? l = some (.directory es)) (hname : es.lookup name = none)
    (m : Location) : (d.put (l ++ [name]) (.directory [])).filesAt m = d.filesAt m := by
  rw [put_append_singleton h]
  by_cases hl : l <+: m
  · obtain ⟨k, rfl⟩ := hl
    have hroot : d.root.find? l = some (.directory es) := h
    rw [filesAt, filesAt, Node.filesAt, Node.filesAt, put, Node.find?_put_append _ h,
      Node.find?_append, hroot, Option.bind_some]
    cases k with
    | nil =>
      refine Node.filesOf_set_directory fun bytes hfile => ?_
      rw [hname] at hfile
      cases hfile
    | cons n k =>
      rw [Node.find?_cons, Node.find?_cons, Node.entries, Node.entries, Entries.lookup_set]
      by_cases hn : n = name
      · rw [if_pos hn, hn, hname]
        cases k <;> rfl
      · rw [if_neg hn]
  · exact (Node.put_outside h hl).1

/-! ## Making directories -/

/-- Directories may have been made, but nothing else happened. -/
structure Grows (d d' : Disk) : Prop extends d.KeepsDirectories d' where
  filesAt_eq : ∀ l, d'.filesAt l = d.filesAt l

theorem Grows.refl (d : Disk) : d.Grows d := ⟨KeepsDirectories.refl d, fun _ => rfl⟩

theorem Grows.trans (h : d.Grows d') (h' : d'.Grows d'') : d.Grows d'' :=
  ⟨h.toKeepsDirectories.trans h'.toKeepsDirectories,
    fun l => (h'.filesAt_eq l).trans (h.filesAt_eq l)⟩

theorem grows_of_createDirectory (h : d.createDirectory path = .ok d') : d.Grows d' := by
  obtain ⟨l, hl, h⟩ := bind_eq_ok_iff.1 h
  split at h
  case h_1 => cases h
  case h_2 hnone =>
    cases h
    rcases target_cases hl with ⟨node, hnode⟩ | ⟨m, es, name, rfl, hes⟩
    · cases hnone.symm.trans hnode
    · have hname : es.lookup name = none := (find?_append_singleton hes name).symm.trans hnone
      refine ⟨(put_entry hes name (fun es₁ hes₁ => ?_) _).2, filesAt_put_directory hes hname⟩
      cases hname.symm.trans hes₁

theorem attempt_of_ok {change : Disk → Except FileFault Disk} (h : change d = .ok d') :
    attempt change d = (.ok (), d') := by
  rw [attempt, h]

theorem attempt_of_error {change : Disk → Except FileFault Disk} {e : FileFault}
    (h : change d = .error e) : attempt change d = (.error e, d) := by
  rw [attempt, h]

variable [Host]

theorem grows_createDirectory (path : String) (d : Disk) :
    d.Grows ((FileSystem.createDirectory path : StateM Disk _) d).2 := by
  show d.Grows (attempt (·.createDirectory path) d).2
  cases h : d.createDirectory path with
  | ok d' =>
    rw [attempt_of_ok h]
    exact grows_of_createDirectory h
  | error e =>
    rw [attempt_of_error h]
    exact Grows.refl d

/-- Whatever holds along each single directory that is made holds along all of them, whether this
succeeds or fails. -/
theorem rel_createDirectories {r : Disk → Disk → Prop} (hrefl : ∀ d, r d d)
    (htrans : ∀ {d d' d''}, r d d' → r d' d'' → r d d'') {paths : List String}
    (hstep : ∀ path ∈ paths, ∀ d, r d ((FileSystem.createDirectory path : StateM Disk _) d).2)
    (d : Disk) : r d ((FileSystem.createDirectories paths : StateM Disk _) d).2 := by
  have hbind : ∀ {α β : Type} {x : StateM Disk α} {f : α → StateM Disk β},
      (∀ d, r d (x d).2) → (∀ a d, r d (f a d).2) → ∀ d, r d ((x >>= f) d).2 :=
    fun hx hf d => htrans (hx d) (hf _ _)
  induction paths generalizing d with
  | nil => exact hrefl d
  | cons path outer ih =>
    obtain ⟨hpath, houter⟩ := List.forall_mem_cons.1 hstep
    rw [FileSystem.createDirectories]
    refine hbind hpath (fun answer => ?_) d
    split
    · exact hrefl
    · refine hbind (ih houter) fun answer => ?_
      split
      · exact hrefl
      · refine hbind hpath fun answer => ?_
        split <;> exact hrefl
    · exact hrefl
    · exact hrefl

/-- Whether it succeeds or fails, making directories does nothing else. -/
theorem grows_createDirectories (paths : List String) (d : Disk) :
    d.Grows ((FileSystem.createDirectories paths : StateM Disk _) d).2 :=
  rel_createDirectories Grows.refl Grows.trans (fun path _ => grows_createDirectory path) d

theorem isDirectory_of_node (h : d.node path = .ok (.directory es)) :
    (FileSystem.isDirectory path : StateM Disk _) d = (true, d) := by
  show (d.isDirectory path, d) = (true, d)
  rw [isDirectory, h]

theorem createDirectories_cons_of_settled {outer : List String} {answer : Except FileFault Unit}
    (h : (FileSystem.createDirectory path : StateM Disk _) d = (answer, d'))
    (hanswer : answer = .ok () ∨ answer = .error .alreadyExists)
    (hnode : d'.node path = .ok (.directory es)) :
    (FileSystem.createDirectories (path :: outer) : StateM Disk _) d = (.ok (), d') := by
  rw [FileSystem.createDirectories, bind_apply, h]
  rcases hanswer with rfl | rfl
  · rfl
  · dsimp only
    rw [bind_apply, isDirectory_of_node hnode]
    rfl

/-- A directory that is there does not have to be made. -/
theorem createDirectoryAll_of_node (h : d.node path = .ok (.directory es)) :
    (FileSystem.createDirectoryAll path : StateM Disk _) d = (.ok (), d) := by
  obtain ⟨hlocate, hes⟩ := node_eq_ok_iff.1 h
  have hcreate : d.createDirectory path = .error .alreadyExists := by
    rw [createDirectory, target_of_locate hlocate, ok_bind, hes]
  have happly : (FileSystem.createDirectory path : StateM Disk _) d =
      (.error .alreadyExists, d) :=
    attempt_of_error hcreate
  rw [FileSystem.createDirectoryAll, Path.ancestors]
  dsimp only
  split
  · rfl
  · exact createDirectories_cons_of_settled happly (Or.inr rfl) h

end Changes

/-! ## Files in a directory -/

section Files

variable {d d' : Disk} {path name text : String} {es : List (String × Node)}

/-- A file of a directory can be filled, and a new one can be made there, if its path is not too
long. -/
theorem writeBytes_join (hname : IsEntryName name) (hfits : Fits path name)
    (hnode : d.node path = .ok (.directory es))
    (hnot : ∀ es₁, es.lookup name ≠ some (.directory es₁)) (bytes : ByteArray) :
    d.writeBytes (Path.join path name) bytes =
      .ok (d.put (d.place path ++ [name]) (.file bytes)) := by
  have hes := (node_eq_ok_iff.1 hnode).2
  rw [writeBytes, target_join_of_fits hname hfits hnode, ok_bind,
    if_neg (getLast?_join_ne path hname), find?_append_singleton hes]
  split
  case h_1 es₁ hes₁ => exact absurd hes₁ (hnot es₁)
  case h_2 => rfl

/-- There is a new file in a directory, which the path `temporary` leads to, and nothing else
happened. -/
def AddsFile (path temporary : String) (bytes : ByteArray) (d d' : Disk) : Prop :=
  ∃ es name, d.node path = .ok (.directory es) ∧ IsEntryName name ∧ es.lookup name = none ∧
    Fits path name ∧ temporary = Path.join path name ∧
    d' = d.put (d.place path ++ [name]) (.file bytes)

theorem lookup_temporaryName [Host] (hnode : d.node path = .ok (.directory es))
    (hname : Host.temporaryName d path = .ok name) : es.lookup name = none := by
  refine List.lookup_eq_none_iff.2 fun e he => ?_
  have hne : name ≠ e.1 := by
    rintro rfl
    exact (Host.temporaryName_unused hnode hname).2 (List.mem_map_of_mem he)
  simpa using hne

theorem addsFile_of_createTemporary [Host] {temporary : String}
    (h : d.createTemporary path = .ok (temporary, d')) :
    AddsFile path temporary ByteArray.empty d d' := by
  obtain ⟨node, hnode, h⟩ := bind_eq_ok_iff.1 h
  cases node with
  | file bytes => cases h
  | directory es =>
    obtain ⟨name, hgiven, h⟩ := bind_eq_ok_iff.1 h
    obtain ⟨d₁, hwrite, h⟩ := bind_eq_ok_iff.1 h
    cases h
    have hname := (Host.temporaryName_unused hnode hgiven).1
    have hnone := lookup_temporaryName hnode hgiven
    refine ⟨es, name, hnode, hname, hnone, ?_⟩
    obtain ⟨l, hl, hwrite⟩ := bind_eq_ok_iff.1 hwrite
    obtain ⟨rfl, hfits⟩ := target_join_cases hname hl
    split_ifs at hwrite
    rw [find?_append_singleton (node_eq_ok_iff.1 hnode).2, hnone] at hwrite
    cases hwrite
    exact ⟨hfits, rfl, rfl⟩

theorem createTemporary_of_fits [Host] (hnode : d.node path = .ok (.directory es))
    (hname : Host.temporaryName d path = .ok name) (hfits : Fits path name) :
    ∃ d', d.createTemporary path = .ok (Path.join path name, d') := by
  have hnot : ∀ es₁, es.lookup name ≠ some (.directory es₁) := by
    intro es₁ hes₁
    cases (lookup_temporaryName hnode hname).symm.trans hes₁
  have hentry := (Host.temporaryName_unused hnode hname).1
  rw [createTemporary, hnode, ok_bind]
  dsimp only
  rw [hname, ok_bind, writeBytes_join hentry hfits hnode hnot]
  exact ⟨_, rfl⟩

theorem createTemporary_apply_of_ok [Host] {directory temporary : String}
    (h : d.createTemporary directory = .ok (temporary, d')) :
    (FileSystem.createTemporary directory : StateM Disk _) d = (.ok temporary, d') := by
  dsimp only [FileSystem.createTemporary]
  rw [h]

theorem createTemporary_apply_of_error [Host] {directory : String} {e : FileFault}
    (h : d.createTemporary directory = .error e) :
    (FileSystem.createTemporary directory : StateM Disk _) d = (.error e, d) := by
  dsimp only [FileSystem.createTemporary]
  rw [h]

/-- Moving a file over another one of the same directory, or under a new name. -/
theorem rename_eq {old : String} {bytes : ByteArray} (hold : IsEntryName old)
    (hname : IsEntryName name) (hes : d.find? (d.place path) = some (.directory es))
    (hfile : es.lookup old = some (.file bytes))
    (h : d.rename (Path.join path old) (Path.join path name) = .ok d') :
    (∀ es₁, es.lookup name ≠ some (.directory es₁)) ∧ Fits path name ∧
      d' = (d.remove (d.place path ++ [old])).put (d.place path ++ [name]) (.file bytes) := by
  obtain ⟨l, hl, h⟩ := bind_eq_ok_iff.1 h
  obtain ⟨l', hl', h⟩ := bind_eq_ok_iff.1 h
  obtain rfl : l = d.place path ++ [old] := (eq_place_of_locate hl).trans (place_join d path hold)
  obtain ⟨rfl, hfits⟩ := target_join_cases hname hl'
  rw [find?_append_singleton hes, find?_append_singleton hes, hfile] at h
  cases hentry : es.lookup name with
  | none =>
    rw [hentry] at h
    refine ⟨fun es₁ hes₁ => ?_, hfits, (Except.ok.inj h).symm⟩
    cases hes₁
  | some node =>
    rw [hentry] at h
    cases node with
    | directory es₁ => cases h
    | file _ =>
      refine ⟨fun es₁ hes₁ => ?_, hfits, (Except.ok.inj h).symm⟩
      cases hes₁

/-- A file of a directory can be moved to another name in it that is not the name of a directory. -/
theorem rename_of_fits {old : String} {bytes : ByteArray} (hold : IsEntryName old)
    (hname : IsEntryName name) (hfitsOld : Fits path old) (hfits : Fits path name)
    (hnode : d.node path = .ok (.directory es)) (hfile : es.lookup old = some (.file bytes))
    (hnot : ∀ es₁, es.lookup name ≠ some (.directory es₁)) :
    ∃ d', d.rename (Path.join path old) (Path.join path name) = .ok d' := by
  have hes := (node_eq_ok_iff.1 hnode).2
  rw [rename, locate_join_of_fits hold hfitsOld hnode hfile, ok_bind,
    target_join_of_fits hname hfits hnode, ok_bind, find?_append_singleton hes,
    find?_append_singleton hes, hfile]
  split
  case h_1 hnone => cases hnone
  case h_2 es₁ _ hes₁ => exact absurd hes₁ (hnot es₁)
  case h_3 => exact ⟨_, rfl⟩

theorem removeFile_eq (hname : IsEntryName name)
    (h : d.removeFile (Path.join path name) = .ok d') :
    ∃ es bytes, d.find? (d.place path) = some (.directory es) ∧
      es.lookup name = some (.file bytes) ∧ d' = d.remove (d.place path ++ [name]) := by
  obtain ⟨l, hl, h⟩ := bind_eq_ok_iff.1 h
  obtain rfl : l = d.place path ++ [name] := (eq_place_of_locate hl).trans (place_join d path hname)
  split at h
  case h_1 bytes hfile =>
    cases h
    obtain ⟨es, hes, hentry⟩ := lookup_of_find?_append hfile
    exact ⟨es, bytes, hes, hentry, rfl⟩
  case h_2 => cases h
  case h_3 => cases h

theorem removeFile_ok (hname : IsEntryName name)
    (h : d.removeFile (Path.join path name) = .ok d') :
    ∃ es bytes, d.find? (d.place path) = some (.directory es) ∧
      es.lookup name = some (.file bytes) ∧
      d'.find? (d.place path) = some (.directory (es.filter (·.1 ≠ name))) ∧
      d.KeepsDirectories d' := by
  obtain ⟨es, bytes, hes, hentry, rfl⟩ := removeFile_eq hname h
  refine ⟨es, bytes, hes, hentry, remove_entry hes name fun es₁ hes₁ => ?_⟩
  cases hentry.symm.trans hes₁

/-- A file in a directory can be removed, if its path is not too long. -/
theorem removeFile_join {bytes : ByteArray} (hname : IsEntryName name) (hfits : Fits path name)
    (hdirectory : d.node path = .ok (.directory es))
    (hfile : es.lookup name = some (.file bytes)) :
    d.removeFile (Path.join path name) = .ok (d.remove (d.place path ++ [name])) := by
  have hfound : d.find? (d.place path ++ [name]) = some (.file bytes) := by
    rw [find?_append_singleton (node_eq_ok_iff.1 hdirectory).2, hfile]
  rw [removeFile, locate_join_of_fits hname hfits hdirectory hfile, ok_bind, hfound]

/-! ## Temporary files -/

section AddsFile

variable {temporary : String} {bytes : ByteArray}

/-- The directory with the new file in it. -/
theorem AddsFile.node_eq (h : AddsFile path temporary bytes d d') :
    ∃ es name, d.node path = .ok (.directory es) ∧ es.lookup name = none ∧ IsEntryName name ∧
      Fits path name ∧ temporary = Path.join path name ∧
      d' = d.put (d.place path ++ [name]) (.file bytes) ∧ d'.place path = d.place path ∧
      d'.node path = .ok (.directory (Entries.set name (.file bytes) es)) ∧
      (Entries.set name (.file bytes) es).lookup name = some (.file bytes) := by
  obtain ⟨es, name, hnode, hname, hnone, hfits, htemporary, rfl⟩ := h
  have hnot : ∀ es₁, es.lookup name ≠ some (.directory es₁) := by
    intro es₁ hes₁
    cases hnone.symm.trans hes₁
  obtain ⟨hput, hkeeps⟩ := put_entry (node_eq_ok_iff.1 hnode).2 name hnot (.file bytes)
  exact ⟨es, name, hnode, hnone, hname, hfits, htemporary, rfl, hkeeps.place_eq path,
    hkeeps.node_eq hnode hput, by rw [Entries.lookup_set, if_pos rfl]⟩

/-- A temporary file is filled. -/
theorem AddsFile.writeBytes (h : AddsFile path temporary bytes d d') (new : ByteArray) :
    ∃ d'', d'.writeBytes temporary new = .ok d'' ∧ AddsFile path temporary new d d'' := by
  obtain ⟨es, name, hnode, hnone, hname, hfits, rfl, hput, hplace, hnode', hfile⟩ := h.node_eq
  have hnot : ∀ es₁, (Entries.set name (.file bytes) es).lookup name ≠ some (.directory es₁) := by
    intro es₁ hes₁
    cases hfile.symm.trans hes₁
  have hwrite := writeBytes_join hname hfits hnode' hnot new
  rw [hplace, hput, put_put_entry (node_eq_ok_iff.1 hnode).2, ← hput] at hwrite
  exact ⟨_, hwrite, es, name, hnode, hname, hnone, hfits, rfl, rfl⟩

/-- Whether a text is written to a temporary file as a whole or in part, the file is all that is
new. -/
theorem AddsFile.writeText [Host] (h : AddsFile path temporary bytes d d') (text : String) :
    ∃ answer bytes' d'',
      (FileSystem.writeText temporary text : StateM Disk _) d' = (answer, d'') ∧
        AddsFile path temporary bytes' d d'' ∧
        (answer = .ok () → bytes' = text.toByteArray) ∧
        (Host.writeFault? d' temporary text = none → answer = .ok ()) := by
  show ∃ answer bytes' d'', d'.writeText temporary text = (answer, d'') ∧ _
  unfold Disk.writeText
  cases hfault : Host.writeFault? d' temporary text with
  | none =>
    obtain ⟨d'', hwrite, hadds⟩ := h.writeBytes text.toByteArray
    exact ⟨.ok (), _, d'', by rw [hwrite], hadds, fun _ => rfl, fun _ => rfl⟩
  | some fault =>
    obtain ⟨e, part⟩ := fault
    obtain ⟨d'', hwrite, hadds⟩ := h.writeBytes part
    exact ⟨.error e, part, d'', by dsimp only; rw [hwrite], hadds, nofun, nofun⟩

/-- A temporary file is taken away again. -/
theorem AddsFile.removeFile (h : AddsFile path temporary bytes d d') :
    d'.removeFile temporary = .ok d := by
  obtain ⟨es, name, hnode, hnone, hname, hfits, rfl, hput, hplace, hnode', hfile⟩ := h.node_eq
  rw [removeFile_join hname hfits hnode' hfile, hplace, hput,
    remove_put_entry (node_eq_ok_iff.1 hnode).2 hnone]

/-- A temporary file that is moved in its directory has been put under its new name at once. -/
theorem AddsFile.rename_eq (h : AddsFile path temporary bytes d d') (hname : IsEntryName name)
    {d'' : Disk} (hrename : d'.rename temporary (Path.join path name) = .ok d'') :
    ∃ es, d.node path = .ok (.directory es) ∧
      (∀ es₁, es.lookup name ≠ some (.directory es₁)) ∧ Fits path name ∧
      d'' = d.put (d.place path ++ [name]) (.file bytes) := by
  obtain ⟨es, old, hnode, hnone, hold, -, rfl, hput, hplace, hnode', hfile⟩ := h.node_eq
  obtain ⟨hnew, hfits, hd''⟩ :=
    Disk.rename_eq hold hname (node_eq_ok_iff.1 hnode').2 hfile hrename
  rw [hplace, hput, remove_put_entry (node_eq_ok_iff.1 hnode).2 hnone] at hd''
  refine ⟨es, hnode, fun es₁ hes₁ => ?_, hfits, hd''⟩
  by_cases hsame : name = old
  · rw [hsame, hnone] at hes₁
    cases hes₁
  · exact hnew es₁ (by rw [Entries.lookup_set, if_neg hsame, hes₁])

/-- A temporary file can be moved to a name that is not the name of a directory. -/
theorem AddsFile.exists_rename_ok (h : AddsFile path temporary bytes d d')
    (hname : IsEntryName name) (hfits : Fits path name)
    (hnode : d.node path = .ok (.directory es))
    (hnot : ∀ es₁, es.lookup name ≠ some (.directory es₁)) :
    ∃ d'', d'.rename temporary (Path.join path name) = .ok d'' := by
  obtain ⟨es', old, hnode₁, -, hold, hfitsOld, rfl, -, -, hnode', hfile⟩ := h.node_eq
  cases hnode₁.symm.trans hnode
  refine rename_of_fits hold hname hfitsOld hfits hnode' hfile fun es₁ hes₁ => ?_
  rw [Entries.lookup_set] at hes₁
  split at hes₁
  · cases hes₁
  · exact hnot es₁ hes₁

end AddsFile

end Files

end ErbTags.Disk
