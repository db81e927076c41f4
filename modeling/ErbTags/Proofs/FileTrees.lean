import ErbTags.Files.Disk
import Mathlib.Data.List.TakeWhile
import Mathlib.Tactic.Tauto

/-!
# File trees

Putting a node into a directory (`Node.put_append_singleton`) and taking one out
(`Node.remove_append_singleton`) both give that directory other entries and leave the rest of the
tree as it is (`Node.put_outside`).

Where a path leads is told by its text and the current directory, given that it leads somewhere at
all (`Disk.place`). The path of something in a directory leads to an entry of the directory
(`Disk.place_join`), whatever the path of the directory looks like.
-/

namespace ErbTags

namespace Node

/-! ## Entries -/

section Entries

variable {es es' : List (String × Node)} {name n : String} {node : Node}

/-- The bytes of a file. -/
def bytes? : Node → Option ByteArray
  | .file bytes => some bytes
  | .directory _ => none

/-- The files among entries. -/
def filesOf (es : List (String × Node)) : List (String × ByteArray) :=
  es.filterMap fun
    | (name, .file bytes) => some (name, bytes)
    | (_, .directory _) => none

@[simp] theorem filesOf_cons_file (n : String) (bytes : ByteArray) (es : List (String × Node)) :
    filesOf ((n, .file bytes) :: es) = (n, bytes) :: filesOf es := rfl

@[simp] theorem filesOf_cons_directory (n : String) (es₁ es : List (String × Node)) :
    filesOf ((n, .directory es₁) :: es) = filesOf es := rfl

/-- The files have the names of their entries. -/
theorem lookup_filesOf (h : ∀ es₁, es.lookup name ≠ some (.directory es₁)) :
    (filesOf es).lookup name = (es.lookup name).bind bytes? := by
  induction es with
  | nil => rfl
  | cons e es ih =>
    obtain ⟨n, node⟩ := e
    simp only [Entries.lookup_cons] at h ⊢
    by_cases hn : name = n
    · cases node with
      | file bytes =>
        rw [filesOf_cons_file, Entries.lookup_cons, if_pos hn, if_pos hn, Option.bind_some, bytes?]
      | directory es₁ => exact absurd (if_pos hn) (h es₁)
    · simp only [if_neg hn] at h ⊢
      cases node with
      | file bytes => rw [filesOf_cons_file, Entries.lookup_cons, if_neg hn, ih h]
      | directory es₁ => exact ih h

theorem filesOf_filter (p : String → Bool) (es : List (String × Node)) :
    filesOf (es.filter fun e => p e.1) = (filesOf es).filter fun e => p e.1 := by
  induction es with
  | nil => rfl
  | cons e es ih =>
    obtain ⟨n, node⟩ := e
    cases node with
    | file bytes =>
      rw [filesOf_cons_file, List.filter_cons, List.filter_cons]
      split
      · rw [filesOf_cons_file, ih]
      · exact ih
    | directory es₁ =>
      rw [filesOf_cons_directory, List.filter_cons]
      split
      · rw [filesOf_cons_directory, ih]
      · exact ih

/-- Setting an entry that is no file to a directory leaves the files as they are. -/
theorem filesOf_set_directory (h : ∀ bytes, es.lookup name ≠ some (.file bytes)) :
    filesOf (Entries.set name (.directory es') es) = filesOf es := by
  induction es with
  | nil => rfl
  | cons e es ih =>
    obtain ⟨n, old⟩ := e
    rw [Entries.set]
    by_cases hn : n = name
    · rw [if_pos hn]
      cases old with
      | file bytes => exact absurd (by rw [Entries.lookup_cons, if_pos hn.symm]) (h bytes)
      | directory es₁ => rfl
    · rw [if_neg hn]
      have hrest := ih fun bytes => by
        have := h bytes
        rwa [Entries.lookup_cons, if_neg (Ne.symm hn)] at this
      cases old with
      | file bytes => rw [filesOf_cons_file, filesOf_cons_file, hrest]
      | directory es₁ => rw [filesOf_cons_directory, filesOf_cons_directory, hrest]

end Entries

/-! ## Locations -/

section Locations

variable {root new old : Node} {es es' : List (String × Node)} {l m : Location} {name : String}

theorem find?_cons (n : String) (l : Location) (root : Node) :
    root.find? (n :: l) = (root.entries.lookup n).bind (find? l) := by
  rw [find?]
  cases root.entries.lookup n <;> rfl

theorem find?_append (l m : Location) (root : Node) :
    root.find? (l ++ m) = (root.find? l).bind (find? m) := by
  induction l generalizing root with
  | nil => rfl
  | cons n l ih =>
    rw [List.cons_append, find?_cons, find?_cons, Option.bind_assoc]
    congr 1
    funext child
    exact ih child

/-- A node on the way to another one is a directory. -/
theorem exists_of_find?_cons {n : String} (h : root.find? (n :: l) = some old) :
    ∃ es child, root = .directory es ∧ es.lookup n = some child ∧ child.find? l = some old := by
  rw [find?_cons, Option.bind_eq_some_iff] at h
  obtain ⟨child, hchild, hold⟩ := h
  cases root with
  | file bytes => cases hchild
  | directory es => exact ⟨es, child, rfl, hchild, hold⟩

theorem put_cons_of_lookup {n : String} {child : Node} (h : es.lookup n = some child) :
    put new (n :: l) (.directory es) = .directory (Entries.set n (put new l child) es) := by
  rw [put, h, Option.getD_some]

/-- Of two nodes that are put in one place, the second stays. -/
theorem put_put (h : root.find? l = some old) (new new' : Node) :
    put new' l (put new l root) = put new' l root := by
  induction l generalizing root with
  | nil => rw [put, put]
  | cons n l ih =>
    obtain ⟨es, child, rfl, hchild, hfound⟩ := exists_of_find?_cons h
    have hput : (Entries.set n (put new l child) es).lookup n = some (put new l child) := by
      rw [Entries.lookup_set, if_pos rfl]
    rw [put_cons_of_lookup hchild, put_cons_of_lookup hput, ih hfound, Entries.set_set,
      put_cons_of_lookup hchild]

theorem put_self (h : root.find? l = some old) : put old l root = root := by
  induction l generalizing root with
  | nil =>
    obtain rfl : root = old := Option.some.inj h
    rw [put]
  | cons n l ih =>
    obtain ⟨es, child, rfl, hchild, hfound⟩ := exists_of_find?_cons h
    rw [put_cons_of_lookup hchild, ih hfound, Entries.set_self hchild]

theorem remove_cons_of_lookup {n : String} {child : Node} (h : es.lookup n = some child)
    (hl : l ≠ []) :
    (directory es).remove (n :: l) = .directory (Entries.set n (child.remove l) es) := by
  rw [remove, h]
  exact hl

/-- Putting a node into a directory sets an entry of that directory. -/
theorem put_append_singleton (h : root.find? l = some (.directory es)) :
    put new (l ++ [name]) root = put (.directory (Entries.set name new es)) l root := by
  induction l generalizing root with
  | nil =>
    obtain rfl : root = .directory es := Option.some.inj h
    rw [List.nil_append, put, put, put]
  | cons n l ih =>
    obtain ⟨es₀, child, rfl, hchild, hfound⟩ := exists_of_find?_cons h
    rw [List.cons_append, put_cons_of_lookup hchild, put_cons_of_lookup hchild, ih hfound]

/-- Taking a node out of a directory takes out an entry of that directory. -/
theorem remove_append_singleton (h : root.find? l = some (.directory es)) :
    root.remove (l ++ [name]) = put (.directory (es.filter (·.1 ≠ name))) l root := by
  induction l generalizing root with
  | nil =>
    obtain rfl : root = .directory es := Option.some.inj h
    rw [List.nil_append, remove, put]
  | cons n l ih =>
    obtain ⟨es₀, child, rfl, hchild, hfound⟩ := exists_of_find?_cons h
    rw [put_cons_of_lookup hchild, ← ih hfound, List.cons_append]
    exact remove_cons_of_lookup hchild (List.concat_ne_nil name l)

/-- What lies below a location after a node was put there. -/
theorem find?_put_append (new : Node) (h : root.find? l = some old) (m : Location) :
    (put new l root).find? (l ++ m) = new.find? m := by
  induction l generalizing root with
  | nil => rw [put, List.nil_append]
  | cons n l ih =>
    obtain ⟨es₀, child, rfl, hchild, hfound⟩ := exists_of_find?_cons h
    rw [put_cons_of_lookup hchild, List.cons_append, find?_cons, entries, Entries.lookup_set,
      if_pos rfl, Option.bind_some]
    exact ih hfound

/-- The files that lie directly in the directory at a location. -/
def filesAt (l : Location) (root : Node) : List (String × ByteArray) :=
  match root.find? l with
  | some node => filesOf node.entries
  | none => []

/-- Whether a directory is at a location. -/
def HasDirectory (root : Node) (l : Location) : Prop := ∃ es, root.find? l = some (.directory es)

instance (root : Node) (l : Location) : Decidable (root.HasDirectory l) :=
  decidable_of_iff ((root.find? l).any fun node => node.bytes?.isNone) <| by
    unfold HasDirectory
    cases root.find? l with
    | none => simp
    | some node => cases node <;> simp [bytes?]

theorem HasDirectory.of_append (h : root.HasDirectory (l ++ m)) : root.HasDirectory l := by
  obtain ⟨es, hes⟩ := h
  rw [find?_append, Option.bind_eq_some_iff] at hes
  obtain ⟨node, hnode, hm⟩ := hes
  cases m with
  | nil => exact ⟨es, by rw [hnode]; exact hm⟩
  | cons n m =>
    obtain ⟨es₁, child, rfl, -, -⟩ := exists_of_find?_cons hm
    exact ⟨es₁, hnode⟩

theorem exists_put_directory (es' : List (String × Node))
    (h : root.find? l = some (.directory es)) :
    ∃ es₀ es₁, root = .directory es₀ ∧ put (.directory es') l root = .directory es₁ := by
  cases l with
  | nil =>
    obtain rfl : root = .directory es := Option.some.inj h
    exact ⟨es, es', rfl, by rw [put]⟩
  | cons n l =>
    obtain ⟨es₀, child, rfl, hchild, -⟩ := exists_of_find?_cons h
    exact ⟨es₀, _, rfl, put_cons_of_lookup hchild⟩

/-- New entries for one directory leave the files and directories outside of it as they are. -/
theorem put_outside (h : root.find? l = some (.directory es)) (hm : ¬ l <+: m) :
    (put (.directory es') l root).filesAt m = root.filesAt m ∧
      ((put (.directory es') l root).HasDirectory m ↔ root.HasDirectory m) := by
  induction l generalizing root m with
  | nil => exact absurd (List.nil_prefix) hm
  | cons n l ih =>
    obtain ⟨es₀, child, rfl, hchild, hfound⟩ := exists_of_find?_cons h
    rw [put_cons_of_lookup hchild]
    cases m with
    | nil =>
      -- The directory on the way gets a directory for a directory.
      obtain ⟨es₁, es₂, rfl, hput⟩ := exists_put_directory es' hfound
      refine ⟨?_, ⟨fun _ => ⟨_, rfl⟩, fun _ => ⟨_, rfl⟩⟩⟩
      rw [hput]
      refine filesOf_set_directory fun bytes hfile => ?_
      rw [hchild] at hfile
      cases hfile
    | cons k m =>
      unfold filesAt HasDirectory
      rw [find?_cons, find?_cons, entries, entries, Entries.lookup_set]
      by_cases hk : k = n
      · subst hk
        rw [if_pos rfl, hchild, Option.bind_some, Option.bind_some]
        exact ih hfound fun hl => hm (List.cons_prefix_cons.2 ⟨rfl, hl⟩)
      · rw [if_neg hk]
        exact ⟨rfl, Iff.rfl⟩

end Locations

end Node

/-! ## Names in a path -/

namespace Path

theorem parts_ne_nil (t : Text) : parts t ≠ [] := by
  cases t with
  | nil => exact List.cons_ne_nil _ _
  | cons c t =>
    rw [parts]
    split
    · exact List.cons_ne_nil _ _
    · split <;> exact List.cons_ne_nil _ _

theorem parts_append_slash (s t : Text) : parts (s ++ '/' :: t) = parts s ++ parts t := by
  induction s with
  | nil => rfl
  | cons c s ih =>
    rw [List.cons_append, parts, parts, ih]
    split
    · rw [List.cons_append]
    · cases hs : parts s with
      | nil => exact absurd hs (parts_ne_nil s)
      | cons p ps => rfl

theorem parts_of_slash_notMem {t : Text} (h : '/' ∉ t) : parts t = [t] := by
  induction t with
  | nil => rfl
  | cons c t ih =>
    rw [List.mem_cons, not_or] at h
    rw [parts, if_neg (Ne.symm h.1), ih h.2]

theorem isAbsolute_of_slash_notMem {name : String} (h : '/' ∉ name.toList) :
    isAbsolute name = false := by
  rw [isAbsolute]
  cases hname : name.toList with
  | nil => rfl
  | cons c t =>
    rw [hname, List.mem_cons, not_or] at h
    simpa using Ne.symm h.1

end Path

namespace Disk

theorem names_of_slash_notMem {name : String} (h : '/' ∉ name.toList) : names name = [name] := by
  rw [names, Path.parts_of_slash_notMem h, List.map_singleton, String.ofList_toList]

theorem names_append_slash (path name : String) :
    names (path ++ "/" ++ name) = names path ++ names name := by
  have hchars : (path ++ "/" ++ name).toList = path.toList ++ '/' :: name.toList := by
    rw [String.toList_append, String.toList_append, List.append_assoc]
    rfl
  rw [names, hchars, Path.parts_append_slash, List.map_append, names, names]

/-- The names of a path to something in a directory are those of the directory and its own; an empty
name at the end is dropped. -/
theorem names_join (path : String) {name : String} (h : '/' ∉ name.toList) :
    ∃ ns, names (Path.join path name) = ns ++ [name] ∧
      (names path = ns ∨ names path = ns ++ [""]) := by
  rw [Path.join, Path.isAbsolute_of_slash_notMem h, Bool.false_or]
  by_cases hnil : path.toList.isEmpty
  · rw [if_pos hnil]
    have hpath : path = "" := String.toList_inj.1 (List.isEmpty_iff.1 hnil)
    exact ⟨[], names_of_slash_notMem h, Or.inr (by rw [hpath]; rfl)⟩
  rw [if_neg hnil]
  by_cases hlast : path.toList.getLast? == some '/'
  · -- The slash at the end of the directory's path is the one before the name.
    rw [if_pos hlast]
    obtain ⟨t, ht⟩ := List.getLast?_eq_some_iff.1 (beq_iff_eq.1 hlast)
    have hpath : path = String.ofList t ++ "/" ++ "" := by
      apply String.toList_inj.1
      rw [ht, String.toList_append, String.toList_append, String.toList_ofList]
      exact (List.append_nil _).symm
    refine ⟨names (String.ofList t), ?_, Or.inr ?_⟩
    · rw [hpath, String.append_empty, names_append_slash, names_of_slash_notMem h]
    · rw [hpath, names_append_slash]
      rfl
  · rw [if_neg hlast]
    exact ⟨names path, by rw [names_append_slash, names_of_slash_notMem h], Or.inl rfl⟩

theorem isAbsolute_join (path : String) {name : String} (h : '/' ∉ name.toList) :
    Path.isAbsolute (Path.join path name) = Path.isAbsolute path := by
  rw [Path.join, Path.isAbsolute_of_slash_notMem h, Bool.false_or]
  by_cases hnil : path.toList.isEmpty
  · rw [if_pos hnil, Path.isAbsolute_of_slash_notMem h, Path.isAbsolute,
      List.isEmpty_iff.1 hnil]
    rfl
  · rw [if_neg hnil]
    obtain ⟨c, t, ht⟩ := List.exists_cons_of_ne_nil (fun hempty => hnil (List.isEmpty_iff.2 hempty))
    split <;> simp [Path.isAbsolute, ht]

/-! ## Where a path leads -/

theorem ok_bind {α β : Type} (a : α) (f : α → Except FileFault β) : Except.ok a >>= f = f a := rfl

theorem bind_eq_ok_iff {α β : Type} {x : Except FileFault α} {f : α → Except FileFault β} {b : β} :
    x >>= f = .ok b ↔ ∃ a, x = .ok a ∧ f a = .ok b := by
  cases x with
  | error e => exact ⟨fun h => (nomatch h), fun ⟨_, h, _⟩ => (nomatch h)⟩
  | ok a => exact ⟨fun h => ⟨a, rfl, h⟩, fun ⟨_, ha, h⟩ => Except.ok.inj ha ▸ h⟩

section Places

variable {d : Disk} {l m : Location} {path name : String} {ns ns' : List String}
  {es : List (String × Node)} {node : Node}

/-- The files that lie directly in the directory at a location. -/
def filesAt (d : Disk) (l : Location) : List (String × ByteArray) := d.root.filesAt l

/-- Whether a directory is at a location. -/
def HasDirectory (d : Disk) (l : Location) : Prop := d.root.HasDirectory l

instance (d : Disk) (l : Location) : Decidable (d.HasDirectory l) :=
  inferInstanceAs (Decidable (d.root.HasDirectory l))

theorem filesAt_of_find? (h : d.find? l = some (.directory es)) :
    d.filesAt l = Node.filesOf es := by
  rw [find?] at h
  rw [filesAt, Node.filesAt, h]
  rfl

theorem filesAt_of_find?_eq_none (h : d.find? l = none) : d.filesAt l = [] := by
  rw [find?] at h
  rw [filesAt, Node.filesAt, h]

/-- Where a name leads from a directory. -/
def follow (l : Location) (name : String) : Location :=
  if name = "" || name = "." then l else if name = ".." then l.dropLast else l ++ [name]

theorem follow_cases (l : Location) (name : String) :
    name = "" ∨ name = "." ∨ name = ".." ∨ follow l name = l ++ [name] := by
  rw [follow]
  split_ifs with h₁ h₂
  · simp only [Bool.or_eq_true, decide_eq_true_eq] at h₁
    exact h₁.imp_right Or.inl
  · exact Or.inr (Or.inr (Or.inl h₂))
  · exact Or.inr (Or.inr (Or.inr rfl))

/-- Where a path leads if all directories on the way are there. -/
def place (d : Disk) (path : String) : Location := (names path).foldl follow (d.origin path)

/-- Whether a name can be followed from a location. -/
def Follows (d : Disk) (l : Location) (name : String) : Prop :=
  ∃ es, d.find? l = some (.directory es) ∧
    (name = "" ∨ name = "." ∨ name = ".." ∨
      Text.byteSize name.toList ≤ maxNameSize ∧ (es.lookup name).isSome)

theorem walk_cons_of_follows (h : d.Follows l name) (ns : List String) :
    d.walk l (name :: ns) = d.walk (follow l name) ns := by
  obtain ⟨es, hes, hname⟩ := h
  rw [walk, hes, follow]
  dsimp only
  split_ifs with h₁ h₂ h₃ h₄
  · rfl
  · rfl
  · simp only [Bool.or_eq_true, decide_eq_true_eq] at h₁
    have hsize : Text.byteSize name.toList ≤ maxNameSize := by tauto
    exact absurd hsize (Nat.not_le_of_lt h₃)
  · rfl
  · simp only [Bool.or_eq_true, decide_eq_true_eq] at h₁
    tauto

theorem follows_of_walk_cons (h : d.walk l (name :: ns) = .ok m) : d.Follows l name := by
  rw [walk] at h
  split at h
  case h_1 es hes =>
    refine ⟨es, hes, ?_⟩
    split_ifs at h with h₁ h₂ h₃ h₄
    · simp only [Bool.or_eq_true, decide_eq_true_eq] at h₁
      exact h₁.imp_right Or.inl
    · exact Or.inr (Or.inr (Or.inl h₂))
    · exact Or.inr (Or.inr (Or.inr ⟨Nat.le_of_not_lt h₃, h₄⟩))
  case h_2 => cases h
  case h_3 => cases h

theorem walk_append (h : d.walk l ns = .ok m) (ns' : List String) :
    d.walk l (ns ++ ns') = d.walk m ns' := by
  induction ns generalizing l with
  | nil =>
    cases h
    rfl
  | cons n ns ih =>
    have hfollows := follows_of_walk_cons h
    rw [walk_cons_of_follows hfollows] at h
    rw [List.cons_append, walk_cons_of_follows hfollows, ih h]

theorem exists_walk_of_append (h : d.walk l (ns ++ ns') = .ok m) : ∃ k, d.walk l ns = .ok k := by
  induction ns generalizing l with
  | nil => exact ⟨l, rfl⟩
  | cons n ns ih =>
    rw [List.cons_append] at h
    have hfollows := follows_of_walk_cons h
    rw [walk_cons_of_follows hfollows] at h ⊢
    exact ih h

/-- A walk that succeeds ends where the names lead. -/
theorem eq_of_walk (h : d.walk l ns = .ok m) : m = ns.foldl follow l := by
  induction ns generalizing l with
  | nil => exact (Except.ok.inj h).symm
  | cons n ns ih =>
    rw [walk_cons_of_follows (follows_of_walk_cons h)] at h
    exact ih h

/-- What a walk to a directory starts from is a directory too. -/
theorem hasDirectory_of_walk (h : d.walk l ns = .ok m) (hm : d.HasDirectory m) :
    d.HasDirectory l := by
  cases ns with
  | nil => cases h; exact hm
  | cons n ns =>
    obtain ⟨es, hes, -⟩ := follows_of_walk_cons h
    exact ⟨es, hes⟩

theorem locate_eq_ok_iff :
    d.locate path = .ok l ↔
      FileFault.ofPath? path = none ∧ d.walk (d.origin path) (names path) = .ok l := by
  rw [locate]
  cases FileFault.ofPath? path with
  | some e => exact ⟨fun h => (nomatch h), fun h => (nomatch h.1)⟩
  | none => exact ⟨fun h => ⟨rfl, h⟩, And.right⟩

theorem eq_place_of_locate (h : d.locate path = .ok l) : l = d.place path :=
  eq_of_walk (locate_eq_ok_iff.1 h).2

theorem node_eq_ok_iff :
    d.node path = .ok node ↔
      d.locate path = .ok (d.place path) ∧ d.find? (d.place path) = some node := by
  rw [Disk.node, bind_eq_ok_iff]
  constructor
  · rintro ⟨l, hl, h⟩
    obtain rfl := eq_place_of_locate hl
    split at h
    case h_1 found hfound =>
      cases h
      exact ⟨hl, hfound⟩
    case h_2 => cases h
  · rintro ⟨hl, hfound⟩
    exact ⟨_, hl, by rw [hfound]⟩

theorem isAbsolute_of_names_empty (hpath : FileFault.ofPath? path = none)
    (h : ∀ n ∈ names path, n = "") : Path.isAbsolute path := by
  rw [Path.isAbsolute]
  cases hchars : path.toList with
  | nil =>
    obtain rfl : path = "" := String.toList_inj.1 hchars
    cases hpath
  | cons c t =>
    by_cases hc : c = '/'
    · rw [hc]
      rfl
    · rw [names, hchars, Path.parts, if_neg hc] at h
      split at h <;> simp at h

/-- The last name of a path is that of something in a directory, unless the path leads to something
that is there. -/
theorem target_cases (h : d.target path = .ok l) :
    (∃ node, d.find? l = some node) ∨
      ∃ m es name, l = m ++ [name] ∧ d.find? m = some (.directory es) := by
  rw [target] at h
  split at h
  case h_1 => cases h
  case h_2 hpath =>
    dsimp only at h
    split at h
    case h_1 htrim =>
      cases h
      have hnames : ∀ n ∈ names path, n = "" := by
        simpa [List.dropWhile_eq_nil_iff] using htrim
      rw [origin, if_pos (isAbsolute_of_names_empty hpath hnames)]
      exact Or.inl ⟨d.root, rfl⟩
    case h_2 name before _ =>
      obtain ⟨m, -, h⟩ := bind_eq_ok_iff.1 h
      split at h
      case h_1 es hes =>
        split_ifs at h
        · cases h
          exact Or.inl ⟨_, hes⟩
        · cases h
          obtain ⟨t, ht⟩ := List.dropLast_prefix m
          have habove : d.root.HasDirectory (m.dropLast ++ t) := ⟨es, by rw [ht]; exact hes⟩
          exact Or.inl ⟨_, habove.of_append.choose_spec⟩
        · cases h
          exact Or.inr ⟨m, es, name, rfl, hes⟩
      case h_2 => cases h
      case h_3 => cases h

theorem foldl_follow_of_empty {ns : List String} (h : ∀ n ∈ ns, n = "") (l : Location) :
    ns.foldl follow l = l := by
  induction ns with
  | nil => rfl
  | cons n ns ih =>
    obtain ⟨rfl, hns⟩ := List.forall_mem_cons.1 h
    exact ih hns

/-- The names of a path are those up to its last one that is not empty, and empty ones. -/
theorem names_eq_trim (path : String) :
    ∃ blanks, names path = ((names path).reverse.dropWhile (· = "")).reverse ++ blanks ∧
      ∀ n ∈ blanks, n = "" := by
  refine ⟨((names path).reverse.takeWhile (· = "")).reverse, ?_, fun n hn => ?_⟩
  · rw [← List.reverse_append, List.takeWhile_append_dropWhile, List.reverse_reverse]
  · have hempty := List.mem_takeWhile_imp (List.mem_reverse.1 hn)
    exact of_decide_eq_true hempty

theorem ne_empty_of_trim {before : List String}
    (h : (names path).reverse.dropWhile (· = "") = name :: before) : name ≠ "" := by
  have hhead := List.head?_dropWhile_not (fun n => decide (n = "")) (names path).reverse
  rw [h] at hhead
  exact of_decide_eq_false hhead

/-- The location that is given to something is where its path leads. -/
theorem eq_place_of_target (h : d.target path = .ok l) : l = d.place path := by
  obtain ⟨blanks, hnames, hblanks⟩ := names_eq_trim path
  rw [target] at h
  split at h
  case h_1 => cases h
  case h_2 =>
    rw [place, hnames, List.foldl_append, foldl_follow_of_empty hblanks]
    dsimp only at h
    split at h
    case h_1 htrim =>
      cases h
      rw [htrim]
      rfl
    case h_2 name before htrim =>
      have hname := ne_empty_of_trim htrim
      rw [htrim, List.reverse_cons, List.foldl_append]
      obtain ⟨m, hm, h⟩ := bind_eq_ok_iff.1 h
      rw [← eq_of_walk hm]
      show l = follow m name
      split at h
      case h_1 =>
        unfold follow
        split_ifs at h with hdot hdots
        · cases h
          simp [hdot]
        · cases h
          simp [hdots]
        · cases h
          simp [hname, hdot, hdots]
      case h_2 => cases h
      case h_3 => cases h

/-- Something that is there has the location that its path gives it. -/
theorem target_of_locate (h : d.locate path = .ok l) : d.target path = .ok l := by
  obtain ⟨hpath, hwalk⟩ := locate_eq_ok_iff.1 h
  obtain ⟨blanks, hnames, hblanks⟩ := names_eq_trim path
  rw [hnames] at hwalk
  obtain ⟨k, hk⟩ := exists_walk_of_append hwalk
  rw [walk_append hk] at hwalk
  obtain rfl := (eq_of_walk hwalk).trans (foldl_follow_of_empty hblanks k)
  rw [target, hpath]
  dsimp only
  split
  case h_1 htrim =>
    rw [htrim] at hk
    exact hk
  case h_2 name before htrim =>
    have hempty := ne_empty_of_trim htrim
    rw [htrim, List.reverse_cons] at hk
    obtain ⟨m, hm⟩ := exists_walk_of_append hk
    rw [walk_append hm] at hk
    obtain ⟨es, hes, hname⟩ := follows_of_walk_cons hk
    rw [hm, ok_bind, hes, eq_of_walk hk]
    dsimp only [List.foldl_cons, List.foldl_nil]
    rcases hname with rfl | rfl | rfl | ⟨hsize, -⟩
    · exact absurd rfl hempty
    · rfl
    · rfl
    · rw [follow, if_neg (Nat.not_lt.2 hsize)]
      split_ifs <;> simp_all

end Places

/-! ## Something in a directory -/

section Entries

variable {d : Disk} {l : Location} {path name : String} {es : List (String × Node)} {node : Node}

theorem IsEntryName.of_length (hslash : '/' ∉ name.toList) (h : 2 < name.toList.length) :
    IsEntryName name where
  slash_notMem := hslash
  ne_empty := by
    rintro rfl
    exact absurd h (by decide)
  ne_dot := by
    rintro rfl
    exact absurd h (by decide)
  ne_dotDot := by
    rintro rfl
    exact absurd h (by decide)

theorem IsEntryName.follow (h : IsEntryName name) (l : Location) : follow l name = l ++ [name] := by
  have hnone : ¬ (name = "" || name = ".") = true := by simp [h.ne_empty, h.ne_dot]
  rw [Disk.follow, if_neg hnone, if_neg h.ne_dotDot]

theorem origin_join (d : Disk) (path : String) (h : IsEntryName name) :
    d.origin (Path.join path name) = d.origin path := by
  rw [origin, origin, isAbsolute_join path h.slash_notMem]

/-- The names before the one of an entry lead to the directory. -/
theorem exists_names_join (d : Disk) (path : String) (h : IsEntryName name) :
    ∃ ns, names (Path.join path name) = ns ++ [name] ∧
      ns.foldl follow (d.origin path) = d.place path ∧
      ∀ l, d.walk (d.origin path) (names path) = .ok l → d.walk (d.origin path) ns = .ok l := by
  obtain ⟨ns, hjoin, hns | hns⟩ := names_join path h.slash_notMem
  · exact ⟨ns, hjoin, by rw [place, hns], fun l hl => by rwa [← hns]⟩
  · refine ⟨ns, hjoin, ?_, fun l hl => ?_⟩
    · rw [place, hns, List.foldl_append]
      rfl
    · rw [hns] at hl
      obtain ⟨k, hk⟩ := exists_walk_of_append hl
      rw [walk_append hk] at hl
      exact hk.trans (congrArg Except.ok (eq_of_walk hl).symm)

theorem place_join (d : Disk) (path : String) (h : IsEntryName name) :
    d.place (Path.join path name) = d.place path ++ [name] := by
  obtain ⟨ns, hjoin, hplace, -⟩ := exists_names_join d path h
  rw [place, hjoin, origin_join d path h, List.foldl_append, hplace]
  exact h.follow _

/-- The path of something in a directory is not too long, and neither is its name. -/
structure Fits (path name : String) : Prop where
  ofPath?_eq_none : FileFault.ofPath? (Path.join path name) = none
  size_le : Text.byteSize name.toList ≤ maxNameSize

theorem target_join_cases (hname : IsEntryName name) (h : d.target (Path.join path name) = .ok l) :
    l = d.place path ++ [name] ∧ Fits path name := by
  obtain ⟨ns, hjoin, hplace, -⟩ := exists_names_join d path hname
  rw [target, hjoin, origin_join d path hname] at h
  split at h
  case h_1 => cases h
  case h_2 hpath =>
    rw [List.reverse_append, List.reverse_singleton, List.singleton_append,
      List.dropWhile_cons_of_neg (by simpa using hname.ne_empty)] at h
    dsimp only at h
    rw [List.reverse_reverse] at h
    obtain ⟨m, hm, h⟩ := bind_eq_ok_iff.1 h
    obtain rfl : m = d.place path := (eq_of_walk hm).trans hplace
    split at h
    case h_1 =>
      rw [if_neg hname.ne_dot, if_neg hname.ne_dotDot] at h
      split at h
      case isTrue => cases h
      case isFalse hsize =>
        cases h
        exact ⟨rfl, hpath, Nat.le_of_not_lt hsize⟩
    case h_2 => cases h
    case h_3 => cases h

theorem target_join_of_fits (hname : IsEntryName name) (hfits : Fits path name)
    (hdirectory : d.node path = .ok (.directory es)) :
    d.target (Path.join path name) = .ok (d.place path ++ [name]) := by
  obtain ⟨hlocate, hes⟩ := node_eq_ok_iff.1 hdirectory
  obtain ⟨ns, hjoin, -, hwalk⟩ := exists_names_join d path hname
  have hstart := hwalk _ (locate_eq_ok_iff.1 hlocate).2
  rw [target, hfits.ofPath?_eq_none, hjoin, origin_join d path hname]
  dsimp only
  rw [List.reverse_append, List.reverse_singleton, List.singleton_append,
      List.dropWhile_cons_of_neg (by simpa using hname.ne_empty)]
  dsimp only
  rw [List.reverse_reverse, hstart, ok_bind, hes]
  dsimp only
  rw [if_neg hname.ne_dot, if_neg hname.ne_dotDot, if_neg (Nat.not_lt.2 hfits.size_le)]

/-- The path of something in a directory does not end in a slash. -/
theorem getLast?_join_ne (path : String) (hname : IsEntryName name) :
    (Path.join path name).toList.getLast? ≠ some '/' := by
  have hne : name.toList ≠ [] := fun hnil => hname.ne_empty (String.toList_inj.1 hnil)
  obtain ⟨t, ht⟩ : ∃ t, (Path.join path name).toList = t ++ name.toList := by
    rw [Path.join]
    split_ifs
    · exact ⟨[], rfl⟩
    · exact ⟨_, String.toList_append⟩
    · exact ⟨_, String.toList_append⟩
  rw [ht, List.getLast?_append, List.getLast?_eq_some_getLast hne, Option.some_or]
  intro hlast
  exact hname.slash_notMem (Option.some.inj hlast ▸ List.getLast_mem hne)

/-- What is found in a directory is one of its entries. -/
theorem lookup_of_find?_append (h : d.find? (l ++ [name]) = some node) :
    ∃ es, d.find? l = some (.directory es) ∧ es.lookup name = some node := by
  rw [find?, Node.find?_append, Option.bind_eq_some_iff] at h
  obtain ⟨above, habove, h⟩ := h
  obtain ⟨es, child, rfl, hchild, hnode⟩ := Node.exists_of_find?_cons h
  cases hnode
  exact ⟨es, habove, hchild⟩

theorem find?_append_singleton (h : d.find? l = some (.directory es)) (name : String) :
    d.find? (l ++ [name]) = es.lookup name := by
  rw [find?] at h
  rw [find?, Node.find?_append, h, Option.bind_some, Node.find?_cons, Node.entries]
  cases es.lookup name <;> rfl

theorem walk_entry (hname : IsEntryName name) (hes : d.find? l = some (.directory es))
    (hnode : es.lookup name = some node) (hsize : Text.byteSize name.toList ≤ maxNameSize) :
    d.walk l [name] = .ok (l ++ [name]) := by
  have hfollows : d.Follows l name :=
    ⟨es, hes, Or.inr (Or.inr (Or.inr ⟨hsize, by rw [hnode]; rfl⟩))⟩
  rw [walk_cons_of_follows hfollows, hname.follow]
  rfl

theorem locate_join_of_fits (hname : IsEntryName name) (hfits : Fits path name)
    (hdirectory : d.node path = .ok (.directory es)) (hnode : es.lookup name = some node) :
    d.locate (Path.join path name) = .ok (d.place path ++ [name]) := by
  obtain ⟨hlocate, hes⟩ := node_eq_ok_iff.1 hdirectory
  obtain ⟨ns, hjoin, -, hwalk⟩ := exists_names_join d path hname
  have hstart := hwalk _ (locate_eq_ok_iff.1 hlocate).2
  refine locate_eq_ok_iff.2 ⟨hfits.ofPath?_eq_none, ?_⟩
  rw [origin_join d path hname, hjoin, walk_append hstart]
  exact walk_entry hname hes hnode hfits.size_le

end Entries

end Disk

end ErbTags
