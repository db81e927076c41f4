import ErbTags.Proofs.FileChanges
import Mathlib.Logic.Function.Basic

/-!
# What is seen of a file tree

A disk is seen as a function from locations to what stands there: a file with its bytes, a
directory, or nothing (`Disk.look`). Putting something into a directory and taking it out change
this function at one location (`look_put_entry`, `look_remove_entry`), so what a number of
operations does to all the files and directories of a tree is told by the locations that they name.
-/

namespace ErbTags

/-- What stands at a location. -/
inductive Sight where
  | file (bytes : ByteArray)
  | directory

def Sight.bytes? : Sight → Option ByteArray
  | .file bytes => some bytes
  | .directory => none

namespace Node

def sight : Node → Sight
  | .file bytes => .file bytes
  | .directory _ => .directory

/-- What stands at a location below a node. -/
def look (root : Node) (l : Location) : Option Sight := (root.find? l).map sight

section Look

variable {root new old : Node} {es es' : List (String × Node)} {l m : Location}

theorem look_cons (root : Node) (n : String) (l : Location) :
    root.look (n :: l) = (root.entries.lookup n).bind (look · l) := by
  rw [look, find?_cons]
  cases root.entries.lookup n <;> rfl

/-- Nothing lies below a file or an empty directory. -/
theorem look_of_entries_eq_nil (h : root.entries = []) (n : String) :
    root.look (n :: l) = none := by
  rw [look_cons, h]
  rfl

theorem look_append (h : root.find? l = some old) (m : Location) :
    root.look (l ++ m) = old.look m := by
  rw [look, find?_append, h, Option.bind_some, look]

theorem look_put_append (new : Node) (h : root.find? l = some old) (m : Location) :
    (put new l root).look (l ++ m) = new.look m := by
  rw [look, find?_put_append new h, look]

/-- New entries for one directory are not seen from outside of it. -/
theorem look_put_outside (h : root.find? l = some (.directory es)) (hm : ¬ l <+: m) :
    (put (.directory es') l root).look m = root.look m := by
  induction l generalizing root m with
  | nil => exact absurd List.nil_prefix hm
  | cons n l ih =>
    obtain ⟨es₀, child, rfl, hchild, hfound⟩ := exists_of_find?_cons h
    rw [put_cons_of_lookup hchild]
    cases m with
    | nil => rfl
    | cons k m =>
      rw [look_cons, look_cons, entries, entries, Entries.lookup_set]
      by_cases hk : k = n
      · subst hk
        rw [if_pos rfl, hchild, Option.bind_some, Option.bind_some]
        exact ih hfound fun hl => hm (List.cons_prefix_cons.2 ⟨rfl, hl⟩)
      · rw [if_neg hk]

end Look

end Node

namespace Disk

/-- What stands at a location. -/
def look (d : Disk) (l : Location) : Option Sight := d.root.look l

section Look

variable {d d' : Disk} {l : Location} {path name : String} {es es' : List (String × Node)}
  {bytes : ByteArray}

theorem look_eq_file_iff : d.look l = some (.file bytes) ↔ d.find? l = some (.file bytes) := by
  unfold look Node.look find?
  cases d.root.find? l with
  | none => simp
  | some node => cases node <;> simp [Node.sight]

theorem look_eq_directory_iff : d.look l = some .directory ↔ d.HasDirectory l := by
  unfold look Node.look HasDirectory Node.HasDirectory
  cases d.root.find? l with
  | none => simp
  | some node => cases node <;> simp [Node.sight]

/-- The bytes of the file at a location. -/
def fileAt? (d : Disk) (l : Location) : Option ByteArray := (d.find? l).bind Node.bytes?

theorem fileAt?_eq_bind (d : Disk) (l : Location) : d.fileAt? l = (d.look l).bind Sight.bytes? := by
  unfold fileAt? look Node.look find?
  cases d.root.find? l with
  | none => rfl
  | some node => cases node <;> rfl

theorem look_eq_none_iff : d.look l = none ↔ d.find? l = none := Option.map_eq_none_iff

/-- A directory gets other entries, which differ from the old ones in one name. If neither of the
two nodes of that name has anything below it, the change is seen at one location. -/
theorem look_put_entries (h : d.find? l = some (.directory es)) (name : String)
    (hother : ∀ n, n ≠ name → es'.lookup n = es.lookup n)
    (hold : ∀ node, es.lookup name = some node → node.entries = [])
    (hnew : ∀ node, es'.lookup name = some node → node.entries = []) :
    (d.put l (.directory es')).look =
      Function.update d.look (l ++ [name]) ((es'.lookup name).map Node.sight) := by
  have hroot : d.root.find? l = some (.directory es) := h
  funext m
  by_cases hm : l <+: m
  · obtain ⟨k, rfl⟩ := hm
    have hput : (d.put l (.directory es')).look (l ++ k) = (Node.directory es').look k :=
      Node.look_put_append _ hroot k
    have hbefore : d.look (l ++ k) = (Node.directory es).look k := Node.look_append hroot k
    cases k with
    | nil =>
      have hne : l ++ [] ≠ l ++ [name] := by simp
      rw [Function.update_of_ne hne, hput, hbefore]
      rfl
    | cons n k =>
      rw [Node.look_cons, Node.entries] at hput hbefore
      by_cases hn : n = name
      · subst hn
        cases k with
        | nil =>
          rw [Function.update_self, hput]
          cases es'.lookup n <;> rfl
        | cons n' k =>
          -- What lies below the name, lies below it neither before nor after.
          have hne : l ++ n :: n' :: k ≠ l ++ [n] := by simp
          rw [Function.update_of_ne hne, hput, hbefore]
          have hbelow : ∀ es₀ : List (String × Node),
              (∀ node, es₀.lookup n = some node → node.entries = []) →
                (es₀.lookup n).bind (Node.look · (n' :: k)) = none := by
            intro es₀ hbare
            cases hfound : es₀.lookup n with
            | none => rfl
            | some node => exact Node.look_of_entries_eq_nil (hbare node hfound) n'
          rw [hbelow es' hnew, hbelow es hold]
      · have hne : l ++ n :: k ≠ l ++ [name] := by simp [hn]
        rw [Function.update_of_ne hne, hput, hbefore, hother n hn]
  · have hne : m ≠ l ++ [name] := by
      rintro rfl
      exact hm (List.prefix_append l [name])
    rw [Function.update_of_ne hne]
    exact Node.look_put_outside hroot hm

theorem entries_eq_nil_of_ne_directory (h : ∀ es₁, es.lookup name ≠ some (.directory es₁)) :
    ∀ node, es.lookup name = some node → node.entries = [] := by
  intro node hnode
  cases node with
  | file _ => rfl
  | directory es₁ => exact absurd hnode (h es₁)

/-- Putting a file or an empty directory into a directory, not in place of a directory. -/
theorem look_put_entry (h : d.find? l = some (.directory es)) (name : String)
    (hname : ∀ es₁, es.lookup name ≠ some (.directory es₁)) {node : Node}
    (hnode : node.entries = []) :
    (d.put (l ++ [name]) node).look = Function.update d.look (l ++ [name]) (some node.sight) := by
  have hself : (Entries.set name node es).lookup name = some node := by
    rw [Entries.lookup_set, if_pos rfl]
  have hother : ∀ n, n ≠ name → (Entries.set name node es).lookup n = es.lookup n := by
    intro n hn
    rw [Entries.lookup_set, if_neg hn]
  have hbare : ∀ new, (Entries.set name node es).lookup name = some new → new.entries = [] := by
    intro new hnew
    rw [← Option.some.inj (hself.symm.trans hnew), hnode]
  rw [put_append_singleton h,
    look_put_entries h name hother (entries_eq_nil_of_ne_directory hname) hbare, hself,
    Option.map_some]

/-- Taking a node that is no directory out of a directory. -/
theorem look_remove_entry (h : d.find? l = some (.directory es)) (name : String)
    (hname : ∀ es₁, es.lookup name ≠ some (.directory es₁)) :
    (d.remove (l ++ [name])).look = Function.update d.look (l ++ [name]) none := by
  have hself : (es.filter (·.1 ≠ name)).lookup name = none := by
    rw [Entries.lookup_filter_ne, if_pos rfl]
  have hother : ∀ n, n ≠ name → (es.filter (·.1 ≠ name)).lookup n = es.lookup n := by
    intro n hn
    rw [Entries.lookup_filter_ne, if_neg hn]
  have hbare : ∀ new, (es.filter (·.1 ≠ name)).lookup name = some new → new.entries = [] := by
    intro new hnew
    cases hself.symm.trans hnew
  rw [remove_append_singleton h,
    look_put_entries h name hother (entries_eq_nil_of_ne_directory hname) hbare, hself,
    Option.map_none]

end Look

/-! ## Operations on files -/

section Operations

variable {d d' : Disk} {l : Location} {path name text : String} {es : List (String × Node)}

theorem look_createDirectory (h : d.createDirectory path = .ok d') :
    d.look (d.place path) = none ∧ d'.here = d.here ∧
      d'.look = Function.update d.look (d.place path) (some .directory) := by
  obtain ⟨l, hl, h⟩ := bind_eq_ok_iff.1 h
  obtain rfl := eq_place_of_target hl
  split at h
  case h_1 => cases h
  case h_2 hnone =>
    cases h
    refine ⟨look_eq_none_iff.2 hnone, rfl, ?_⟩
    rcases target_cases hl with ⟨node, hnode⟩ | ⟨m, es, name, hplace, hes⟩
    · cases hnone.symm.trans hnode
    · rw [hplace] at hnone ⊢
      rw [find?_append_singleton hes] at hnone
      refine look_put_entry hes name (fun es₁ hes₁ => ?_) rfl
      cases hnone.symm.trans hes₁

theorem look_removeFile (hname : IsEntryName name)
    (h : d.removeFile (Path.join path name) = .ok d') :
    (∃ bytes, d.look (d.place path ++ [name]) = some (.file bytes)) ∧ d'.here = d.here ∧
      d'.look = Function.update d.look (d.place path ++ [name]) none := by
  obtain ⟨es, bytes, hes, hfile, rfl⟩ := removeFile_eq hname h
  refine ⟨⟨bytes, ?_⟩, rfl, look_remove_entry hes name fun es₁ hes₁ => ?_⟩
  · rw [look_eq_file_iff, find?_append_singleton hes, hfile]
  · cases hfile.symm.trans hes₁

end Operations

/-! ## Making directories -/

section Makes

variable {d d' d'' : Disk} {paths : List String} {path : String} {l : Location}

theorem place_eq_of_here (h : d'.here = d.here) (path : String) : d'.place path = d.place path := by
  unfold place origin
  rw [h]

/-- Directories may have been made where some of the paths lead, but nothing else happened. -/
structure Makes (paths : List String) (d d' : Disk) : Prop where
  here_eq : d'.here = d.here
  look_cases : ∀ l, d'.look l = d.look l ∨
    d.look l = none ∧ d'.look l = some .directory ∧ ∃ path ∈ paths, l = d.place path

theorem Makes.refl (paths : List String) (d : Disk) : Makes paths d d := ⟨rfl, fun _ => Or.inl rfl⟩

theorem Makes.trans (h : Makes paths d d') (h' : Makes paths d' d'') : Makes paths d d'' := by
  refine ⟨h'.here_eq.trans h.here_eq, fun l => ?_⟩
  rcases h'.look_cases l with hsame' | ⟨hnone', hmade', path, hpath, rfl⟩
  · rw [hsame']
    exact h.look_cases l
  · rw [place_eq_of_here h.here_eq] at hnone' hmade' ⊢
    refine Or.inr ⟨?_, hmade', path, hpath, rfl⟩
    rcases h.look_cases (d.place path) with hsame | ⟨hnone, -⟩
    · rw [← hsame, hnone']
    · exact hnone

theorem Makes.fileAt?_eq (h : Makes paths d d') (l : Location) : d'.fileAt? l = d.fileAt? l := by
  rw [fileAt?_eq_bind, fileAt?_eq_bind]
  rcases h.look_cases l with hsame | ⟨hnone, hmade, -⟩
  · rw [hsame]
  · rw [hnone, hmade]
    rfl

theorem Makes.hasDirectory (h : Makes paths d d') (hl : d.HasDirectory l) : d'.HasDirectory l := by
  rw [← look_eq_directory_iff] at hl ⊢
  rcases h.look_cases l with hsame | ⟨-, hmade, -⟩
  · rw [hsame, hl]
  · exact hmade

theorem Makes.hasDirectory_cases (h : Makes paths d d') (hl : d'.HasDirectory l) :
    d.HasDirectory l ∨ ∃ path ∈ paths, l = d.place path := by
  rw [← look_eq_directory_iff] at hl ⊢
  rcases h.look_cases l with hsame | ⟨-, -, hpath⟩
  · exact Or.inl (hsame.symm.trans hl)
  · exact Or.inr hpath

theorem makes_createDirectory [Host] (hpath : path ∈ paths) (d : Disk) :
    Makes paths d ((FileSystem.createDirectory path : StateM Disk _) d).2 := by
  show Makes paths d (attempt (·.createDirectory path) d).2
  cases h : d.createDirectory path with
  | error e =>
    rw [attempt_of_error h]
    exact Makes.refl paths d
  | ok d' =>
    rw [attempt_of_ok h]
    obtain ⟨hnone, hhere, hlook⟩ := look_createDirectory h
    refine ⟨hhere, fun l => ?_⟩
    rw [hlook]
    by_cases hl : l = d.place path
    · subst hl
      exact Or.inr ⟨hnone, Function.update_self .., path, hpath, rfl⟩
    · exact Or.inl (Function.update_of_ne hl ..)

theorem makes_createDirectories [Host] (paths : List String) (d : Disk) :
    Makes paths d ((FileSystem.createDirectories paths : StateM Disk _) d).2 :=
  rel_createDirectories (Makes.refl paths) Makes.trans (fun _ => makes_createDirectory) d

end Makes

end Disk

end ErbTags
