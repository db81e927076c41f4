/-!
# Named entries

Lists of pairs of a name and a value. Each name stands for the value beside its first occurrence.
-/

namespace ErbTags.Entries

variable {α : Type} {name : String} {es : List (String × α)}

/-- The entries with one replaced, or added at the end. -/
def set (name : String) (a : α) : List (String × α) → List (String × α)
  | [] => [(name, a)]
  | (n, old) :: es => if n = name then (name, a) :: es else (n, old) :: set name a es

theorem lookup_cons (n : String) (a : α) (es : List (String × α)) (k : String) :
    List.lookup k ((n, a) :: es) = if k = n then some a else es.lookup k := by
  by_cases h : k = n
  · rw [if_pos h, h]
    exact List.lookup_cons_self
  · have hbeq : (k == n) = false := beq_false_of_ne h
    rw [if_neg h, List.lookup_cons, hbeq]

/-- Setting one name leaves the values of the others as they are. -/
theorem lookup_set (name : String) (a : α) (es : List (String × α)) (k : String) :
    (set name a es).lookup k = if k = name then some a else es.lookup k := by
  induction es with
  | nil => exact lookup_cons name a [] k
  | cons e es ih =>
    obtain ⟨n, old⟩ := e
    rw [set]
    by_cases hn : n = name
    · subst hn
      rw [if_pos rfl, lookup_cons, lookup_cons]
      split <;> rfl
    · rw [if_neg hn, lookup_cons, lookup_cons, ih]
      by_cases hk : k = n
      · subst hk
        rw [if_pos rfl, if_pos rfl, if_neg hn]
      · rw [if_neg hk, if_neg hk]

theorem lookup_filter_ne (name : String) (es : List (String × α)) (k : String) :
    (es.filter (·.1 ≠ name)).lookup k = if k = name then none else es.lookup k := by
  induction es with
  | nil => split <;> rfl
  | cons e es ih =>
    obtain ⟨n, old⟩ := e
    by_cases hn : n = name
    · rw [List.filter_cons_of_neg (by simpa using hn), ih, lookup_cons]
      by_cases hk : k = name
      · rw [if_pos hk, if_pos hk]
      · rw [if_neg hk, if_neg hk, if_neg (by rw [hn]; exact hk)]
    · rw [List.filter_cons_of_pos (by simpa using hn), lookup_cons, lookup_cons, ih]
      by_cases hk : k = name
      · subst hk
        rw [if_neg (Ne.symm hn), if_pos rfl, if_pos rfl]
      · rw [if_neg hk, if_neg hk]

/-- An entry that is new can be taken out again. -/
theorem filter_set (h : es.lookup name = none) (a : α) :
    (set name a es).filter (·.1 ≠ name) = es := by
  induction es with
  | nil => exact List.filter_cons_of_neg (by simp)
  | cons e es ih =>
    obtain ⟨n, old⟩ := e
    rw [lookup_cons] at h
    split at h
    case isTrue => cases h
    case isFalse hn =>
      rw [set, if_neg (Ne.symm hn), List.filter_cons_of_pos (by simpa using Ne.symm hn), ih h]

/-- Of two values that are set one after the other, the second counts. -/
theorem set_set (name : String) (new old : α) (es : List (String × α)) :
    set name new (set name old es) = set name new es := by
  induction es with
  | nil => exact if_pos rfl
  | cons e es ih =>
    obtain ⟨n, first⟩ := e
    by_cases hn : n = name
    · rw [set, if_pos hn, set, if_pos rfl, set, if_pos hn]
    · rw [set, if_neg hn, set, if_neg hn, set, if_neg hn, ih]

/-- A value that a name has can be set again. -/
theorem set_self {a : α} (h : es.lookup name = some a) : set name a es = es := by
  induction es with
  | nil => cases h
  | cons e es ih =>
    obtain ⟨n, first⟩ := e
    rw [lookup_cons] at h
    by_cases hn : n = name
    · rw [if_pos hn.symm] at h
      rw [set, if_pos hn, ← hn, Option.some.inj h]
    · rw [if_neg (Ne.symm hn)] at h
      rw [set, if_neg hn, ih h]

/-- Setting a name keeps the order of the names; a new one comes last. -/
theorem map_fst_set (name : String) (a : α) (es : List (String × α)) :
    (set name a es).map Prod.fst =
      if name ∈ es.map Prod.fst then es.map Prod.fst else es.map Prod.fst ++ [name] := by
  induction es with
  | nil => rfl
  | cons e es ih =>
    obtain ⟨n, old⟩ := e
    rw [set, List.map_cons]
    by_cases hn : n = name
    · subst hn
      rw [if_pos rfl, if_pos List.mem_cons_self, List.map_cons]
    · rw [if_neg hn, List.map_cons, ih]
      simp only [List.mem_cons, Ne.symm hn, false_or]
      split <;> rfl

theorem mem_of_lookup {a : α} (h : es.lookup name = some a) : (name, a) ∈ es := by
  obtain ⟨before, after, rfl, -⟩ := List.lookup_eq_some_iff.1 h
  exact List.mem_append_right before List.mem_cons_self

theorem lookup_of_mem {a : α} (hnodup : (es.map Prod.fst).Nodup) (h : (name, a) ∈ es) :
    es.lookup name = some a := by
  obtain ⟨before, after, rfl⟩ := List.append_of_mem h
  refine List.lookup_eq_some_iff.2 ⟨before, after, rfl, fun e he => ?_⟩
  have hne : name ≠ e.1 := by
    rintro rfl
    rw [List.map_append, List.nodup_append] at hnodup
    exact hnodup.2.2 _ (List.mem_map_of_mem he) _ List.mem_cons_self rfl
  simpa using hne

end ErbTags.Entries
