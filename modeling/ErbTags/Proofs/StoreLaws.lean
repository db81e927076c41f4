import ErbTags.Cache.Memory
import Mathlib.Logic.Function.Basic

/-!
# What a store can be relied on for

Any operation of a store may fail at any time. What a store is relied on for is only that it gives
no wrong text: a read that succeeds gives the text of the last write that succeeded under the same
key, as long as nothing was cleared since (`Store.KeepsTexts`). The store in memory has this
property, and a store that has it keeps it when faults are put on top of it (`Store.withFaults`).
-/

namespace ErbTags

variable {σ α β : Type}

/-- The store keeps texts at addresses: `content` tells from its state which ones. A write that
fails changes nothing, and a failed attempt to forget all texts may leave some of them. -/
structure Store.KeepsTexts [DecidableEq α] (store : Store (StateM σ)) (address : CacheKey → α)
    (content : σ → α → Option String) : Prop where
  display_eq : ∀ {key key'}, address key = address key' → key.display = key'.display
  content_read : ∀ key s, content (store.read key s).2 = content s
  read_ok : ∀ {key s found}, (store.read key s).1 = .ok found → found = content s (address key)
  write_ok : ∀ {key text s}, (store.write key text s).1 = .ok () →
    content (store.write key text s).2 = Function.update (content s) (address key) (some text)
  write_error : ∀ {key text s e}, (store.write key text s).1 = .error e →
    content (store.write key text s).2 = content s
  clear_ok : ∀ {s}, (store.clear s).1 = .ok () → ∀ a, content (store.clear s).2 a = .none
  clear_error : ∀ {s e}, (store.clear s).1 = .error e →
    ∀ a, content (store.clear s).2 a = .none ∨ content (store.clear s).2 a = content s a

/-- The store never fails to read or to write. -/
structure Store.Reliable (store : Store (StateM σ)) : Prop where
  read_isOk : ∀ key s, ∃ found, (store.read key s).1 = .ok found
  write_isOk : ∀ key text s, (store.write key text s).1 = .ok ()

namespace Store.KeepsTexts

variable [DecidableEq α] {store : Store (StateM σ)} {address : CacheKey → α}
  {content : σ → α → Option String}

/-- A write leaves the texts at other addresses as they are, and puts its own text at its address or
nothing. -/
theorem write_cases (h : store.KeepsTexts address content) (key : CacheKey) (text : String)
    (s : σ) :
    content (store.write key text s).2 = Function.update (content s) (address key) (some text) ∨
      content (store.write key text s).2 = content s := by
  cases hwrite : (store.write key text s).1 with
  | ok _ => exact Or.inl (h.write_ok hwrite)
  | error e => exact Or.inr (h.write_error hwrite)

theorem clear_cases (h : store.KeepsTexts address content) (s : σ) (a : α) :
    content (store.clear s).2 a = .none ∨ content (store.clear s).2 a = content s a := by
  cases hclear : (store.clear s).1 with
  | ok _ => exact Or.inl (h.clear_ok hclear a)
  | error e => exact h.clear_error hclear a

end Store.KeepsTexts

/-! ## The store in memory -/

namespace Memory

theorem keepsTexts_store :
    store.KeepsTexts CacheKey.display (fun entries text => List.lookup text entries) where
  display_eq h := h
  content_read _ _ := rfl
  read_ok h := (Except.ok.inj h).symm
  write_ok _ := by
    funext a
    rw [Function.update_apply]
    exact Entries.lookup_set ..
  write_error h := by cases h
  clear_ok _ _ := rfl
  clear_error h := by cases h

theorem reliable_store : store.Reliable where
  read_isOk _ _ := ⟨_, rfl⟩
  write_isOk _ _ _ := rfl

end Memory

/-! ## Faults on top of a store -/

/-- The operation, unless a fault is due: the list tells for each operation to come whether it
fails, and how. An operation that fails does nothing else. -/
def faulty (op : StateM σ (Except CacheFault β)) :
    StateM (σ × List (Option CacheFault)) (Except CacheFault β) := fun s =>
  match s.2.headD none with
  | some e => (.error e, s.1, s.2.tail)
  | none => ((op s.1).1, (op s.1).2, s.2.tail)

/-- The store with faults on top of it. -/
def Store.withFaults (store : Store (StateM σ)) :
    Store (StateM (σ × List (Option CacheFault))) where
  read key := faulty (store.read key)
  write key text := faulty (store.write key text)
  clear := faulty store.clear

/-- Where a fault is due an operation fails and changes nothing; elsewhere it does what it does. -/
theorem faulty_cases (op : StateM σ (Except CacheFault β)) (s : σ × List (Option CacheFault)) :
    (∃ e, (faulty op s).1 = .error e ∧ (faulty op s).2.1 = s.1) ∨
      (faulty op s).1 = (op s.1).1 ∧ (faulty op s).2.1 = (op s.1).2 := by
  rw [faulty]
  cases s.2.headD none with
  | some e => exact Or.inl ⟨e, rfl, rfl⟩
  | none => exact Or.inr ⟨rfl, rfl⟩

theorem Store.KeepsTexts.withFaults [DecidableEq α] {store : Store (StateM σ)}
    {address : CacheKey → α} {content : σ → α → Option String}
    (h : store.KeepsTexts address content) :
    store.withFaults.KeepsTexts address (fun s => content s.1) where
  display_eq := h.display_eq
  content_read key s := by
    rcases faulty_cases (store.read key) s with ⟨e, -, hs⟩ | ⟨-, hs⟩
    · exact congrArg content hs
    · exact (congrArg content hs).trans (h.content_read key s.1)
  read_ok {key s found} hread := by
    rcases faulty_cases (store.read key) s with ⟨e, he, -⟩ | ⟨hr, -⟩
    · cases he.symm.trans hread
    · exact h.read_ok (hr.symm.trans hread)
  write_ok {key text s} hwrite := by
    rcases faulty_cases (store.write key text) s with ⟨e, he, -⟩ | ⟨hr, hs⟩
    · cases he.symm.trans hwrite
    · exact (congrArg content hs).trans (h.write_ok (hr.symm.trans hwrite))
  write_error {key text s e} hwrite := by
    rcases faulty_cases (store.write key text) s with ⟨e, -, hs⟩ | ⟨hr, hs⟩
    · exact congrArg content hs
    · exact (congrArg content hs).trans (h.write_error (hr.symm.trans hwrite))
  clear_ok {s} hclear a := by
    rcases faulty_cases store.clear s with ⟨e, he, -⟩ | ⟨hr, hs⟩
    · cases he.symm.trans hclear
    · exact (congrArg (content · a) hs).trans (h.clear_ok (hr.symm.trans hclear) a)
  clear_error {s e} hclear a := by
    rcases faulty_cases store.clear s with ⟨e, -, hs⟩ | ⟨hr, hs⟩
    · exact Or.inr (congrArg (content · a) hs)
    · have hcases := h.clear_error (hr.symm.trans hclear) a
      rwa [← hs] at hcases

/-! ## A record of writes -/

/-- The store with a record of the writes that it is asked for, failed ones included. -/
def Store.recorded (store : Store (StateM σ)) :
    Store (StateM (σ × List (CacheKey × String))) where
  read key := fun s => ((store.read key s.1).1, (store.read key s.1).2, s.2)
  write key text := fun s =>
    ((store.write key text s.1).1, (store.write key text s.1).2, s.2 ++ [(key, text)])
  clear := fun s => ((store.clear s.1).1, (store.clear s.1).2, s.2)

theorem Store.KeepsTexts.recorded [DecidableEq α] {store : Store (StateM σ)}
    {address : CacheKey → α} {content : σ → α → Option String}
    (h : store.KeepsTexts address content) :
    store.recorded.KeepsTexts address (fun s => content s.1) where
  display_eq := h.display_eq
  content_read key s := h.content_read key s.1
  read_ok hread := h.read_ok hread
  write_ok hwrite := h.write_ok hwrite
  write_error hwrite := h.write_error hwrite
  clear_ok hclear := h.clear_ok hclear
  clear_error hclear := h.clear_error hclear

end ErbTags
