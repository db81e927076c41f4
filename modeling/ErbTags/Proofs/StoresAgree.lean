import ErbTags.Proofs.AtomicWrites
import ErbTags.Proofs.CachedResults
import ErbTags.Proofs.ForeignFiles
import Mathlib.Data.List.Dedup

/-!
# Two stores, one map

The store in memory and the directory store answer alike. Each is compared with what can be read off
the requests themselves: a read gives the text of the last write under the same displayed key since
the store was last cleared, and there are as many entries as displayed keys were written since then
(`mapObservations`). The memory remembers the requests in this sense (`Remembers`), and the files of
the directory mirror the memory, one file for each of its entries and in the same order (`Mirrors`).

That no request fails follows from what the disk is like at the start, if its host serves: a
directory that accepts the files of all keys goes on accepting them, so it serves one request and is
fit for the next one (`Tracks.step`).

Stores tell keys apart by their displayed texts only. Keys with different scopes and identities may
be displayed alike, since both may hold colons; such keys share one entry in either store.
-/

namespace ErbTags

variable {σ α : Type}

/-! ## Requests -/

/-- What is asked of a store. -/
inductive Request where
  | write (key : CacheKey) (text : String)
  | read (key : CacheKey)
  | clear
deriving DecidableEq

namespace Request

/-- The key that the request is about. -/
def key? : Request → Option CacheKey
  | .write key _ => some key
  | .read key => some key
  | .clear => none

/-- The answer of a store; it has a text just if a read finds one. -/
def run (store : Store (StateM σ)) : Request → StateM σ (Except CacheFault (Option String))
  | .write key text => fun s => ((store.write key text s).1.map fun _ => none,
      (store.write key text s).2)
  | .read key => store.read key
  | .clear => fun s => ((store.clear s).1.map fun _ => none, (store.clear s).2)

variable [DecidableEq α] (name : CacheKey → α)

/-- The text of the last write under the name of the key since the last clearing. The requests are
given latest first. -/
def lastText (key : CacheKey) : List Request → Option String
  | [] => none
  | .write key' text :: past => if name key' = name key then some text else lastText key past
  | .read _ :: past => lastText key past
  | .clear :: _ => none

/-- The names of the keys that were written since the last clearing. -/
def written : List Request → List α
  | [] => []
  | .write key _ :: past => name key :: written past
  | .read _ :: past => written past
  | .clear :: _ => []

/-- The right answer to a request after those before it. -/
def answer (past : List Request) : Request → Option String
  | .read key => lastText name key past
  | _ => none

end Request

/-- What is seen of a store: its answer to a request, and how many entries it has then. -/
structure Observation where
  answer : Except CacheFault (Option String)
  size : Nat
deriving DecidableEq

/-- What is seen of a store while it serves requests. -/
def Store.observe (store : Store (StateM σ)) (size : σ → Nat) : σ → List Request → List Observation
  | _, [] => []
  | s, request :: requests =>
    ⟨(request.run store s).1, size (request.run store s).2⟩ ::
      store.observe size (request.run store s).2 requests

/-- The state of a store when it has served requests. -/
def Store.serve (store : Store (StateM σ)) (s : σ) (requests : List Request) : σ :=
  requests.foldl (fun s request => (request.run store s).2) s

/-- What is seen of a map from the names of keys to texts, after the requests in `past`. -/
def mapObservations [DecidableEq α] (name : CacheKey → α) (past : List Request) :
    List Request → List Observation
  | [] => []
  | request :: requests =>
    ⟨.ok (request.answer name past), (Request.written name (request :: past)).dedup.length⟩ ::
      mapObservations name (request :: past) requests

/-! ## The store in memory -/

/-- The memory holds what was written and not cleared. -/
structure Remembers (past : List Request) (m : Memory) : Prop where
  lookup_eq : ∀ key : CacheKey, m.lookup key.display = Request.lastText CacheKey.display key past
  nodup : (m.map Prod.fst).Nodup
  mem_iff : ∀ k, k ∈ m.map Prod.fst ↔ k ∈ Request.written CacheKey.display past

section Memory

variable {past : List Request} {m : Memory}

theorem remembers_nil : Remembers [] [] where
  lookup_eq _ := rfl
  nodup := List.nodup_nil
  mem_iff _ := Iff.rfl

/-- The memory has one entry for each displayed key that was written. -/
theorem Remembers.length_eq (h : Remembers past m) :
    m.length = (Request.written CacheKey.display past).dedup.length := by
  rw [← List.length_map Prod.fst]
  refine ((List.perm_ext_iff_of_nodup h.nodup (List.nodup_dedup _)).2 fun k => ?_).length_eq
  rw [h.mem_iff, List.mem_dedup]

theorem Remembers.write (h : Remembers past m) (key : CacheKey) (text : String) :
    Remembers (.write key text :: past) (Entries.set key.display text m) := by
  constructor
  · intro key'
    rw [Entries.lookup_set, Request.lastText, h.lookup_eq]
    simp only [eq_comm]
  · rw [Entries.map_fst_set]
    split
    case isTrue => exact h.nodup
    case isFalse hnew =>
      rw [← List.concat_eq_append]
      exact h.nodup.concat hnew
  · intro k
    rw [Entries.map_fst_set, Request.written, List.mem_cons, ← h.mem_iff]
    split
    case isTrue hold => exact ⟨Or.inr, fun hk => hk.elim (fun hk => hk ▸ hold) id⟩
    case isFalse => rw [List.mem_append, List.mem_singleton, or_comm]

theorem Remembers.step (h : Remembers past m) (request : Request) :
    (request.run Memory.store m).1 = .ok (request.answer CacheKey.display past) ∧
      Remembers (request :: past) (request.run Memory.store m).2 := by
  cases request with
  | write key text => exact ⟨rfl, h.write key text⟩
  | read key => exact ⟨congrArg Except.ok (h.lookup_eq key), h.lookup_eq, h.nodup, h.mem_iff⟩
  | clear => exact ⟨rfl, fun _ => rfl, List.nodup_nil, fun _ => Iff.rfl⟩

theorem Remembers.run (h : Remembers past m) (requests : List Request) :
    Memory.store.observe List.length m requests =
        mapObservations CacheKey.display past requests ∧
      Remembers (requests.reverse ++ past) (Memory.store.serve m requests) := by
  induction requests generalizing past m with
  | nil => exact ⟨rfl, h⟩
  | cons request requests ih =>
    obtain ⟨hanswer, hnext⟩ := h.step request
    obtain ⟨hrest, hfinal⟩ := ih hnext
    rw [Store.observe, mapObservations, hanswer, hnext.length_eq, hrest, List.reverse_cons,
      List.append_assoc]
    exact ⟨rfl, hfinal⟩

end Memory

/-! ## The directory store -/

namespace CacheDirectory

/-- The file that holds an entry of the memory. -/
def fileOf (e : String × String) : String × ByteArray := (entryName e.1, e.2.toByteArray)

/-- The files of the directory hold the entries of the memory. Where there is an entry, the path
leads to the directory. -/
structure Mirrors (c : CacheDirectory) (m : Memory) (d : Disk) : Prop where
  filesAt_eq : d.filesAt (d.place c.path) = m.map fileOf
  node_eq : m ≠ [] → ∃ es, d.node c.path = .ok (.directory es)

/-- No other key of the memory has the fingerprint of the key. -/
def ToldApart (m : Memory) (key : String) : Prop :=
  ∀ k ∈ m.map Prod.fst, fingerprint k = fingerprint key → k = key

theorem fingerprint_eq_of_entryName_eq {k k' : String} (h : entryName k = entryName k') :
    fingerprint k = fingerprint k' := by
  have hchars := congrArg String.toList h
  rw [toList_entryName, toList_entryName] at hchars
  exact String.toList_inj.1 (List.append_cancel_right hchars)

section Mirrors

variable {c : CacheDirectory} {m : Memory} {d : Disk} {es : List (String × Node)} {key : String}

theorem ToldApart.tail {e : String × String} (h : ToldApart (e :: m) key) : ToldApart m key :=
  fun k hk => h k (List.mem_cons_of_mem _ hk)

theorem ToldApart.entryName_eq_iff {k text : String} (h : ToldApart ((k, text) :: m) key) :
    entryName key = entryName k ↔ key = k :=
  ⟨fun hname => (h k List.mem_cons_self (fingerprint_eq_of_entryName_eq hname).symm).symm,
    congrArg entryName⟩

theorem lookup_map_fileOf (h : ToldApart m key) :
    (m.map fileOf).lookup (entryName key) = (m.lookup key).map String.toByteArray := by
  induction m with
  | nil => rfl
  | cons e m ih =>
    obtain ⟨k, text⟩ := e
    rw [List.map_cons, fileOf, Entries.lookup_cons, Entries.lookup_cons, ih h.tail]
    simp only [h.entryName_eq_iff]
    split <;> rfl

/-- Setting the file of a key is keeping the text in memory. -/
theorem filesOf_set_file (h : ToldApart m key) (hfiles : Node.filesOf es = m.map fileOf)
    (hentry : ∀ es₁, es.lookup (entryName key) ≠ some (.directory es₁)) (text : String) :
    Node.filesOf (Entries.set (entryName key) (.file text.toByteArray) es) =
      (Entries.set key text m).map fileOf := by
  induction es generalizing m with
  | nil =>
    obtain rfl : m = [] := List.map_eq_nil_iff.1 hfiles.symm
    rfl
  | cons e es ih =>
    obtain ⟨n, node⟩ := e
    cases node with
    | directory es₁ =>
      have hn : n ≠ entryName key := fun hn =>
        hentry es₁ (by rw [Entries.lookup_cons, if_pos hn.symm])
      rw [Entries.set, if_neg hn, Node.filesOf_cons_directory]
      refine ih h hfiles fun es₂ hes₂ => hentry es₂ ?_
      rw [Entries.lookup_cons, if_neg (Ne.symm hn), hes₂]
    | file bytes =>
      cases m with
      | nil => cases hfiles
      | cons e m =>
        obtain ⟨k, old⟩ := e
        rw [Node.filesOf_cons_file, List.map_cons] at hfiles
        obtain ⟨hfile, hrest⟩ := List.cons.inj hfiles
        obtain ⟨rfl, -⟩ := Prod.mk.inj hfile
        rw [Entries.set, Entries.set]
        by_cases hk : k = key
        · subst hk
          rw [if_pos rfl, if_pos rfl, Node.filesOf_cons_file, hrest]
          rfl
        · have hn : entryName k ≠ entryName key := fun hn => hk (h.entryName_eq_iff.1 hn.symm).symm
          rw [if_neg hn, if_neg hk, Node.filesOf_cons_file, List.map_cons, hfile,
            ih h.tail hrest fun es₂ hes₂ => hentry es₂ ?_]
          rw [Entries.lookup_cons, if_neg (Ne.symm hn), hes₂]

theorem mirrors_nil (h : d.find? (d.place c.path) = none ∨
    d.find? (d.place c.path) = some (.directory [])) : c.Mirrors [] d := by
  refine ⟨?_, fun hm => absurd rfl hm⟩
  rcases h with h | h
  · exact Disk.filesAt_of_find?_eq_none h
  · exact Disk.filesAt_of_find? h

namespace Mirrors

/-- The entries of the directory are the files of the memory. -/
theorem lookup_eq {key : CacheKey} (h : c.Mirrors m d) (htold : ToldApart m key.display)
    (hnot : ¬ d.HasDirectory (d.place (c.entryPath key)))
    (hnode : d.node c.path = .ok (.directory es)) :
    es.lookup (entryName key.display) =
      (m.lookup key.display).map fun text => .file text.toByteArray := by
  have hes := (Disk.node_eq_ok_iff.1 hnode).2
  have hentry : ∀ es₁, es.lookup (entryName key.display) ≠ some (.directory es₁) := by
    intro es₁ hes₁
    apply hnot
    rw [entryPath_eq, Disk.place_join d c.path (isEntryName_entryName key.display)]
    exact ⟨es₁, (Disk.find?_append_singleton hes _).trans hes₁⟩
  have hlookup := Node.lookup_filesOf hentry
  rw [← Disk.filesAt_of_find? hes, h.filesAt_eq, lookup_map_fileOf htold] at hlookup
  cases hfound : es.lookup (entryName key.display) with
  | none =>
    rw [hfound, Option.bind_none, Option.map_eq_none_iff] at hlookup
    rw [hlookup, Option.map_none]
  | some node =>
    cases node with
    | directory es₁ => exact absurd hfound (hentry es₁)
    | file bytes =>
      rw [hfound, Option.bind_some, Node.bytes?, Option.map_eq_some_iff] at hlookup
      obtain ⟨text, htext, rfl⟩ := hlookup
      rw [htext, Option.map_some]

/-- Where the path leads to no directory, there is no entry. -/
theorem eq_nil (h : c.Mirrors m d) (hnode : ∀ es, d.node c.path ≠ .ok (.directory es)) :
    m = [] := by
  by_contra hm
  obtain ⟨es, hes⟩ := h.node_eq hm
  exact hnode es hes

theorem entryNames_eq (h : c.Mirrors m d) : c.entryNames d = m.map fun e => entryName e.1 := by
  rw [entryNames]
  by_cases hnode : ∃ es, d.node c.path = .ok (.directory es)
  · obtain ⟨es, hes⟩ := hnode
    have hfiles := (Disk.filesAt_of_find? (Disk.node_eq_ok_iff.1 hes).2).symm.trans h.filesAt_eq
    have hnames : (m.map fileOf).map Prod.fst = m.map fun e => entryName e.1 := by
      rw [List.map_map, Function.comp_def]
      simp only [fileOf]
    rw [fileNames_of_node hes, hfiles, hnames, List.filter_eq_self]
    intro name hname
    obtain ⟨e, -, rfl⟩ := List.mem_map.1 hname
    exact decide_eq_true (extension?_entryName e.1)
  · rw [fileNames_eq_nil (not_exists.1 hnode), h.eq_nil (not_exists.1 hnode)]
    rfl

theorem tidy (h : c.Mirrors m d) : c.Tidy d := by
  intro e he
  rw [h.filesAt_eq] at he
  obtain ⟨kept, -, rfl⟩ := List.mem_map.1 he
  exact (isEntryName_entryName kept.1).slash_notMem

theorem entriesOn_eq (h : c.Mirrors m d) :
    c.entriesOn d = m.map fun e => Path.join c.path (entryName e.1) := by
  have hentries : c.entriesOn d = (c.entryNames d).map (Path.join c.path) := rfl
  rw [hentries, h.entryNames_eq, List.map_map, Function.comp_def]

variable [Host]

/-- A read finds what the memory has. It gives an answer also where the directory is missing. -/
theorem read {key : CacheKey} (h : c.Mirrors m d) (htold : ToldApart m key.display)
    (haccepts : c.Accepts key d) :
    (c.read key : StateM Disk _) d = (.ok (m.lookup key.display), d) := by
  have hentry := isEntryName_entryName key.display
  by_cases hnode : ∃ es, d.node c.path = .ok (.directory es)
  · obtain ⟨es, hnode⟩ := hnode
    have hlookup := h.lookup_eq htold haccepts.not_hasDirectory hnode
    cases hkept : m.lookup key.display with
    | none =>
      rw [hkept] at hlookup
      have hmissing := Disk.node_join_of_lookup_eq_none hentry haccepts.fits hnode hlookup
      exact read_of_node_missing hmissing
    | some text =>
      rw [hkept] at hlookup
      exact read_of_lookup hnode haccepts.fits hlookup
  · rw [h.eq_nil (not_exists.1 hnode)]
    obtain ⟨hopens, -⟩ := haccepts.opens.resolve_left hnode
    exact read_of_node_missing ((hopens.node_cases hentry haccepts.fits).resolve_left hnode)

theorem write {key : CacheKey} {text : String} (h : c.Mirrors m d)
    (htold : ToldApart m key.display)
    (hwrite : ((c.write key text : StateM Disk _) d).1 = .ok ()) :
    c.Mirrors (Entries.set key.display text m) ((c.write key text : StateM Disk _) d).2 := by
  obtain ⟨es, hfiles, hentry, hnode, hkeeps⟩ := write_ok hwrite
  refine ⟨?_, fun _ => ⟨_, hnode⟩⟩
  rw [Disk.filesAt_of_find? (Disk.node_eq_ok_iff.1 hnode).2]
  exact filesOf_set_file htold (hfiles.trans h.filesAt_eq) hentry text

theorem clear (h : c.Mirrors m d) (hclear : ((c.store.clear : StateM Disk _) d).1 = .ok ()) :
    c.Mirrors [] ((c.store.clear : StateM Disk _) d).2 := by
  refine ⟨?_, fun hm => absurd rfl hm⟩
  by_cases hnode : ∃ es, d.node c.path = .ok (.directory es)
  · obtain ⟨es, hes⟩ := hnode
    have hfiles := (Disk.filesAt_of_find? (Disk.node_eq_ok_iff.1 hes).2).symm.trans h.filesAt_eq
    obtain ⟨hnone, hkeeps⟩ := clear_ok hes (fun e he => by
      rw [hfiles] at he
      obtain ⟨kept, -, rfl⟩ := List.mem_map.1 he
      exact ⟨isEntryName_entryName kept.1, extension?_entryName kept.1⟩) hclear
    rw [hkeeps.place_eq]
    exact hnone
  · have hnone := fileNames_eq_nil (not_exists.1 hnode)
    rw [clear_apply, entriesOn, hnone]
    rw [h.eq_nil (not_exists.1 hnode)] at h
    exact h.filesAt_eq

end Mirrors

end Mirrors

/-- The number of files of compiled templates. -/
def size [Host] (c : CacheDirectory) (d : Disk) : Nat := ((c.entries : StateM Disk _) d).1.length

theorem Mirrors.size_eq [Host] {c : CacheDirectory} {m : Memory} {d : Disk} (h : c.Mirrors m d) :
    c.size d = m.length := by
  rw [size, entries_apply, h.entriesOn_eq, List.length_map]

end CacheDirectory

/-! ## Both stores -/

/-- The keys that requests are about. -/
def Request.keys (requests : List Request) : List CacheKey := requests.filterMap Request.key?

theorem Request.exists_of_mem_written {name : CacheKey → α} {past : List Request} {a : α}
    (h : a ∈ written name past) : ∃ key ∈ keys past, a = name key := by
  induction past with
  | nil => cases h
  | cons request past ih =>
    cases request with
    | write key text =>
      rcases List.mem_cons.1 h with rfl | h
      · exact ⟨key, List.mem_cons_self, rfl⟩
      · obtain ⟨key', hkey', rfl⟩ := ih h
        exact ⟨key', List.mem_cons_of_mem _ hkey', rfl⟩
    | read key =>
      obtain ⟨key', hkey', rfl⟩ := ih h
      exact ⟨key', List.mem_cons_of_mem _ hkey', rfl⟩
    | clear => cases h

theorem Request.keys_cons_subset {request : Request} {requests : List Request}
    {keys : List CacheKey} :
    Request.keys (request :: requests) ⊆ keys ↔
      (∀ key, request.key? = some key → key ∈ keys) ∧ Request.keys requests ⊆ keys := by
  cases hkey : request.key? with
  | none =>
    rw [Request.keys, List.filterMap_cons_none hkey]
    exact ⟨fun h => ⟨fun _ hnone => (nomatch hnone), h⟩, And.right⟩
  | some key =>
    rw [Request.keys, List.filterMap_cons_some hkey, List.cons_subset]
    exact ⟨fun h => ⟨fun _ hsome => Option.some.inj hsome ▸ h.1, h.2⟩, fun h => ⟨h.1 key rfl, h.2⟩⟩

namespace CacheDirectory

/-- The memory and the directory hold what was asked of both of them, under some of the keys, and
the directory goes on accepting all of these keys. -/
structure Tracks (c : CacheDirectory) (keys : List CacheKey) (past : List Request) (m : Memory)
    (d : Disk) : Prop where
  remembers : Remembers past m
  mirrors : c.Mirrors m d
  keys_subset : Request.keys past ⊆ keys
  accepts : ∀ key ∈ keys, c.Accepts key d

/-- The host serves each of the writes when it comes to it. -/
def ServesAll [Host] (c : CacheDirectory) : Disk → List Request → Prop
  | _, [] => True
  | d, request :: requests =>
    (∀ key text, request = .write key text → c.Served d) ∧
      c.ServesAll (request.run c.store d).2 requests

section Run

variable {c : CacheDirectory} {d : Disk} {m : Memory} {past requests : List Request}
  {keys : List CacheKey}

theorem ServesAll.of_append [Host] {before after : List Request}
    (h : c.ServesAll d (before ++ after)) : c.ServesAll d before := by
  induction before generalizing d with
  | nil => trivial
  | cons request before ih => exact ⟨h.1, ih h.2⟩

theorem Tracks.exists_key (h : c.Tracks keys past m d) :
    ∀ k ∈ m.map Prod.fst, ∃ key ∈ keys, k = key.display := by
  intro k hk
  obtain ⟨key, hkey, rfl⟩ := Request.exists_of_mem_written ((h.remembers.mem_iff k).1 hk)
  exact ⟨key, h.keys_subset hkey, rfl⟩

variable (hkeys : Collisionless (keys.map CacheKey.display))
include hkeys

theorem Tracks.toldApart (h : c.Tracks keys past m d) {key : CacheKey} (hkey : key ∈ keys) :
    ToldApart m key.display := by
  intro k hk
  obtain ⟨key', hkey', rfl⟩ := h.exists_key k hk
  exact hkeys _ (List.mem_map_of_mem hkey') _ (List.mem_map_of_mem hkey)

theorem Tracks.nodup_entryNames (h : c.Tracks keys past m d) : (c.entryNames d).Nodup := by
  have hmap : (m.map fun e => entryName e.1) = (m.map Prod.fst).map entryName := by
    rw [List.map_map, Function.comp_def]
  rw [h.mirrors.entryNames_eq, hmap]
  refine h.remembers.nodup.map_on fun k hk k' hk' hname => ?_
  obtain ⟨key, hkey, rfl⟩ := h.exists_key k' hk'
  exact h.toldApart hkeys hkey k hk (fingerprint_eq_of_entryName_eq hname)

/-- The files of all entries can be removed. -/
theorem Tracks.clear [Host] (h : c.Tracks keys past m d) :
    ((c.store.clear : StateM Disk _) d).1 = .ok () := by
  rw [clear_apply]
  by_cases hnode : ∃ es, d.node c.path = .ok (.directory es)
  · obtain ⟨es, hnode⟩ := hnode
    have hfiles : ∀ name ∈ c.entryNames d, Disk.IsEntryName name ∧ Disk.Fits c.path name ∧
        ∃ bytes, es.lookup name = some (.file bytes) := by
      intro name hname
      rw [h.mirrors.entryNames_eq] at hname
      obtain ⟨⟨k, text⟩, hkept, rfl⟩ := List.mem_map.1 hname
      obtain ⟨key, hkey, rfl⟩ := h.exists_key k (List.mem_map_of_mem hkept)
      have haccepts := h.accepts key hkey
      have hlookup :=
        h.mirrors.lookup_eq (h.toldApart hkeys hkey) haccepts.not_hasDirectory hnode
      rw [Entries.lookup_of_mem h.remembers.nodup hkept] at hlookup
      exact ⟨isEntryName_entryName key.display, haccepts.fits, _, hlookup⟩
    obtain ⟨d', hremove⟩ := exists_removeAll_ok hnode (h.nodup_entryNames hkeys) hfiles
    exact congrArg Prod.fst hremove
  · rw [h.mirrors.entriesOn_eq, h.mirrors.eq_nil (not_exists.1 hnode)]
    rfl

omit hkeys in
theorem Mirrors.accepts_clear [Host] {key : CacheKey} (h : c.Mirrors m d)
    (haccepts : c.Accepts key d) : c.Accepts key ((c.store.clear : StateM Disk _) d).2 := by
  by_cases hnode : ∃ es, d.node c.path = .ok (.directory es)
  · obtain ⟨es, hnode⟩ := hnode
    obtain ⟨front, back, answer, d', -, hclear, hloses, -⟩ := clearEntries_cases h.tidy
    rw [snd_clear, hclear]
    refine ⟨Or.inl (hloses.keepsDirectories.node_eq_ok hnode), haccepts.fits, ?_⟩
    rw [hloses.keepsDirectories.place_eq, hloses.hasDirectory_iff]
    exact haccepts.not_hasDirectory
  · rw [clear_apply, h.entriesOn_eq, h.eq_nil (not_exists.1 hnode)]
    exact haccepts

/-- Both stores give the same answer to a request, and go on holding the same. -/
theorem Tracks.step [Host] {request : Request} (h : c.Tracks keys past m d)
    (hkey : ∀ key, request.key? = some key → key ∈ keys)
    (hserved : ∀ key text, request = .write key text → c.Served d) :
    (request.run c.store d).1 = (request.run Memory.store m).1 ∧
      c.Tracks keys (request :: past) (request.run Memory.store m).2
        (request.run c.store d).2 := by
  have hremembers := (h.remembers.step request).2
  have hsubset := Request.keys_cons_subset.2 ⟨hkey, h.keys_subset⟩
  cases request with
  | write key text =>
    have hwrite := (h.accepts key (hkey key rfl)).write (hserved key text rfl) text
    have hmirrors := h.mirrors.write (h.toldApart hkeys (hkey key rfl)) hwrite
    refine ⟨?_, hremembers, hmirrors, hsubset, fun key' hkey' => ?_⟩
    · exact congrArg (Except.map fun _ => none) hwrite
    · exact (h.accepts key' hkey').of_write hwrite
  | read key =>
    have hread := h.mirrors.read (h.toldApart hkeys (hkey key rfl)) (h.accepts key (hkey key rfl))
    have hrun : Request.run c.store (.read key) d = (.ok (m.lookup key.display), d) := hread
    rw [hrun]
    exact ⟨rfl, hremembers, h.mirrors, hsubset, h.accepts⟩
  | clear =>
    have hclear := h.clear hkeys
    refine ⟨congrArg (Except.map fun _ => none) hclear, hremembers, h.mirrors.clear hclear, hsubset,
      fun key hkey => h.mirrors.accepts_clear (h.accepts key hkey)⟩

/-- The same is seen of both stores while they serve the same requests. -/
theorem Tracks.run [Host] (h : c.Tracks keys past m d) (hrequests : Request.keys requests ⊆ keys)
    (hserves : c.ServesAll d requests) :
    c.store.observe c.size d requests = Memory.store.observe List.length m requests ∧
      c.Tracks keys (requests.reverse ++ past) (Memory.store.serve m requests)
        (c.store.serve d requests) := by
  induction requests generalizing past m d with
  | nil => exact ⟨rfl, h⟩
  | cons request requests ih =>
    rw [Request.keys_cons_subset] at hrequests
    obtain ⟨hanswer, hnext⟩ := h.step hkeys hrequests.1 hserves.1
    obtain ⟨hrest, hfinal⟩ := ih hnext hrequests.2 hserves.2
    rw [Store.observe, Store.observe, hanswer, hnext.mirrors.size_eq, hrest, List.reverse_cons,
      List.append_assoc]
    exact ⟨rfl, hfinal⟩

end Run

end CacheDirectory

/-! ## Names of keys -/

/-- No two of the keys are displayed alike. -/
def DisplayedApart (keys : List CacheKey) : Prop :=
  ∀ key ∈ keys, ∀ key' ∈ keys, key.display = key'.display → key = key'

section Names

variable {past requests : List Request} {keys : List CacheKey}

theorem Request.lastText_display_eq {key : CacheKey} (hkeys : DisplayedApart keys)
    (hpast : Request.keys past ⊆ keys) (hkey : key ∈ keys) :
    lastText CacheKey.display key past = lastText id key past := by
  induction past with
  | nil => rfl
  | cons request past ih =>
    rw [Request.keys_cons_subset] at hpast
    cases request with
    | write key' text =>
      rw [lastText, lastText, ih hpast.2]
      have hiff : key'.display = key.display ↔ id key' = id key :=
        ⟨hkeys key' (hpast.1 key' rfl) key hkey, congrArg CacheKey.display⟩
      simp only [hiff]
    | read key' => exact ih hpast.2
    | clear => rfl

theorem Request.written_display_eq (past : List Request) :
    written CacheKey.display past = (written id past).map CacheKey.display := by
  induction past with
  | nil => rfl
  | cons request past ih =>
    cases request with
    | write key text => exact congrArg (key.display :: ·) ih
    | read key => exact ih
    | clear => rfl

theorem length_dedup_written (hkeys : DisplayedApart keys) (hpast : Request.keys past ⊆ keys) :
    (Request.written CacheKey.display past).dedup.length =
      (Request.written id past).dedup.length := by
  have hnodup : ((Request.written id past).dedup.map CacheKey.display).Nodup := by
    refine (List.nodup_dedup _).map_on fun key hkey key' hkey' => ?_
    obtain ⟨_, hmem, rfl⟩ := Request.exists_of_mem_written (List.mem_dedup.1 hkey)
    obtain ⟨_, hmem', rfl⟩ := Request.exists_of_mem_written (List.mem_dedup.1 hkey')
    exact hkeys _ (hpast hmem) _ (hpast hmem')
  have hperm : (Request.written CacheKey.display past).dedup.Perm
      ((Request.written id past).dedup.map CacheKey.display) := by
    refine (List.perm_ext_iff_of_nodup (List.nodup_dedup _) hnodup).2 fun k => ?_
    simp only [Request.written_display_eq, List.mem_dedup, List.mem_map]
  rw [hperm.length_eq, List.length_map]

/-- It makes no difference whether keys are told apart by their displayed texts, as long as no two
keys are displayed alike. -/
theorem mapObservations_display_eq (hkeys : DisplayedApart keys)
    (hpast : Request.keys past ⊆ keys) (hrequests : Request.keys requests ⊆ keys) :
    mapObservations CacheKey.display past requests = mapObservations id past requests := by
  induction requests generalizing past with
  | nil => rfl
  | cons request requests ih =>
    rw [Request.keys_cons_subset] at hrequests
    have hnext : Request.keys (request :: past) ⊆ keys :=
      Request.keys_cons_subset.2 ⟨hrequests.1, hpast⟩
    have hanswer : request.answer CacheKey.display past = request.answer id past := by
      cases request with
      | read key => exact Request.lastText_display_eq hkeys hpast (hrequests.1 key rfl)
      | _ => rfl
    rw [mapObservations, mapObservations, hanswer, length_dedup_written hkeys hnext,
      ih hnext hrequests.2]

end Names

/-! ## Agreement -/

/-- The path leads to a file that lies directly in the directory at a location. -/
def Disk.LiesIn (d : Disk) (path : String) (l : Location) : Prop :=
  ∃ name bytes, IsEntryName name ∧ d.place path = l ++ [name] ∧ (name, bytes) ∈ d.filesAt l

theorem CacheDirectory.Mirrors.liesIn {c : CacheDirectory} {m : Memory} {d : Disk} {path : String}
    (h : c.Mirrors m d) (hpath : path ∈ c.entriesOn d) : d.LiesIn path (d.place c.path) := by
  rw [h.entriesOn_eq] at hpath
  obtain ⟨e, he, rfl⟩ := List.mem_map.1 hpath
  have hname := isEntryName_entryName e.1
  refine ⟨entryName e.1, e.2.toByteArray, hname, Disk.place_join d c.path hname, ?_⟩
  rw [h.filesAt_eq]
  exact List.mem_map_of_mem he

theorem CacheDirectory.Tracks.exists_entry {c : CacheDirectory} {keys : List CacheKey} {m : Memory}
    {d : Disk} {before : List Request} {path : String}
    (h : c.Tracks keys (before.reverse ++ []) m d) (hpath : path ∈ c.entriesOn d) :
    ∃ key ∈ Request.keys before, path = c.entryPath key := by
  rw [h.mirrors.entriesOn_eq] at hpath
  obtain ⟨e, he, rfl⟩ := List.mem_map.1 hpath
  obtain ⟨key, hkey, hdisplay⟩ :=
    Request.exists_of_mem_written ((h.remembers.mem_iff e.1).1 (List.mem_map_of_mem he))
  rw [List.append_nil, Request.keys, List.filterMap_reverse, List.mem_reverse] at hkey
  exact ⟨key, hkey, by rw [entryPath_eq, hdisplay]⟩

/-- The store in memory and the store in a directory that is missing or empty answer every request
alike, as long as the directory can be made and takes the files of all keys, the host serves all
writes and no two displayed keys have the same fingerprint. No request fails. A read gives the text
of the last write under the same displayed key since the last clearing, or nothing, and there are as
many entries as displayed keys were written since then. Where no two keys are displayed alike, the
same holds of the keys. All entries lie directly in the directory and are those of keys from the
requests. -/
theorem stores_agree [Host] (c : CacheDirectory) (d : Disk) (requests : List Request)
    (hempty : d.find? (d.place c.path) = none ∨
      d.find? (d.place c.path) = some (.directory []))
    (hprints : Collisionless ((Request.keys requests).map CacheKey.display))
    (haccepts : ∀ key ∈ Request.keys requests, c.Accepts key d)
    (hserves : c.ServesAll d requests) :
    c.store.observe c.size d requests = mapObservations CacheKey.display [] requests ∧
      Memory.store.observe List.length [] requests =
        mapObservations CacheKey.display [] requests ∧
      (DisplayedApart (Request.keys requests) →
        mapObservations CacheKey.display [] requests = mapObservations id [] requests) ∧
      ∀ before, before <+: requests →
        let d' := c.store.serve d before
        ∀ path ∈ ((c.entries : StateM Disk _) d').1,
          d'.LiesIn path (d'.place c.path) ∧
            ∃ key ∈ Request.keys before, path = c.entryPath key := by
  have hnil : Request.keys [] ⊆ Request.keys requests := List.nil_subset _
  have htracks : c.Tracks (Request.keys requests) [] [] d :=
    ⟨remembers_nil, CacheDirectory.mirrors_nil hempty, hnil, haccepts⟩
  obtain ⟨hmemory, -⟩ := remembers_nil.run requests
  obtain ⟨hdirectory, -⟩ := htracks.run hprints (List.Subset.refl _) hserves
  refine ⟨hdirectory.trans hmemory, hmemory, fun hkeys =>
    mapObservations_display_eq hkeys hnil (List.Subset.refl _), ?_⟩
  intro before hbefore d' path hpath
  obtain ⟨after, rfl⟩ := hbefore
  have hkeys : Request.keys before ⊆ Request.keys (before ++ after) := by
    rw [Request.keys, Request.keys, List.filterMap_append]
    exact List.subset_append_left _ _
  obtain ⟨-, hfinal⟩ := htracks.run hprints hkeys hserves.of_append
  rw [CacheDirectory.entries_apply] at hpath
  exact ⟨hfinal.mirrors.liesIn hpath, hfinal.exists_entry hpath⟩

/-- The directory is missing at first, and the scope and the identity hold what means something in a
path. -/
theorem stores_agree_slashes :
    let c : CacheDirectory := ⟨".erbx/cache"⟩
    let d : Disk := ⟨.directory [("site", .directory [])], ["site"]⟩
    let key : CacheKey := ⟨"a:b", "../c", "0"⟩
    let requests : List Request := [.read key, .write key "é", .read key, .clear, .read key]
    d.find? (d.place c.path) = none ∧
      Collisionless ((Request.keys requests).map CacheKey.display) ∧
      (∀ key ∈ Request.keys requests, c.Accepts key d) ∧ c.ServesAll d requests ∧
      c.store.observe c.size d requests =
        [⟨.ok none, 0⟩, ⟨.ok none, 1⟩, ⟨.ok (some "é"), 1⟩, ⟨.ok none, 0⟩, ⟨.ok none, 0⟩] := by
  intro c d key requests
  have hempty : d.find? (d.place c.path) = none := Option.isNone_iff_eq_none.1 (by decide +kernel)
  have hprints : Collisionless ((Request.keys requests).map CacheKey.display) := by decide +kernel
  have hclear : ∀ l ∈ (Disk.names c.path).inits.map (List.foldl Disk.follow (d.origin c.path)),
      d.fileAt? l = none := by
    decide +kernel
  have hopens : d.Opens c.path :=
    ⟨⟨by decide +kernel, by decide +kernel, fun l hl => hclear l (Disk.leadsThrough_iff.1 hl)⟩,
      by decide +kernel, by decide +kernel⟩
  have hkey : c.Accepts key d :=
    ⟨Or.inr ⟨hopens, by decide +kernel⟩, ⟨by decide +kernel, by decide +kernel⟩, by decide +kernel⟩
  have haccepts : ∀ key' ∈ Request.keys requests, c.Accepts key' d := by
    have hkeys : Request.keys requests = [key, key, key, key] := rfl
    rw [hkeys]
    simpa using hkey
  have hserved : c.Served (Request.run c.store (.read key) d).2 :=
    ⟨".tmp0", by decide +kernel, ⟨by decide +kernel, by decide +kernel⟩, fun _ _ => rfl,
      fun _ _ => rfl⟩
  have hserves : c.ServesAll d requests :=
    ⟨nofun, fun _ _ _ => hserved, nofun, nofun, nofun, trivial⟩
  refine ⟨hempty, hprints, haccepts, hserves, ?_⟩
  exact (stores_agree c d requests (Or.inl hempty) hprints haccepts hserves).1.trans
    (by decide +kernel)

/-- Two keys that are displayed alike share one entry: what was written under one is read under the
other. -/
theorem stores_confuse_colons :
    let c : CacheDirectory := ⟨"cache"⟩
    let d : Disk := ⟨.directory [], []⟩
    let key := CacheKey.ofSource "a:b" "c" "s"
    let other := CacheKey.ofSource "a" "b:c" "s"
    let requests : List Request := [.write key "x", .read other]
    let seen : List Observation := [⟨.ok none, 1⟩, ⟨.ok (some "x"), 1⟩]
    key ≠ other ∧ Memory.store.observe List.length [] requests = seen ∧
      c.store.observe c.size d requests = seen ∧
      mapObservations id [] requests = [⟨.ok none, 1⟩, ⟨.ok none, 1⟩] := by
  decide +kernel

end ErbTags
