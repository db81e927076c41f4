import ErbTags.Compiler
import ErbTags.Proofs.StoreLaws
import Mathlib.Data.List.Induction

/-!
# Compiling with a cache and without

What a compiler gives for a template without a cache is its answer (`Job.answer`). Over a store that
only ever gives texts that were kept in it, the texts are answers to earlier jobs under the same key
(`Coherent`), and that stays so whatever fails. Since a key tells the source, a compiler gives its
answer whatever the state of the store, as long as all compilers over the store follow the same
conventions (`result_run_of_keepsTexts`).

A key does not tell the conventions. A compiler with other conventions finds the text that was made
first, so it gives its own answer just if the first conventions lead to the same text
(`result_run_eq_none_iff`).
-/

namespace ErbTags

/-! ## One compilation -/

namespace Compiler

variable {σ : Type} (c : Compiler (StateM σ)) {identity source text : String} {s s' : σ}

theorem compile_of_hit (h : c.store.read (c.key identity source) s = (.ok (some text), s')) :
    ∃ log, c.compile identity source s = (⟨.ok text, log⟩, s') := by
  refine ⟨[readRecord (c.key identity source) (.ok (some text))], ?_⟩
  unfold compile
  show StateT.bind _ _ s = _
  unfold StateT.bind
  rw [h]
  rfl

theorem compile_of_miss {found : Except CacheFault (Option String)}
    (h : c.store.read (c.key identity source) s = (found, s'))
    (hmiss : ∀ text, found ≠ .ok (some text)) :
    ∃ log, c.compile identity source s =
      (⟨(c.compileFresh identity source s').1.result, log⟩,
        (c.compileFresh identity source s').2) := by
  refine ⟨readRecord (c.key identity source) found :: (c.compileFresh identity source s').1.log, ?_⟩
  unfold compile
  show StateT.bind _ _ s = _
  unfold StateT.bind
  rw [h]
  rcases found with e | (_ | text)
  · rfl
  · rfl
  · exact absurd rfl (hmiss text)

variable (identity) (s)

theorem compileFresh_of_error {e : StructuralError}
    (h : transpile c.conventions source.toList = .error e) :
    ∃ log, c.compileFresh identity source s = (⟨.error (.template identity e), log⟩, s) := by
  have hlogged : (transpileLogged c.conventions source.toList).result = .error e := h
  refine ⟨(transpileLogged c.conventions source.toList).log, ?_⟩
  simp only [compileFresh, hlogged]
  rfl

theorem compileFresh_of_ok {r : Transpiled} (h : transpile c.conventions source.toList = .ok r) :
    ∃ log, c.compileFresh identity source s = (⟨.ok (String.ofList r.output), log⟩,
      (c.store.write (c.key identity source) (String.ofList r.output) s).2) := by
  have hlogged : (transpileLogged c.conventions source.toList).result = .ok r := h
  refine ⟨(transpileLogged c.conventions source.toList).log ++
    r.warnings.map (warningRecord identity) ++ writeRecords (c.key identity source)
      (c.store.write (c.key identity source) (String.ofList r.output) s).1, ?_⟩
  simp only [compileFresh, hlogged]
  rfl

end Compiler

/-! ## Jobs -/

/-- A compiler, by its scope and its conventions, and a template that it is asked for. -/
structure Job where
  scope : String
  conventions : Conventions
  identity : String
  source : String
deriving DecidableEq, Repr

namespace Job

def key (job : Job) : CacheKey := .ofSource job.scope job.identity job.source

def compiler {m : Type → Type} (job : Job) (store : Store m) : Compiler m :=
  ⟨store, job.scope, job.conventions⟩

/-- What the compiler does over a store. -/
def run {m : Type → Type} [Monad m] (job : Job) (store : Store m) : m Compiled :=
  (job.compiler store).compile job.identity job.source

/-- What the compiler gives if there is no cache. -/
def answer (job : Job) : Except Failure String :=
  match transpile job.conventions job.source.toList with
  | .ok r => .ok (String.ofList r.output)
  | .error e => .error (.template job.identity e)

/-- The text that the compiler gives if there is no cache. -/
def text? (job : Job) : Option String := job.answer.toOption

/-- The same job for a compiler with other conventions. -/
def under (job : Job) (conventions : Conventions) : Job := { job with conventions }

theorem answer_eq_ok_iff {job : Job} {text : String} :
    job.answer = .ok text ↔
      ∃ r, transpile job.conventions job.source.toList = .ok r ∧ text = String.ofList r.output := by
  rw [answer]
  cases transpile job.conventions job.source.toList with
  | ok r => simp [eq_comm]
  | error e => simp

theorem answer_eq_error_iff {job : Job} {e : Failure} :
    job.answer = .error e ↔
      ∃ e', transpile job.conventions job.source.toList = .error e' ∧
        e = .template job.identity e' := by
  rw [answer]
  cases transpile job.conventions job.source.toList with
  | ok r => simp
  | error e => simp [eq_comm]

theorem text?_of_ok {job : Job} {text : String} (h : job.answer = .ok text) :
    job.text? = some text := by
  rw [text?, h]
  rfl

theorem text?_of_error {job : Job} {e : Failure} (h : job.answer = .error e) :
    job.text? = none := by
  rw [text?, h]
  rfl

/-- The text that a template is turned into does not depend on the name of the template. -/
theorem answer_eq_ok_congr {job job' : Job} {text : String} (h : job'.answer = .ok text)
    (hconventions : job'.conventions = job.conventions) (hsource : job'.source = job.source) :
    job.answer = .ok text := by
  obtain ⟨r, hr, htext⟩ := answer_eq_ok_iff.1 h
  rw [hconventions, hsource] at hr
  exact answer_eq_ok_iff.2 ⟨r, hr, htext⟩

theorem result_run_none (job : Job) :
    (job.run (Store.none : Store Id)).run.result = job.answer := by
  cases htranspile : transpile job.conventions job.source.toList with
  | error e =>
    have hlogged : (transpileLogged job.conventions job.source.toList).result = .error e :=
      htranspile
    simp only [run, compiler, Compiler.compile, Compiler.compileFresh, hlogged, answer, htranspile]
    rfl
  | ok r =>
    have hlogged : (transpileLogged job.conventions job.source.toList).result = .ok r := htranspile
    simp only [run, compiler, Compiler.compile, Compiler.compileFresh, hlogged, answer, htranspile]
    rfl

/-! ## What a job does over a store -/

variable {σ : Type} (job : Job) (store : Store (StateM σ)) (s : σ)

/-- A job gives the text that it finds. If it finds none, or cannot read it, it gives its answer; it
writes the answer if it is a text, and does nothing else to the store. -/
theorem run_cases :
    (∃ text, (store.read job.key s).1 = .ok (some text) ∧ (job.run store s).1.result = .ok text ∧
        (job.run store s).2 = (store.read job.key s).2) ∨
      ((∀ text, (store.read job.key s).1 ≠ .ok (some text)) ∧
        (job.run store s).1.result = job.answer ∧
        ((∃ e, job.answer = .error e ∧ (job.run store s).2 = (store.read job.key s).2) ∨
          ∃ text, job.answer = .ok text ∧
            (job.run store s).2 = (store.write job.key text (store.read job.key s).2).2)) := by
  by_cases hhit : ∃ text, (store.read job.key s).1 = .ok (some text)
  · obtain ⟨text, htext⟩ := hhit
    obtain ⟨log, hrun⟩ := Compiler.compile_of_hit (job.compiler store)
      (Prod.ext htext rfl : store.read job.key s = (_, _))
    refine Or.inl ⟨text, htext, ?_, ?_⟩
    · rw [run, hrun]
    · rw [run, hrun]
  · have hmiss : ∀ text, (store.read job.key s).1 ≠ .ok (some text) := not_exists.1 hhit
    obtain ⟨log, hrun⟩ := Compiler.compile_of_miss (job.compiler store)
      (rfl : store.read job.key s = (_, _)) hmiss
    cases htranspile : transpile job.conventions job.source.toList with
    | error e =>
      obtain ⟨log', hfresh⟩ := Compiler.compileFresh_of_error (job.compiler store) job.identity
        (store.read job.key s).2 htranspile
      rw [hfresh] at hrun
      have hanswer := answer_eq_error_iff.2 ⟨e, htranspile, rfl⟩
      refine Or.inr ⟨hmiss, ?_, Or.inl ⟨_, hanswer, ?_⟩⟩
      · rw [run, hrun, hanswer]
      · rw [run, hrun]
    | ok r =>
      obtain ⟨log', hfresh⟩ := Compiler.compileFresh_of_ok (job.compiler store) job.identity
        (store.read job.key s).2 htranspile
      rw [hfresh] at hrun
      have hanswer := answer_eq_ok_iff.2 ⟨r, htranspile, rfl⟩
      refine Or.inr ⟨hmiss, ?_, Or.inr ⟨_, hanswer, ?_⟩⟩
      · rw [run, hrun, hanswer]
      · rw [run, hrun]
        rfl

/-- A job writes nothing, or else its answer under its own key. -/
theorem writes_run (s : σ × List (CacheKey × String)) :
    (job.run store.recorded s).2.2 = s.2 ∨
      ∃ text, (job.run store.recorded s).1.result = .ok text ∧
        (job.run store.recorded s).2.2 = s.2 ++ [(job.key, text)] := by
  rcases job.run_cases store.recorded s with
    ⟨text, -, -, hstate⟩ | ⟨-, hresult, ⟨e, -, hstate⟩ | ⟨text, hanswer, hstate⟩⟩
  · rw [hstate]
    exact Or.inl rfl
  · rw [hstate]
    exact Or.inl rfl
  · rw [hresult, hstate]
    exact Or.inr ⟨text, hanswer, rfl⟩

end Job

/-! ## Keys -/

/-- A displayed key tells the fingerprint of the source, since all fingerprints are of one
length. -/
theorem fingerprint_eq_of_display_eq {scope scope' identity identity' source source' : String}
    (h : (CacheKey.ofSource scope identity source).display =
      (CacheKey.ofSource scope' identity' source').display) :
    fingerprint source = fingerprint source' := by
  have hchars := congrArg String.toList h
  simp only [CacheKey.display, CacheKey.ofSource, String.toList_append] at hchars
  refine String.toList_inj.1 (List.append_inj_right' hchars ?_)
  rw [length_fingerprint, length_fingerprint]

/-- No two of the sources have the same fingerprint. -/
def Collisionless (sources : List String) : Prop :=
  ∀ source ∈ sources, ∀ source' ∈ sources, fingerprint source = fingerprint source' →
    source = source'

instance (sources : List String) : Decidable (Collisionless sources) :=
  inferInstanceAs (Decidable (∀ _ ∈ _, ∀ _ ∈ _, _ → _))

/-! ## Coherent stores -/

/-- What the users of a store ask for. -/
inductive Call where
  | compile (job : Job)
  | clear
deriving DecidableEq, Repr

def Call.job? : Call → Option Job
  | .compile job => some job
  | .clear => none

section Coherence

variable {σ α : Type} {store : Store (StateM σ)} {address : CacheKey → α}
  {content : σ → α → Option String} {s : σ} {jobs : List Job} {job : Job}

/-- The state of a store after a call. -/
def Call.next (store : Store (StateM σ)) (s : σ) : Call → σ
  | .compile job => (job.run store s).2
  | .clear => (store.clear s).2

/-- The state of a store after a number of calls. -/
def Store.after (store : Store (StateM σ)) (s : σ) (calls : List Call) : σ :=
  calls.foldl (Call.next store) s

/-- Every text in the store is the answer to one of the jobs, at the address of its key. -/
def Coherent (address : CacheKey → α) (content : σ → α → Option String) (jobs : List Job) (s : σ) :
    Prop :=
  ∀ a text, content s a = some text → ∃ job ∈ jobs, address job.key = a ∧ job.answer = .ok text

theorem Coherent.mono {jobs' : List Job} (h : Coherent address content jobs s)
    (hsub : ∀ job ∈ jobs, job ∈ jobs') : Coherent address content jobs' s := by
  intro a text htext
  obtain ⟨job, hjob, hkey, hanswer⟩ := h a text htext
  exact ⟨job, hsub job hjob, hkey, hanswer⟩

theorem Coherent.of_content {s' : σ} (h : Coherent address content jobs s)
    (hcontent : ∀ a, content s' a = none ∨ content s' a = content s a) :
    Coherent address content jobs s' := by
  intro a text htext
  rcases hcontent a with hnone | hsame
  · rw [hnone] at htext
    cases htext
  · rw [hsame] at htext
    exact h a text htext

variable [DecidableEq α]

/-- Whatever a job finds and whatever fails, it leaves in the store only answers to jobs. -/
theorem Coherent.run (hstore : store.KeepsTexts address content)
    (h : Coherent address content jobs s) (job : Job) :
    Coherent address content (jobs ++ [job]) (job.run store s).2 := by
  have hlater : Coherent address content (jobs ++ [job]) s :=
    h.mono fun earlier hearlier => List.mem_append_left _ hearlier
  have hread : Coherent address content (jobs ++ [job]) (store.read job.key s).2 :=
    hlater.of_content fun a => Or.inr (congrFun (hstore.content_read job.key s) a)
  rcases job.run_cases store s with
    ⟨text, -, -, hstate⟩ | ⟨-, -, ⟨e, -, hstate⟩ | ⟨text, hanswer, hstate⟩⟩
  · rw [hstate]
    exact hread
  · rw [hstate]
    exact hread
  · rw [hstate]
    rcases hstore.write_cases job.key text (store.read job.key s).2 with hwrite | hwrite
    · intro a text' htext'
      rw [hwrite, Function.update_apply] at htext'
      split at htext'
      · next ha =>
        refine ⟨job, by simp, ha.symm, ?_⟩
        rw [hanswer, Option.some.inj htext']
      · exact hread a text' htext'
    · exact hread.of_content fun a => Or.inr (congrFun hwrite a)

theorem Coherent.next (hstore : store.KeepsTexts address content)
    (h : Coherent address content jobs s) (call : Call) :
    Coherent address content (jobs ++ call.job?.toList) (call.next store s) := by
  cases call with
  | compile job => exact h.run hstore job
  | clear =>
    have hclear := h.of_content fun a => hstore.clear_cases s a
    exact hclear.mono fun job hjob => List.mem_append_left _ hjob

/-- A store that starts without texts holds only answers to the jobs so far. -/
theorem coherent_after (hstore : store.KeepsTexts address content)
    (hempty : ∀ a, content s a = none) (calls : List Call) :
    Coherent address content (calls.filterMap Call.job?) (store.after s calls) := by
  induction calls using List.reverseRecOn with
  | nil =>
    intro a text htext
    rw [show content (store.after s []) a = none from hempty a] at htext
    cases htext
  | append_singleton calls call ih =>
    have hnext := ih.next hstore call
    rw [Store.after, List.foldl_append, List.filterMap_append]
    cases call with
    | compile job => exact hnext
    | clear => exact hnext

/-- The text for an earlier job with the same key is what a compiler with the conventions of that
job gives for the template at hand: the key tells the source. -/
theorem Job.answer_under {earlier : Job} (hmem : earlier ∈ jobs)
    (hsources : Collisionless (job.source :: jobs.map Job.source))
    (hkey : earlier.key.display = job.key.display) {text : String}
    (hanswer : earlier.answer = .ok text) : (job.under earlier.conventions).answer = .ok text := by
  have hsource : earlier.source = job.source :=
    hsources _ (List.mem_cons_of_mem _ (List.mem_map_of_mem hmem)) _ List.mem_cons_self
      (fingerprint_eq_of_display_eq hkey)
  exact Job.answer_eq_ok_congr hanswer rfl hsource

/-! ## One set of conventions -/

theorem Coherent.result_run (hstore : store.KeepsTexts address content)
    (h : Coherent address content jobs s)
    (hsources : Collisionless (job.source :: jobs.map Job.source))
    (hsame : ∀ earlier ∈ jobs, earlier.key.display = job.key.display →
      (job.under earlier.conventions).answer = job.answer) :
    (job.run store s).1.result = job.answer := by
  rcases job.run_cases store s with ⟨text, hread, hresult, -⟩ | ⟨-, hresult, -⟩
  · obtain ⟨earlier, hmem, hkey, hanswer⟩ := h _ _ (hstore.read_ok hread).symm
    have hdisplay := hstore.display_eq hkey
    rw [hresult, ← hsame earlier hmem hdisplay, Job.answer_under hmem hsources hdisplay hanswer]
  · exact hresult

/-- Faults of a store never change a compilation. Over a store that started without texts, after any
calls by compilers of the same conventions, a compiler gives the text that the template is turned
into, or else the structural error of the template under the name of the template. In the second
case it writes nothing, and in the first nothing but that text under its own key. -/
theorem result_run_of_keepsTexts (hstore : store.KeepsTexts address content)
    (hempty : ∀ a, content s a = none) (calls : List Call) (job : Job)
    (hconventions : ∀ earlier ∈ calls.filterMap Call.job?, earlier.conventions = job.conventions)
    (hsources : Collisionless (job.source :: (calls.filterMap Call.job?).map Job.source)) :
    let before := store.recorded.after (s, []) calls
    let result := (job.run store.recorded before).1.result
    let after := (job.run store.recorded before).2
    (∀ text, result = .ok text ↔ ∃ r, transpile job.conventions job.source.toList = .ok r ∧
        text = String.ofList r.output) ∧
      (∀ e, result = .error e ↔ ∃ e', transpile job.conventions job.source.toList = .error e' ∧
        e = .template job.identity e') ∧
      (∀ e, result = .error e → after.2 = before.2) ∧
      ∀ text, result = .ok text → after.2 = before.2 ∨ after.2 = before.2 ++ [(job.key, text)] := by
  intro before result after
  have hcoherent : Coherent address (fun s => content s.1) (calls.filterMap Call.job?) before :=
    coherent_after hstore.recorded hempty calls
  have hresult : result = job.answer := by
    refine hcoherent.result_run hstore.recorded hsources ?_
    intro earlier hmem _
    rw [hconventions earlier hmem]
    rfl
  refine ⟨?_, ?_, ?_, ?_⟩
  · intro text
    rw [hresult, Job.answer_eq_ok_iff]
  · intro e
    rw [hresult, Job.answer_eq_error_iff]
  · intro e he
    rcases job.writes_run store before with hnone | ⟨text, htext, -⟩
    · exact hnone
    · cases he.symm.trans htext
  · intro text htext
    rcases job.writes_run store before with hnone | ⟨text', htext', hwritten⟩
    · exact Or.inl hnone
    · obtain rfl : text' = text := Except.ok.inj (htext'.symm.trans htext)
      exact Or.inr hwritten

/-- The write of the first call fails, the template of the second one has an unclosed tag, and the
read of the last one fails. -/
theorem result_run_of_keepsTexts_faults :
    let fault : CacheFault := .unwritable "cache" .persist .isDirectory
    let faults := [none, some fault, none, none, none, some fault]
    let calls : List Call := [.compile ⟨"erbx", .standard, "a", "<A />"⟩,
      .compile ⟨"erbx", .standard, "b", "<A>"⟩, .clear,
      .compile ⟨"erbx", .standard, "a", "<A />"⟩]
    let job : Job := ⟨"views", .standard, "a", "<A />"⟩
    (∀ earlier ∈ calls.filterMap Call.job?, earlier.conventions = job.conventions) ∧
      Collisionless (job.source :: (calls.filterMap Call.job?).map Job.source) ∧
      (job.run Memory.store.withFaults.recorded
        (Memory.store.withFaults.recorded.after (([], faults), []) calls)).1.result =
          .ok "<%= render AComponent.new %>" := by
  intro fault faults calls job
  have hconventions : ∀ earlier ∈ calls.filterMap Call.job?,
      earlier.conventions = job.conventions := by decide
  have hsources : Collisionless (job.source :: (calls.filterMap Call.job?).map Job.source) := by
    decide +kernel
  have htranspile : transpile job.conventions job.source.toList =
      .ok ⟨"<%= render AComponent.new %>".toList, []⟩ := by decide +kernel
  exact ⟨hconventions, hsources,
    ((result_run_of_keepsTexts Memory.keepsTexts_store.withFaults (fun _ => rfl) calls job
      hconventions hsources).1 _).2 ⟨_, htranspile, rfl⟩⟩

/-! ## Several sets of conventions -/

/-- The first of the jobs at an address that gives a text. -/
def firstAt? (address : CacheKey → α) (jobs : List Job) (a : α) : Option Job :=
  jobs.find? fun job => address job.key = a && job.text?.isSome

theorem exists_of_firstAt? {a : α} {first : Job} (h : firstAt? address jobs a = some first) :
    first ∈ jobs ∧ address first.key = a ∧ ∃ text, first.answer = .ok text := by
  have hfirst := List.find?_some h
  rw [Bool.and_eq_true, decide_eq_true_eq] at hfirst
  refine ⟨List.mem_of_find?_eq_some h, hfirst.1, ?_⟩
  cases hanswer : first.answer with
  | ok text => exact ⟨text, rfl⟩
  | error e =>
    rw [Job.text?_of_error hanswer] at hfirst
    cases hfirst.2

/-- One more job is the first at its address if it gives a text and none before it did. -/
theorem firstAt?_concat (jobs : List Job) (job : Job) (a : α) :
    firstAt? address (jobs ++ [job]) a =
      (firstAt? address jobs a).or
        (if address job.key = a && job.text?.isSome then some job else none) := by
  rw [firstAt?, List.find?_append, List.find?_singleton]
  rfl

/-- Over a store that never fails, a job leaves its text at its address unless there is one
already. -/
theorem content_run (hstore : store.KeepsTexts address content) (hreliable : store.Reliable)
    (job : Job) (s : σ) (a : α) :
    content (job.run store s).2 a =
      (content s a).or (if address job.key = a then job.text? else none) := by
  have hread := hstore.content_read job.key s
  rcases job.run_cases store s with
    ⟨text, hhit, -, hstate⟩ | ⟨hmiss, -, ⟨e, hanswer, hstate⟩ | ⟨text, hanswer, hstate⟩⟩
  · have hkept : some text = content s (address job.key) := hstore.read_ok hhit
    rw [hstate, hread]
    by_cases ha : address job.key = a
    · rw [← ha, ← hkept, Option.some_or]
    · rw [if_neg ha, Option.or_none]
  · rw [hstate, hread, Job.text?_of_error hanswer, ite_self, Option.or_none]
  · have hnone : content s (address job.key) = none := by
      obtain ⟨found, hfound⟩ := hreliable.read_isOk job.key s
      rw [← hstore.read_ok hfound]
      cases found with
      | none => rfl
      | some text' => exact absurd hfound (hmiss text')
    rw [hstate, hstore.write_ok (hreliable.write_isOk ..), hread, Function.update_apply]
    by_cases ha : a = address job.key
    · rw [if_pos ha, if_pos ha.symm, ha, hnone, Job.text?_of_ok hanswer, Option.none_or]
    · rw [if_neg ha, if_neg (Ne.symm ha), Option.or_none]

/-- A store that never fails holds at each address the text of the first job that gave one. -/
theorem content_after_jobs (hstore : store.KeepsTexts address content) (hreliable : store.Reliable)
    (hempty : ∀ a, content s a = none) (jobs : List Job) (a : α) :
    content (store.after s (jobs.map .compile)) a =
      (firstAt? address jobs a).bind Job.text? := by
  induction jobs using List.reverseRecOn with
  | nil => exact hempty a
  | append_singleton jobs job ih =>
    have hafter : store.after s ((jobs ++ [job]).map .compile) =
        (job.run store (store.after s (jobs.map .compile))).2 := by
      rw [Store.after, List.map_append, List.foldl_append]
      rfl
    rw [hafter, content_run hstore hreliable, ih, firstAt?_concat]
    cases hfirst : firstAt? address jobs a with
    | some first =>
      obtain ⟨-, -, text, htext⟩ := exists_of_firstAt? hfirst
      rw [Option.some_or, Option.bind_some, Job.text?_of_ok htext, Option.some_or]
    | none =>
      rw [Option.none_or, Option.bind_none, Option.none_or]
      cases htext : job.text? <;> by_cases ha : address job.key = a <;> simp [ha, htext]

theorem result_run_of_reliable (hstore : store.KeepsTexts address content)
    (hreliable : store.Reliable) (job : Job) (s : σ) :
    (job.run store s).1.result =
      (content s (address job.key)).elim job.answer .ok := by
  obtain ⟨found, hfound⟩ := hreliable.read_isOk job.key s
  rw [← hstore.read_ok hfound]
  rcases job.run_cases store s with ⟨text, hhit, hresult, -⟩ | ⟨hmiss, hresult, -⟩
  · obtain rfl : found = some text := Except.ok.inj (hfound.symm.trans hhit)
    exact hresult
  · cases found with
    | none => exact hresult
    | some text => exact absurd hfound (hmiss text)

/-- What compilers with conventions of their own give over one store. A compiler gives the same as
without a cache if the conventions of all earlier jobs with its displayed key lead to its own
answer. Over a store that never fails it is the first of these jobs that gives a text which decides:
the compiler gives the same as without a cache just if the conventions of that job lead to its own
answer. -/
theorem result_run_eq_none_iff (hstore : store.KeepsTexts address content)
    (hempty : ∀ a, content s a = none) (jobs : List Job) (job : Job)
    (hsources : Collisionless (job.source :: jobs.map Job.source)) :
    ((∀ earlier ∈ jobs, earlier.key.display = job.key.display →
        (job.under earlier.conventions).answer = job.answer) →
      (job.run store (store.after s (jobs.map .compile))).1.result =
        (job.run (Store.none : Store Id)).run.result) ∧
    (store.Reliable →
      ((job.run store (store.after s (jobs.map .compile))).1.result =
          (job.run (Store.none : Store Id)).run.result ↔
        ∀ first, firstAt? address jobs (address job.key) = some first →
          (job.under first.conventions).answer = job.answer)) := by
  have hcoherent : Coherent address content jobs (store.after s (jobs.map .compile)) := by
    have hjobs : (jobs.map Call.compile).filterMap Call.job? = jobs := by
      rw [List.filterMap_map]
      exact List.filterMap_some
    have hafter := coherent_after hstore hempty (jobs.map .compile)
    rwa [hjobs] at hafter
  rw [Job.result_run_none]
  refine ⟨hcoherent.result_run hstore hsources, ?_⟩
  intro hreliable
  rw [result_run_of_reliable hstore hreliable, content_after_jobs hstore hreliable hempty]
  cases hfirst : firstAt? address jobs (address job.key) with
  | none => simp
  | some first =>
    obtain ⟨hmem, hkey, text, htext⟩ := exists_of_firstAt? hfirst
    have hanswer : (job.under first.conventions).answer = .ok text :=
      Job.answer_under hmem hsources (hstore.display_eq hkey) htext
    rw [Option.bind_some, Job.text?_of_ok htext]
    constructor
    · intro heq first' hfirst'
      rw [← Option.some.inj hfirst', hanswer]
      exact heq
    · intro h
      rw [← h first rfl, hanswer]
      rfl

/-- Two projects that share a memory under scopes of their own do not disturb each other. -/
theorem result_run_eq_none_iff_scopes :
    let card : Job := ⟨"erbx", .standard, "home", "<Card />"⟩
    let view : Job := ⟨"views", ⟨"View".toList, "With".toList⟩, "home", "<Card />"⟩
    Collisionless [view.source, card.source] ∧
      (view.run Memory.store (Memory.store.after [] [.compile card])).1.result =
        (view.run (Store.none : Store Id)).run.result ∧
      ((card.run Memory.store (Memory.store.after [] [.compile view])).1.result =
          (card.run (Store.none : Store Id)).run.result ↔
        ∀ first, firstAt? CacheKey.display [view] card.key.display = some first →
          (card.under first.conventions).answer = card.answer) := by
  intro card view
  have hsources : Collisionless [view.source, card.source] := by decide +kernel
  have hsources' : Collisionless [card.source, view.source] := by decide +kernel
  exact ⟨hsources,
    (result_run_eq_none_iff Memory.keepsTexts_store (fun _ => rfl) [card] view hsources).1
      (by decide +kernel),
    (result_run_eq_none_iff Memory.keepsTexts_store (fun _ => rfl) [view] card hsources').2
      Memory.reliable_store⟩

/-- Two compilers of one scope that share a memory: the second one follows other conventions, and
gives the text that the first one made. -/
theorem result_run_other_conventions :
    let card : Job := ⟨"erbx", .standard, "home", "<Card />"⟩
    let view := card.under ⟨"View".toList, "With".toList⟩
    (view.run Memory.store (Memory.store.after [] [.compile card])).1.result =
        .ok "<%= render CardComponent.new %>" ∧
      (view.run (Store.none : Store Id)).run.result = .ok "<%= render CardView.new %>" := by
  decide +kernel

end Coherence

end ErbTags
