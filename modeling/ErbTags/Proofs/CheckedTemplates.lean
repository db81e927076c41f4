import ErbTags.Cli.Command
import ErbTags.Files.Disk
import Mathlib.Data.List.Forall2

/-!
# Checking and compiling

The command that checks templates and the command that compiles one come to the same transpilation
in different ways: the first looks at it directly, the second goes through a compiler with a store,
its failures and its log. Without a cache both find the same errors and the same warnings
(`check_agrees_with_compile`).

Neither command changes a file, so what it comes to is told by the files alone: `reportOn` for the
one, and an equation for each way that the other can go. In the log of a compilation the warnings
have to be told from all else, and nothing else that it has to say is a warning
(`level_of_mem_transpileLogged`). What is printed is spelled out for each report (`Report.written`,
`Report.members`).
-/

namespace ErbTags

/-! ## What a pass says about its work -/

section Log

variable {conventions : Conventions} {source : Text} {p : Pass} {record : LogRecord}

theorem level_of_mem_log {a : Attributes} (h : record ∈ a.log) : record.level = .debug := by
  obtain ⟨fault, -, rfl⟩ := List.mem_map.1 h
  rfl

theorem level_of_mem_step {s : Segment} {next : Step}
    (h : p.step conventions source s = .ok next) (hmem : record ∈ next.log) :
    record.level ≠ .warn := by
  have hattributes : record ∈ (Attributes.read s.tag.attributes).log → record.level ≠ .warn := by
    intro ha
    rw [level_of_mem_log ha]
    decide
  obtain ⟨gap, tag⟩ := s
  cases hkind : tag.kind with
  | opening =>
    simp only [Pass.step, hkind, Pass.openTag, reduceCtorEq, if_false] at h
    cases h
    rcases List.mem_append.1 hmem with ha | hopen
    · exact hattributes ha
    · rw [List.mem_singleton.1 hopen]
      exact nofun
  | selfClosing =>
    simp only [Pass.step, hkind, Pass.openTag, if_true] at h
    cases h
    exact hattributes hmem
  | closing =>
    simp only [Pass.step, hkind, Pass.closeTag] at h
    split at h
    · cases h
      rw [List.mem_singleton.1 hmem]
      exact nofun
    · cases h

theorem level_of_mem_run {ss : List Segment} (h : record ∈ (p.run conventions source ss).log) :
    record.level ≠ .warn := by
  induction ss generalizing p with
  | nil => cases h
  | cons s ss ih =>
    rw [Pass.run] at h
    cases hstep : p.step conventions source s with
    | error e =>
      rw [hstep] at h
      cases h
    | ok next =>
      rw [hstep] at h
      rcases List.mem_append.1 h with h | h
      · exact level_of_mem_step hstep h
      · exact ih h

/-- The records of a transpilation are no warnings: those come from its result. -/
theorem level_of_mem_transpileLogged (h : record ∈ (transpileLogged conventions source).log) :
    record.level ≠ .warn :=
  level_of_mem_run h

end Log

/-- The warnings in a log. -/
def warningsIn (log : List LogRecord) : List LogRecord := log.filter (·.level = .warn)

theorem warningsIn_eq_nil {log : List LogRecord} (h : ∀ r ∈ log, r.level ≠ .warn) :
    warningsIn log = [] := by
  rw [warningsIn, List.filter_eq_nil_iff]
  intro r hr
  rw [decide_eq_true_iff]
  exact h r hr

namespace Cli

variable {d : Disk} {p : Project} {log : List LogRecord} {file source : String}

/-! ## The project -/

theorem snd_ofFile [Host] (path : String) (d : Disk) :
    ((Config.ofFile path : StateM Disk _) d).2 = d := by
  rw [Config.ofFile, Disk.bind_apply, Disk.readText_apply]
  cases d.readText path <;> rfl

theorem snd_ofFileOrStandard [Host] (path : String) (d : Disk) :
    ((Config.ofFileOrStandard path : StateM Disk _) d).2 = d := by
  rw [Config.ofFileOrStandard, Disk.bind_apply]
  split
  · exact snd_ofFile path d
  · rfl

/-- Looking up the configuration changes no file. -/
theorem snd_load [Host] (config : Option String) (d : Disk) :
    ((Project.load config : StateM Disk _) d).2 = d := by
  rw [Project.load, Disk.bind_apply]
  cases config with
  | some path => exact snd_ofFile path d
  | none => exact snd_ofFileOrStandard _ d

theorem exists_of_map_eq_ok {ε α β : Type} {f : α → β} {x : Except ε α} {b : β}
    (h : x.map f = .ok b) : ∃ a, x = .ok a ∧ f a = b := by
  cases x with
  | error e => cases h
  | ok a => exact ⟨a, rfl, Except.ok.inj h⟩

theorem level_of_load [Host] {config : Option String}
    (h : ((Project.load config : StateM Disk _) d).1 = .ok (p, log)) :
    ∀ r ∈ log, r.level ≠ .warn := by
  rw [Project.load, Disk.bind_apply] at h
  cases config with
  | some path =>
    dsimp only at h
    rw [Disk.bind_apply, Disk.pure_apply] at h
    obtain ⟨c, -, heq⟩ := exists_of_map_eq_ok h
    obtain ⟨-, rfl⟩ := Prod.mk.inj heq
    intro r hr
    rw [List.mem_singleton.1 hr]
    exact nofun
  | none =>
    dsimp only at h
    rw [Disk.bind_apply, Disk.pure_apply] at h
    obtain ⟨c, -, heq⟩ := exists_of_map_eq_ok h
    obtain ⟨-, rfl⟩ := Prod.mk.inj heq
    exact nofun

/-! ## Checking -/

/-- The report on a template, and the log of the work. -/
def reportOn (conventions : Conventions) (d : Disk) (file : String) : Report × List LogRecord :=
  match d.readText file with
  | .error e => (⟨file, .error (Remark.ofFileFault e)⟩, [])
  | .ok source =>
    (Report.ofTranspilation file (transpileLogged conventions source.toList),
      (transpileLogged conventions source.toList).log)

theorem checkFile_apply [Host] (conventions : Conventions) (d : Disk) (file : String) :
    (checkFile conventions file : StateM Disk _) d = (reportOn conventions d file, d) := by
  rw [checkFile, Disk.bind_apply, Disk.readText_apply, reportOn]
  cases d.readText file <;> rfl

/-- The reports of a check, one for each template and in their order. -/
def reportsOn (p : Project) (d : Disk) (files : List String) : List Report :=
  files.map fun file => (reportOn p.config.conventions d file).1

/-- What a check prints. -/
def reportText (paint : Paint) (json : Bool) (reports : List Report) : String :=
  if json then (Report.jsonOfAll reports).pretty ++ "\n"
  else String.join ((reports.flatMap (Report.lines paint)).map (· ++ "\n"))

theorem check_apply [Host] (paint : Paint) (p : Project) (log : List LogRecord)
    (files : List String) (json : Bool) (d : Disk) :
    ∃ log', (check paint p log files json : StateM Disk _) d =
      (⟨reportText paint json (reportsOn p d files), log',
        if (reportsOn p d files).countP Report.isFailure = 0 then none
        else some (.failedChecks ((reportsOn p d files).countP Report.isFailure) files.length)⟩,
        d) := by
  refine ⟨log ++ (files.map (reportOn p.config.conventions d)).flatMap Prod.snd, ?_⟩
  rw [check, Disk.bind_apply, Disk.mapM_apply (checkFile_apply p.config.conventions d),
    Disk.pure_apply, List.map_map, List.length_map]
  rfl

/-! ## Compiling -/

/-- What the compiler of a project gives for a text without a cache: it notes that it has found
nothing, and turns the text into ERB. -/
def Project.compiled (p : Project) (identity source : String) : Compiled :=
  let miss := Compiler.readRecord (.ofSource p.config.scope identity source) (.ok none)
  let t := transpileLogged p.config.conventions source.toList
  match t.result with
  | .error e => ⟨.error (.template identity e), miss :: t.log⟩
  | .ok r =>
    ⟨.ok (String.ofList r.output),
      miss :: (t.log ++ r.warnings.map (Compiler.warningRecord identity))⟩

theorem compile_compiler_apply [Host] (p : Project) (identity source : String) (d : Disk) :
    (p.compiler true : Compiler (StateM Disk)).compile identity source d =
      (p.compiled identity source, d) := by
  have hfresh : (p.compiler true : Compiler (StateM Disk)).compile identity source d =
      (⟨((p.compiler true : Compiler (StateM Disk)).compileFresh identity source d).1.result,
        Compiler.readRecord (.ofSource p.config.scope identity source) (.ok none) ::
          ((p.compiler true : Compiler (StateM Disk)).compileFresh identity source d).1.log⟩,
        ((p.compiler true : Compiler (StateM Disk)).compileFresh identity source d).2) := rfl
  have hconventions : (p.compiler true : Compiler (StateM Disk)).conventions =
      p.config.conventions := rfl
  rw [hfresh, Compiler.compileFresh, Project.compiled, hconventions]
  dsimp only
  cases (transpileLogged p.config.conventions source.toList).result with
  | error e => rfl
  | ok r =>
    show (Compiled.mk _ (_ :: (_ ++ _ ++ [])), d) = _
    rw [List.append_nil]
    rfl

section Compile

theorem compile_of_unreadable [Host] {e : FileFault} (h : d.readText file = .error e) :
    (compile p log file none true : StateM Disk _) d = (.failed log (.unreadable file), d) := by
  rw [compile, Disk.bind_apply, Disk.readText_apply, h]
  rfl

theorem compile_of_error [Host] {e : StructuralError} (h : d.readText file = .ok source)
    (herror : (transpileLogged p.config.conventions source.toList).result = .error e) :
    ∃ log', (compile p log file none true : StateM Disk _) d =
      (.failed log' (.failure (.template (p.identity file) e)), d) := by
  refine ⟨log ++ (p.compiled (p.identity file) source).log, ?_⟩
  rw [compile, Disk.bind_apply, Disk.readText_apply, h]
  dsimp only
  rw [Disk.bind_apply, compile_compiler_apply, Project.compiled]
  dsimp only
  rw [herror]
  rfl

theorem compile_of_ok [Host] {r : Transpiled} (h : d.readText file = .ok source)
    (hok : (transpileLogged p.config.conventions source.toList).result = .ok r) :
    (compile p log file none true : StateM Disk _) d =
      (⟨String.ofList r.output,
        log ++ Compiler.readRecord (.ofSource p.config.scope (p.identity file) source) (.ok none) ::
          ((transpileLogged p.config.conventions source.toList).log ++
            r.warnings.map (Compiler.warningRecord (p.identity file))), none⟩, d) := by
  rw [compile, Disk.bind_apply, Disk.readText_apply, h]
  dsimp only
  rw [Disk.bind_apply, compile_compiler_apply, Project.compiled]
  dsimp only
  rw [hok]
  rfl

/-- The warnings that a compilation logs are those of its result. -/
theorem warningsIn_compile (hlog : ∀ r ∈ log, r.level ≠ .warn) {key : CacheKey}
    {t : Transpilation} (ht : ∀ r ∈ t.log, r.level ≠ .warn) (identity : String)
    (ws : List Warning) :
    warningsIn (log ++ Compiler.readRecord key (.ok none) ::
      (t.log ++ ws.map (Compiler.warningRecord identity))) =
        ws.map (Compiler.warningRecord identity) := by
  have hwarnings : warningsIn (ws.map (Compiler.warningRecord identity)) =
      ws.map (Compiler.warningRecord identity) := by
    rw [warningsIn, List.filter_eq_self]
    intro r hr
    obtain ⟨w, -, rfl⟩ := List.mem_map.1 hr
    rfl
  have hmiss : ∀ r ∈ [Compiler.readRecord key (.ok none)], r.level ≠ .warn := by
    intro r hr
    rw [List.mem_singleton.1 hr]
    exact nofun
  rw [← List.singleton_append, warningsIn, List.filter_append, List.filter_append,
    List.filter_append, ← warningsIn, ← warningsIn, ← warningsIn, ← warningsIn,
    warningsIn_eq_nil hlog, warningsIn_eq_nil hmiss, warningsIn_eq_nil ht, hwarnings]
  rfl

end Compile

/-! ## What is printed -/

namespace Report

/-- The lines for a template: a line for each warning and a last one that says `ok`, or a line with
the error. -/
def written (paint : Paint) : Report → List String
  | ⟨file, .ok warnings⟩ =>
    warnings.map (fun w => file ++ ":" ++ toString w.position.line ++ ":" ++
      toString w.position.column ++ ": " ++ paint .yellow "warning:" ++ " " ++ w.message) ++
      [file ++ ": " ++ paint .green "ok"]
  | ⟨file, .error e⟩ =>
    [file ++ ":" ++ toString e.position.line ++ ":" ++ toString e.position.column ++ ": " ++
      paint .red e.message]

/-- The members of the JSON object for a template. -/
def members : Report → List (String × Json)
  | ⟨file, .ok warnings⟩ =>
    [("file", .string file), ("status", .string "ok"),
      ("warnings", .array (warnings.map fun w => .object [("column", .number w.position.column),
        ("line", .number w.position.line), ("message", .string w.message)]))]
  | ⟨file, .error e⟩ =>
    [("diagnostic", .object [("column", .number e.position.column),
        ("line", .number e.position.line), ("message", .string e.message)]),
      ("file", .string file), ("status", .string "error")]

theorem lines_eq_written (paint : Paint) (r : Report) : r.lines paint = r.written paint := by
  obtain ⟨file, e | warnings⟩ := r <;> rfl

theorem json_eq_members (r : Report) : r.json = .object r.members := by
  obtain ⟨file, e | warnings⟩ := r <;> rfl

end Report

/-! ## The two commands together -/

/-- What an invocation comes to on a disk. -/
def Invocation.outcome [Host] (paint : Paint) (i : Invocation) (d : Disk) : Outcome :=
  ((i.runIn paint : StateM Disk _) d).1

/-- A warning in the log of a compilation, for a remark on its template. -/
def Remark.record (identity : String) (r : Remark) : LogRecord :=
  ⟨.warn, .compiler, identity ++ ":" ++ toString r.position.line ++ ":" ++
    toString r.position.column ++ ": " ++ r.message⟩

/-- The report on a template says what compiling it comes to. -/
structure Report.Agrees (report : Report) (d : Disk) (p : Project) (file : String)
    (compiled : Outcome) : Prop where
  /-- It is about the template. -/
  file_eq : report.file = file
  /-- It is a failure just if the compilation is one. -/
  isFailure_iff : report.isFailure = true ↔ compiled.exitCode = 1
  /-- If the template cannot be read, it says so, at a place outside the text. -/
  unreadable_eq : ∀ fault, d.readText file = .error fault →
    report.finding = .error ⟨⟨0, 0⟩, "Failed to read: " ++ fault.message⟩
  /-- If the template can be read, what is wrong with it is the structural error that stops the
  compilation. -/
  error_eq : ∀ source remark, d.readText file = .ok source → report.finding = .error remark →
    ∃ e, compiled.failure = some (.failure (.template (p.identity file) e)) ∧
      remark = ⟨e.position, e.message⟩ ∧
      compiled.failureText =
        "Error: " ++ ("TRANSPILE_FAILED: " ++ p.identity file ++ ": " ++ remark.message) ++ "\n"
  /-- The remarks on a template in order are the warnings that the compilation logs. -/
  warnings_eq : ∀ remarks, report.finding = .ok remarks →
    warningsIn compiled.log = remarks.map (Remark.record (p.identity file))

section Loaded

variable {config : Option String} {verbose : Bool} {paint : Paint}

theorem outcome_check [Host] (h : ((Project.load config : StateM Disk _) d).1 = .ok (p, log))
    (files : List String) (json : Bool) :
    Invocation.outcome paint ⟨verbose, config, .check files json⟩ d =
      ((check paint p log files json : StateM Disk _) d).1 := by
  rw [Invocation.outcome, Invocation.runIn, Disk.bind_apply, snd_load, h]

theorem outcome_compile [Host] (h : ((Project.load config : StateM Disk _) d).1 = .ok (p, log))
    (file : String) :
    Invocation.outcome paint ⟨verbose, config, .compile file none true⟩ d =
      ((compile p log file none true : StateM Disk _) d).1 := by
  rw [Invocation.outcome, Invocation.runIn, Disk.bind_apply, snd_load, h]

/-- The report on a template agrees with its compilation, whether it can be read or not. -/
theorem agrees_reportOn [Host] (hlog : ∀ r ∈ log, r.level ≠ .warn) (file : String) :
    (reportOn p.config.conventions d file).1.Agrees d p file
      ((compile p log file none true : StateM Disk _) d).1 := by
  cases hread : d.readText file with
  | error fault =>
    rw [reportOn, hread, compile_of_unreadable hread]
    refine ⟨rfl, ⟨fun _ => rfl, fun _ => rfl⟩, ?_, ?_, nofun⟩
    · intro fault' hfault
      rw [hread] at hfault
      rw [← Except.error.inj hfault]
      rfl
    · intro source remark hsource
      rw [hread] at hsource
      cases hsource
  | ok source =>
    have hdetails : ∀ r ∈ (transpileLogged p.config.conventions source.toList).log,
        r.level ≠ .warn := fun r hr => level_of_mem_transpileLogged hr
    have hreadable : ∀ fault, d.readText file ≠ .error fault := by
      intro fault hfault
      rw [hread] at hfault
      cases hfault
    rw [reportOn, hread]
    dsimp only
    rw [Report.ofTranspilation]
    cases hresult : (transpileLogged p.config.conventions source.toList).result with
    | error e =>
      obtain ⟨log', hcompile⟩ : ∃ log', (compile p log file none true : StateM Disk _) d =
        (.failed log' (.failure (.template (p.identity file) e)), d) :=
          compile_of_error hread hresult
      rw [hcompile]
      refine ⟨rfl, ⟨fun _ => rfl, fun _ => rfl⟩, fun fault h => absurd h (hreadable fault),
        fun source' remark _ hremark => ?_, nofun⟩
      obtain rfl : Remark.ofError e = remark := Except.error.inj hremark
      exact ⟨e, rfl, rfl, rfl⟩
    | ok r =>
      rw [compile_of_ok hread hresult]
      refine ⟨rfl, ⟨nofun, nofun⟩, fun fault h => absurd h (hreadable fault), nofun, ?_⟩
      intro remarks hremarks
      obtain rfl : r.warnings.map Remark.ofWarning = remarks := Except.ok.inj hremarks
      rw [warningsIn_compile hlog hdetails, List.map_map]
      rfl

/-- Checking templates agrees with compiling each of them without a cache. There is one report for
each template, in their order; the exit code, the summary and the field `ok` go by whether some
report is a failure. -/
theorem check_agrees_with_compile [Host]
    (h : ((Project.load config : StateM Disk _) d).1 = .ok (p, log))
    (files : List String) (json verbose verbose' : Bool) (paint paint' : Paint) :
    let checked := Invocation.outcome paint ⟨verbose, config, .check files json⟩ d
    ∃ reports : List Report,
      List.Forall₂ (fun file report => report.Agrees d p file
        (Invocation.outcome paint' ⟨verbose', config, .compile file none true⟩ d)) files reports ∧
      checked.output = (if json then
          (Json.object [("files", .array (reports.map fun report => .object report.members)),
            ("ok", .boolean (checked.exitCode = 0))]).pretty ++ "\n"
        else String.join ((reports.flatMap (Report.written paint)).map (· ++ "\n"))) ∧
      (checked.exitCode = 1 ↔ ∃ report ∈ reports, report.isFailure = true) ∧
      checked.failureText = (if checked.exitCode = 0 then ""
        else "Error: " ++ (toString (reports.countP Report.isFailure) ++ " of " ++
          toString files.length ++ " templates failed") ++ "\n") := by
  intro checked
  obtain ⟨log', hcheck⟩ := check_apply paint p log files json d
  have hwritten : Report.lines paint = Report.written paint :=
    funext (Report.lines_eq_written paint)
  have hmembers : Report.json = fun report => .object report.members :=
    funext Report.json_eq_members
  have hchecked : checked = _ := (outcome_check h files json).trans (congrArg Prod.fst hcheck)
  have hagrees : List.Forall₂ (fun file report => report.Agrees d p file
      (Invocation.outcome paint' ⟨verbose', config, .compile file none true⟩ d)) files
        (reportsOn p d files) := by
    rw [reportsOn, List.forall₂_map_right_iff, List.forall₂_same]
    intro file _
    rw [outcome_compile h]
    exact agrees_reportOn (level_of_load h) file
  refine ⟨reportsOn p d files, hagrees, ?_⟩
  by_cases hfailed : (reportsOn p d files).countP Report.isFailure = 0
  · have hany : (reportsOn p d files).any Report.isFailure = false := by
      rw [List.any_eq_false]
      exact List.countP_eq_zero.1 hfailed
    rw [if_pos hfailed] at hchecked
    have hcode : checked.exitCode = 0 := by rw [hchecked]; rfl
    refine ⟨?_, ?_, ?_⟩
    · rw [hcode, hchecked, reportText, Report.jsonOfAll, hany, hwritten, hmembers]
      rfl
    · rw [hcode]
      refine ⟨nofun, ?_⟩
      rintro ⟨report, hmem, hreport⟩
      exact absurd hreport (List.countP_eq_zero.1 hfailed report hmem)
    · rw [if_pos hcode, hchecked]
      rfl
  · obtain ⟨report, hmem, hreport⟩ := List.countP_pos_iff.1 (Nat.pos_of_ne_zero hfailed)
    have hany : (reportsOn p d files).any Report.isFailure = true :=
      List.any_eq_true.2 ⟨report, hmem, hreport⟩
    rw [if_neg hfailed] at hchecked
    have hcode : checked.exitCode = 1 := by rw [hchecked]; rfl
    refine ⟨?_, ?_, ?_⟩
    · rw [hcode, hchecked, reportText, Report.jsonOfAll, hany, hwritten, hmembers]
      rfl
    · rw [hcode]
      exact ⟨fun _ => ⟨report, hmem, hreport⟩, fun _ => rfl⟩
    · rw [if_neg (by rw [hcode]; decide), hchecked]
      rfl

/-- A template with a value that cannot be read, a missing one, one with a structural error behind a
character of two bytes, and one that is no text. -/
theorem check_agrees_with_compile_mixed :
    let d : Disk := ⟨.directory [("a", .file "<A x=\x7b />".toByteArray),
      ("b", .file "\né<A>".toByteArray), ("c", .file ⟨#[0xff]⟩)], []⟩
    let checked := Invocation.outcome .off ⟨false, none, .check ["a", "no", "b", "c"] false⟩ d
    let compiled := fun file => Invocation.outcome .off ⟨false, none, .compile file none true⟩ d
    ((Project.load none : StateM Disk _) d).1 = .ok (⟨.standard, "/"⟩, []) ∧
      (∃ reports : List Report,
        List.Forall₂ (fun file report => report.Agrees d ⟨.standard, "/"⟩ file (compiled file))
          ["a", "no", "b", "c"] reports ∧
        checked.output = String.join ((reports.flatMap (Report.written .off)).map (· ++ "\n"))) ∧
      checked.output =
        "a:1:1: warning: Unbalanced braces in value of 'x', using true in <A x=\x7b />\n" ++
        "a: ok\n" ++
        "no:0:0: Failed to read: No such file or directory (os error 2)\n" ++
        "b:2:3: Unclosed tag <A> at line 2, column 3\n" ++
        "c:0:0: Failed to read: stream did not contain valid UTF-8\n" ∧
      checked.exitCode = 1 ∧ checked.failureText = "Error: 3 of 4 templates failed\n" ∧
      (Invocation.outcome .off ⟨false, none, .check ["b"] true⟩ d).output =
        "\x7b\n  \"files\": [\n    \x7b\n      \"diagnostic\": \x7b\n" ++
        "        \"column\": 3,\n        \"line\": 2,\n" ++
        "        \"message\": \"Unclosed tag <A> at line 2, column 3\"\n      \x7d,\n" ++
        "      \"file\": \"b\",\n      \"status\": \"error\"\n    \x7d\n  ],\n" ++
        "  \"ok\": false\n\x7d\n" ∧
      (warningsIn (compiled "a").log).map (·.message) =
        ["a:1:1: Unbalanced braces in value of 'x', using true in <A x=\x7b />"] ∧
      (compiled "b").failureText =
        "Error: TRANSPILE_FAILED: b: Unclosed tag <A> at line 2, column 3\n" := by
  intro d checked compiled
  have hload : ((Project.load none : StateM Disk _) d).1 = .ok (⟨.standard, "/"⟩, []) := by
    decide +kernel
  obtain ⟨reports, hagrees, houtput, -⟩ :=
    check_agrees_with_compile hload ["a", "no", "b", "c"] false false false .off .off
  refine ⟨hload, ⟨reports, hagrees, houtput⟩, ?_, ?_, ?_, ?_, ?_, ?_⟩ <;> decide +kernel

end Loaded

end Cli

end ErbTags
