import ErbTags.Cache.Directory
import ErbTags.Cli.Arguments
import ErbTags.Cli.Report
import ErbTags.Compiler
import ErbTags.Config
import ErbTags.Text.Control

/-!
# Commands

What each command does, over any monad with files. A command gives what it prints, its log and what
stopped it, if anything did; the log filter and the exit code are applied to that afterwards.
-/

namespace ErbTags.Cli

/-- What stops a command. -/
inductive CommandFailure where
  /-- The configuration, a template or the cache. -/
  | failure (f : Failure)
  /-- A template that cannot be read. -/
  | unreadable (file : String)
  /-- The directory of the output cannot be made. -/
  | noDirectory (path : String)
  /-- The output cannot be written. -/
  | unwritable (path : String)
  /-- Some of the checked templates are not in order. -/
  | failedChecks (failed total : Nat)
deriving DecidableEq, Repr

/-- What the user is told about it. -/
def CommandFailure.message : CommandFailure → String
  | .failure f => f.message
  | .unreadable file => "Failed to read " ++ file
  | .noDirectory path => "Failed to create " ++ path
  | .unwritable path => "Failed to write " ++ path
  | .failedChecks failed total => toString failed ++ " of " ++ toString total ++ " templates failed"

/-- A message with each line after the first indented. -/
def indentMessage (message : String) : String :=
  String.ofList (message.toList.flatMap fun c =>
    if c = '\n' then c :: List.replicate 4 ' ' else [c])

/-- A record as it is shown, in one line or more and without control sequences. -/
def recordText (r : LogRecord) : String :=
  let level := String.ofList (r.level.label.toList.rightpad 5 ' ')
  let text := "[" ++ level ++ " " ++ r.origin.label ++ "] " ++ indentMessage r.message ++ "\n"
  String.ofList (Text.withoutControls text.toList)

/-- What a command comes to. -/
structure Outcome where
  /-- What it prints. -/
  output : String
  /-- Records for the log. -/
  log : List LogRecord
  /-- What stopped it. -/
  failure : Option CommandFailure
deriving DecidableEq, Repr

namespace Outcome

/-- The outcome of a command that was stopped before it printed anything. -/
def failed (log : List LogRecord) (f : CommandFailure) : Outcome := ⟨"", log, some f⟩

/-- The exit code of the program. -/
def exitCode (o : Outcome) : Nat := if o.failure.isSome then 1 else 0

/-- The records that a filter shows, in order. -/
def logText (o : Outcome) (filter : LogFilter) : String :=
  String.join ((o.log.filter fun r => filter.shows r.level).map recordText)

/-- What is told to the user at the end of a command that was stopped. -/
def failureText (o : Outcome) : String :=
  match o.failure with
  | none => ""
  | some f => "Error: " ++ f.message ++ "\n"

end Outcome

/-- The log filter: the one that the environment names, where an unknown name shows errors only, or
else the one for the amount that the user wants to hear. -/
def logFilter (environment : Option String) (verbose : Bool) : LogFilter :=
  match environment with
  | none => if verbose then some .info else some .warn
  | some name =>
    match String.ofList (name.toList.map Char.toLower) with
    | "off" => none
    | "warn" => some .warn
    | "info" => some .info
    | "debug" => some .debug
    | "trace" => some .trace
    | _ => some .error

/-- The text that tells the version. -/
def versionText : String := "erbx 0.1.0\n"

/-- The text that tells how to use the program. -/
def usageText : String :=
  "Usage: erbx [OPTIONS] <COMMAND>\n\n" ++
  "Commands:\n" ++
  "  compile [-o PATH] [--no-cache] FILE  Transpile a template to ERB\n" ++
  "  check [--json] FILES...              Report structural errors in templates\n" ++
  "  cache key FILE                       Print the cache key of a template\n" ++
  "  cache clear                          Remove all cached entries\n\n" ++
  "Options:\n" ++
  "  -v, --verbose        Say more\n" ++
  "      --config PATH    Config file (default: ./erbx.toml when present)\n" ++
  "  -h, --help           Print help\n" ++
  "  -V, --version        Print version\n"

/-! ## The project -/

/-- The configuration with the directory it applies to. -/
structure Project where
  /-- The settings. -/
  config : Config
  /-- The directory of the configuration. -/
  root : String
deriving DecidableEq, Repr

namespace Project

/-- The directory in which results are kept. -/
def cache (p : Project) : CacheDirectory := ⟨p.config.cachePath p.root⟩

/-- The identity of a template: its path inside the project, with slashes only. -/
def identity (p : Project) (file : String) : String :=
  let inside := (Path.relativeTo? p.root file).getD file
  String.ofList (inside.toList.map fun c => if c = '\\' then '/' else c)

/-- The compiler of the project. -/
def compiler {m : Type → Type} [Monad m] [FileSystem m] (p : Project) (noCache : Bool) :
    Compiler m :=
  ⟨if noCache || !p.config.cacheEnabled then Store.none else p.cache.store,
    p.config.scope, p.config.conventions⟩

end Project

/-- The record that tells which configuration is used. -/
def loadedRecord (path : String) : LogRecord :=
  ⟨.info, .configuration, "Loaded config from " ++ path⟩

variable {m : Type → Type} [Monad m] [FileSystem m]

/-- The project of a named configuration file, or of the current directory, with the log of the
lookup. -/
def Project.load (path? : Option String) : m (Except ConfigFault (Project × List LogRecord)) := do
  let here ← FileSystem.currentDirectory
  match path? with
  | some path =>
    let root := match Path.parent? path with
      | none | some "" => here
      | some directory => directory
    return (← Config.ofFile path).map fun c => (⟨c, root⟩, [loadedRecord path])
  | none =>
    return (← Config.ofFileOrStandard (Path.join here Config.fileName)).map fun c => (⟨c, here⟩, [])

/-! ## The commands -/

/-- Writes compiled text to a file, and makes the directory it lies in. -/
def writeOutput (path text : String) : m (Except CommandFailure Unit) := do
  let parent := (Path.parent? path).getD ""
  match ← FileSystem.createDirectoryAll parent with
  | .error _ => return .error (.noDirectory parent)
  | .ok () =>
    match ← FileSystem.writeText path text with
    | .error _ => return .error (.unwritable path)
    | .ok () => return .ok ()

/-- Turns a template into ERB. -/
def compile (p : Project) (log : List LogRecord) (file : String) (output : Option String)
    (noCache : Bool) : m Outcome := do
  match ← FileSystem.readText file with
  | .error _ => return .failed log (.unreadable file)
  | .ok source =>
    let compiled ← (p.compiler noCache).compile (p.identity file) source
    let log := log ++ compiled.log
    match compiled.result, output with
    | .error e, _ => return .failed log (.failure e)
    | .ok text, none => return ⟨text, log, none⟩
    | .ok text, some path =>
      match ← writeOutput path text with
      | .error e => return .failed log e
      | .ok () =>
        return ⟨"", log ++ [⟨.info, .compileCommand, "Compiled " ++ file ++ " -> " ++ path⟩], none⟩

/-- Checks one template. -/
def checkFile (conventions : Conventions) (file : String) : m (Report × List LogRecord) := do
  match ← FileSystem.readText file with
  | .error e => return (⟨file, .error (Remark.ofFileFault e)⟩, [])
  | .ok source =>
    let t := transpileLogged conventions source.toList
    return (Report.ofTranspilation file t, t.log)

/-- Checks templates. -/
def check (paint : Paint) (p : Project) (log : List LogRecord) (files : List String)
    (json : Bool) : m Outcome := do
  let checked ← files.mapM (checkFile p.config.conventions)
  let reports := checked.map Prod.fst
  let failed := reports.countP Report.isFailure
  let output :=
    if json then (Report.jsonOfAll reports).pretty ++ "\n"
    else String.join ((reports.flatMap (Report.lines paint)).map (· ++ "\n"))
  return ⟨output, log ++ checked.flatMap Prod.snd,
    if failed = 0 then none else some (.failedChecks failed reports.length)⟩

/-- Prints the cache key of a template, with its parts on request. -/
def cacheKey (p : Project) (log : List LogRecord) (file : String) (verbose : Bool) :
    m Outcome := do
  match ← FileSystem.readText file with
  | .error _ => return .failed log (.unreadable file)
  | .ok source =>
    let key : CacheKey := .ofSource p.config.scope (p.identity file) source
    let keyParts :=
      if verbose then
        ["  namespace:   " ++ key.scope, "  identity:    " ++ key.identity,
          "  fingerprint: " ++ key.fingerprint]
      else []
    return ⟨String.join ((key.display :: keyParts).map (· ++ "\n")), log, none⟩

/-- Removes all cache entries. -/
def cacheClear (paint : Paint) (p : Project) (log : List LogRecord) : m Outcome := do
  match ← p.cache.clearEntries with
  | .error e => return .failed log (.failure (.cache e))
  | .ok removed =>
    let ending := if removed = 1 then "y" else "ies"
    return ⟨paint .green "✓" ++ " Removed " ++ toString removed ++ " cache entr" ++ ending ++ "\n",
      log ++ [⟨.info, .cacheCommand, "Cleared cache at " ++ p.cache.path⟩], none⟩

/-- Does what the arguments ask for, and prints in the given colours. -/
def Invocation.runIn (paint : Paint) (i : Invocation) : m Outcome := do
  match ← Project.load i.config with
  | .error e => return .failed [] (.failure (.config e))
  | .ok (p, log) =>
    match i.command with
    | .compile file output noCache => compile p log file output noCache
    | .check files json => check paint p log files json
    | .cacheKey file => cacheKey p log file i.verbose
    | .cacheClear => cacheClear paint p log

/-- Does what the arguments ask for, without colours. -/
def Invocation.run (i : Invocation) : m Outcome := i.runIn .off

end ErbTags.Cli
