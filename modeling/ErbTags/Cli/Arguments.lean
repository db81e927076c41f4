
/-!
# Arguments

What the arguments of the program ask for. Arguments are read at up to three levels: those of the
program, those of a command and those of a command of the cache. Each level has its own switches and
ends at the name of a command or takes operands. At each level a switch may be given once; the two
switches `--verbose` and `--config` are known at every level, and the innermost `--config` counts.
-/

namespace ErbTags.Cli

/-- A switch of the command line. -/
inductive Switch where
  | verbose
  | config
  | version
  | help
  | output
  | noCache
  | json
deriving DecidableEq, Repr

namespace Switch

/-- The name after two dashes. -/
def long : Switch → String
  | verbose => "verbose"
  | config => "config"
  | version => "version"
  | help => "help"
  | output => "output"
  | noCache => "no-cache"
  | json => "json"

/-- The letter after one dash. -/
def short? : Switch → Option Char
  | verbose => some 'v'
  | version => some 'V'
  | help => some 'h'
  | output => some 'o'
  | config | noCache | json => none

/-- Whether a value belongs to the switch. -/
def takesValue : Switch → Bool
  | config | output => true
  | verbose | version | help | noCache | json => false

end Switch

/-- What may stand at a level. -/
structure ArgumentLevel where
  /-- The switches known there. -/
  switches : List Switch
  /-- The names of the commands that may follow. A level without any takes operands. -/
  commands : List String
deriving DecidableEq, Repr

namespace ArgumentLevel

/-- The level of the program. -/
def program : ArgumentLevel :=
  ⟨[.verbose, .config, .version, .help], ["compile", "check", "cache", "help"]⟩

/-- The level of the command that compiles. -/
def compile : ArgumentLevel := ⟨[.verbose, .config, .help, .output, .noCache], []⟩

/-- The level of the command that checks. -/
def check : ArgumentLevel := ⟨[.verbose, .config, .help, .json], []⟩

/-- The level of the commands of the cache. -/
def cache : ArgumentLevel := ⟨[.verbose, .config, .help], ["key", "clear", "help"]⟩

/-- The level of one command of the cache. -/
def cacheCommand : ArgumentLevel := ⟨[.verbose, .config, .help], []⟩

/-- The switch with the given name. -/
def long? (l : ArgumentLevel) (name : String) : Option Switch := l.switches.find? (·.long = name)

/-- The switch with the given letter. -/
def short? (l : ArgumentLevel) (letter : Char) : Option Switch :=
  l.switches.find? (·.short? = some letter)

end ArgumentLevel

/-- What is given at a level. -/
structure Given where
  /-- The switches, each with its value; a switch that takes none has the empty one. -/
  switches : List (Switch × String)
  /-- The operands, in order. -/
  operands : List String
deriving DecidableEq, Repr

namespace Given

/-- Whether the switch is given. -/
def has (g : Given) (s : Switch) : Bool := (g.switches.lookup s).isSome

/-- Adds a switch that is not given yet. No value may be empty. -/
def add? (g : Given) (s : Switch) (value : String) : Option Given :=
  if g.has s || (s.takesValue && value.isEmpty) then none
  else some { g with switches := g.switches ++ [(s, value)] }

/-- Adds an operand, which may not be empty. -/
def addOperand? (g : Given) (operand : String) : Option Given :=
  if operand.isEmpty then none else some { g with operands := g.operands ++ [operand] }

end Given

/-- Where reading a level stops. -/
inductive Stop where
  /-- At a switch that asks for information only. -/
  | asked (s : Switch)
  /-- At the name of a command; the arguments after it. -/
  | command (given : Given) (name : String) (rest : List String)
  /-- At the end. -/
  | finished (given : Given)
deriving DecidableEq, Repr

/-- What reading one argument comes to. -/
inductive Step where
  /-- Reading goes on. -/
  | next (given : Given)
  /-- The next argument is the value of a switch. -/
  | pending (given : Given) (s : Switch)
  /-- Reading stops. -/
  | stop (s : Switch)
deriving DecidableEq, Repr

/-- Reads a switch that takes no value. -/
def bare? (g : Given) (s : Switch) : Option Step :=
  if s = .version ∨ s = .help then some (.stop s) else (g.add? s "").map .next

/-- Reads the letters after one dash. The letters after one that takes a value are its value,
without an equals sign at their front. -/
def letters? (l : ArgumentLevel) : Given → List Char → Option Step
  | g, [] => some (.next g)
  | g, c :: t => do
    let s ← l.short? c
    if s.takesValue then
      match t with
      | [] => return .pending g s
      | '=' :: value => return .next (← g.add? s (String.ofList value))
      | value => return .next (← g.add? s (String.ofList value))
    else
      match ← bare? g s with
      | .next g => letters? l g t
      | step => return step

/-- Reads the text after two dashes: a name, and maybe a value after an equals sign. -/
def word? (l : ArgumentLevel) (g : Given) (t : List Char) : Option Step := do
  let s ← l.long? (String.ofList (t.takeWhile (· ≠ '=')))
  match t.dropWhile (· ≠ '='), s.takesValue with
  | [], true => return .pending g s
  | [], false => bare? g s
  | _ :: value, true => return .next (← g.add? s (String.ofList value))
  | _ :: _, false => none

/-- Whether the argument is one or more switches; a lone dash is not. -/
def isSwitch (argument : String) : Bool :=
  match argument.toList with
  | '-' :: _ :: _ => true
  | _ => false

/-- Reads an argument that is one or more switches. -/
def switch? (l : ArgumentLevel) (g : Given) (argument : String) : Option Step :=
  match argument.toList with
  | '-' :: '-' :: t => word? l g t
  | _ :: t => letters? l g t
  | [] => none

namespace ArgumentLevel

/-- Reads the arguments at a level, with what is given so far. After two dashes alone there are only
operands. -/
def read? (l : ArgumentLevel) : Given → List String → Option Stop
  | g, [] => some (.finished g)
  | g, argument :: rest =>
    if argument = "--" then
      if l.commands = [] then (rest.foldlM Given.addOperand? g).map .finished
      else if rest = [] then some (.finished g)
      else none
    else if isSwitch argument then
      match switch? l g argument, rest with
      | some (.next g), rest => read? l g rest
      | some (.pending g s), value :: rest =>
        if isSwitch value then none else (g.add? s value).bind (read? l · rest)
      | some (.stop s), _ => some (.asked s)
      | _, _ => none
    else if l.commands = [] then (g.addOperand? argument).bind (read? l · rest)
    else if argument ∈ l.commands then some (.command g argument rest)
    else none

end ArgumentLevel

/-! ## Requests -/

/-- What the program can do with templates and its cache. -/
inductive Command where
  /-- Turns a template into ERB, into a file or to the standard output. -/
  | compile (file : String) (output : Option String) (noCache : Bool)
  /-- Reports the structural errors of templates. -/
  | check (files : List String) (json : Bool)
  /-- Prints the cache key of a template. -/
  | cacheKey (file : String)
  /-- Removes all cache entries. -/
  | cacheClear
deriving DecidableEq, Repr

/-- A command with the settings that all commands share. -/
structure Invocation where
  /-- Whether to say more. -/
  verbose : Bool
  /-- The configuration file, if one is named. -/
  config : Option String
  /-- What to do. -/
  command : Command
deriving DecidableEq, Repr

/-- What the arguments ask for. -/
inductive Request where
  /-- The version of the program. -/
  | version
  /-- How to use the program. -/
  | help
  /-- The work of a command. -/
  | run (invocation : Invocation)
deriving DecidableEq, Repr

/-- The request of a switch that asks for information only. -/
def Request.ofSwitch (s : Switch) : Request := if s = .version then .version else .help

/-- The request for a command, with what is given at each level, the innermost first. The
environment names the configuration where a level does not; it may not name it by an empty text. -/
def Request.ofCommand? (environment : Option String) (levels : List Given) (command : Command) :
    Option Request := do
  guard (environment ≠ some "" ∨ levels.all (·.has .config))
  let config := levels.findSome? (·.switches.lookup .config)
  return .run ⟨levels.any (·.has .verbose), config <|> environment, command⟩

/-- The command with the given operands. -/
def Command.ofOperands? (name : String) (g : Given) : Option Command :=
  match name, g.operands with
  | "compile", [file] => some (.compile file (g.switches.lookup .output) (g.has .noCache))
  | "check", files@(_ :: _) => some (.check files (g.has .json))
  | "key", [file] => some (.cacheKey file)
  | "clear", [] => some .cacheClear
  | _, _ => none

/-- Reads the last level, after those in `levels`. -/
def lastLevel? (environment : Option String) (levels : List Given) (l : ArgumentLevel)
    (name : String) (arguments : List String) : Option Request := do
  match ← l.read? ⟨[], []⟩ arguments with
  | .asked s => return .ofSwitch s
  | .finished g => Request.ofCommand? environment (g :: levels) (← Command.ofOperands? name g)
  | .command _ _ _ => none

/-- The request for help on a command, which is given by its names. -/
def helpOn? : List String → Option Request
  | [] | ["compile"] | ["check"] | ["cache"] | ["cache", "key"] | ["cache", "clear"]
  | ["help"] | ["cache", "help"] => some .help
  | _ => none

/-- The request that the arguments make; none if they are not used as they should. The environment
may name a configuration file. -/
def Request.ofArguments? (environment : Option String) (arguments : List String) :
    Option Request := do
  match ← ArgumentLevel.program.read? ⟨[], []⟩ arguments with
  | .asked s => return .ofSwitch s
  | .finished _ => none
  | .command _ "help" rest => helpOn? rest
  | .command outer "compile" rest => lastLevel? environment [outer] .compile "compile" rest
  | .command outer "check" rest => lastLevel? environment [outer] .check "check" rest
  | .command outer _ rest =>
    match ← ArgumentLevel.cache.read? ⟨[], []⟩ rest with
    | .asked s => return .ofSwitch s
    | .finished _ => none
    | .command _ "help" rest => helpOn? ("cache" :: rest)
    | .command inner name rest => lastLevel? environment [inner, outer] .cacheCommand name rest

end ErbTags.Cli
