import ErbTags.Cache.Store
import ErbTags.Failure
import ErbTags.Transpile

/-!
# Compiling with a cache

A compiler turns templates into ERB and keeps the results in a store. A store that fails never makes
a compilation fail: an entry that cannot be read counts as missing, and one that cannot be written
is lost. Structural errors are not kept.
-/

namespace ErbTags

/-- A compiler over a store. -/
structure Compiler (m : Type → Type) where
  /-- Where the results are kept. -/
  store : Store m
  /-- The scope of its keys. -/
  scope : String
  /-- The naming conventions of its output. -/
  conventions : Conventions

/-- The outcome of compiling a template, with the log of the work. -/
structure Compiled where
  /-- The ERB text, or what stopped the work. -/
  result : Except Failure String
  /-- Records for the log. -/
  log : List LogRecord

namespace Compiler

/-- The key of a template. -/
def key {m : Type → Type} (c : Compiler m) (identity source : String) : CacheKey :=
  .ofSource c.scope identity source

/-- The record about a value that could not be read. -/
def warningRecord (identity : String) (w : Warning) : LogRecord :=
  ⟨.warn, .compiler, identity ++ ":" ++ toString w.position.line ++ ":" ++
    toString w.position.column ++ ": " ++ w.message⟩

/-- The record about an attempt to read an entry. -/
def readRecord (key : CacheKey) : Except CacheFault (Option String) → LogRecord
  | .ok (some _) => ⟨.debug, .compiler, "Cache hit: " ++ key.display⟩
  | .ok none => ⟨.debug, .compiler, "Cache miss: " ++ key.display⟩
  | .error e =>
    ⟨.warn, .compiler, "Ignoring unreadable cache entry for " ++ key.identity ++ ": " ++ e.message⟩

/-- The records about an attempt to write an entry. -/
def writeRecords (key : CacheKey) : Except CacheFault Unit → List LogRecord
  | .ok () => []
  | .error e => [⟨.warn, .compiler, "Failed to cache " ++ key.identity ++ ": " ++ e.message⟩]

variable {m : Type → Type} [Monad m]

/-- Turns a template into ERB and keeps the result. -/
def compileFresh (c : Compiler m) (identity source : String) : m Compiled := do
  let t := transpileLogged c.conventions source.toList
  match t.result with
  | .error e => return ⟨.error (.template identity e), t.log⟩
  | .ok r =>
    let key := c.key identity source
    let output := String.ofList r.output
    let written ← c.store.write key output
    let warnings := r.warnings.map (warningRecord identity)
    return ⟨.ok output, t.log ++ warnings ++ writeRecords key written⟩

/-- Gives the result that the store has for a template, or turns the template into ERB. -/
def compile (c : Compiler m) (identity source : String) : m Compiled := do
  let key := c.key identity source
  let found ← c.store.read key
  match found with
  | .ok (some output) => return ⟨.ok output, [readRecord key found]⟩
  | _ =>
    let compiled ← c.compileFresh identity source
    return { compiled with log := readRecord key found :: compiled.log }

end Compiler

end ErbTags
