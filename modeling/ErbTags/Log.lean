/-!
# Log records

What the library has to say about its own work is returned as data beside each result. Who calls it
decides which records are shown, and how.
-/

namespace ErbTags

/-- The severity of a record. -/
inductive Level where
  | error
  | warn
  | info
  | debug
  | trace
deriving DecidableEq, Repr

/-- The more severe a level, the smaller its rank. -/
def Level.rank : Level → Nat
  | .error => 1
  | .warn => 2
  | .info => 3
  | .debug => 4
  | .trace => 5

/-- The name of the level. -/
def Level.label : Level → String
  | .error => "ERROR"
  | .warn => "WARN"
  | .info => "INFO"
  | .debug => "DEBUG"
  | .trace => "TRACE"

/-- The part of the program that a record comes from. -/
inductive Origin where
  /-- The reader of attributes. -/
  | attributes
  /-- The pass over a template. -/
  | template
  /-- The compiler with its cache. -/
  | compiler
  /-- The lookup of the configuration. -/
  | configuration
  /-- The command that compiles. -/
  | compileCommand
  /-- The commands that look after the cache. -/
  | cacheCommand
deriving DecidableEq, Repr

/-- The name under which records of this origin are shown. -/
def Origin.label : Origin → String
  | .attributes => "erbx_core::transpile::attrs"
  | .template => "erbx_core::transpile"
  | .compiler => "erbx_core::compile"
  | .configuration => "erbx::context"
  | .compileCommand => "erbx::commands::compile"
  | .cacheCommand => "erbx::commands::cache"

/-- One record of a log. -/
structure LogRecord where
  /-- How severe it is. -/
  level : Level
  /-- Where it comes from. -/
  origin : Origin
  /-- What it says. -/
  message : String
deriving DecidableEq, Repr

/-- The least severe level that is shown; `none` shows nothing. -/
abbrev LogFilter := Option Level

/-- Whether the filter shows records of this level. -/
def LogFilter.shows (f : LogFilter) (level : Level) : Bool :=
  match f with
  | none => false
  | some least => level.rank ≤ least.rank

end ErbTags
