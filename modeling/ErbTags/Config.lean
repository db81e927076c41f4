import ErbTags.Conventions
import ErbTags.Failure
import ErbTags.Files.System
import ErbTags.Toml.Document

/-!
# Configuration

The settings of a project, read from a TOML document. Settings are grouped in the sections `naming`
and `cache`; a section is a table, or an array that gives the settings by position. What a document
does not set has its default, and keys that mean nothing are ignored.
-/

namespace ErbTags

/-- The settings of a project. -/
structure Config where
  /-- The naming conventions of the output. -/
  conventions : Conventions
  /-- Whether results are kept. -/
  cacheEnabled : Bool
  /-- The scope of cache keys. -/
  scope : String
  /-- Where results are kept, relative to the directory of the configuration. -/
  cacheDirectory : String
deriving DecidableEq, Repr

namespace Config

/-- The settings of a project that sets none. -/
def standard : Config := ⟨.standard, true, "erbx", ".erbx/cache"⟩

/-- The file that is looked for when none is named. -/
def fileName : String := "erbx.toml"

/-! ## Sections -/

/-- The values that a section of a document gives. -/
inductive Section where
  /-- By key. -/
  | keyed (entries : Toml.Table)
  /-- By position. -/
  | positional (elements : List Toml.Value)

namespace Section

/-- The section under a key of the document. A date counts as a section without settings. -/
def find? (key : String) (document : Toml.Table) : Option Section :=
  match document.lookup key with
  | none | some (.datetime _) => some (.keyed [])
  | some (.table _ entries) => some (.keyed entries)
  | some (.array elements) => some (.positional elements)
  | some (.tables elements) => some (.positional (elements.map (.table .header)))
  | some _ => none

/-- The value of a setting with a position and a key. -/
def value? (s : Section) (place : Nat) (key : String) : Option Toml.Value :=
  match s with
  | keyed entries => entries.lookup key
  | positional elements => elements[place]?

/-- A setting that is a text. -/
def text? (s : Section) (place : Nat) (key fallback : String) : Option String :=
  match s.value? place key with
  | none => some fallback
  | some (.string text) => some text
  | some _ => none

/-- A setting that is on or off. -/
def flag? (s : Section) (place : Nat) (key : String) (fallback : Bool) : Option Bool :=
  match s.value? place key with
  | none => some fallback
  | some (.boolean b) => some b
  | some _ => none

end Section

/-! ## Reading and checking -/

/-- The settings that a document gives, whether they are allowed or not. -/
def ofDocument? (document : Toml.Table) : Option Config := do
  let ⟨standardSuffix, standardSlot⟩ := standard.conventions
  let naming ← Section.find? "naming" document
  let suffix ← naming.text? 0 "component_suffix" (String.ofList standardSuffix)
  let slot ← naming.text? 1 "slot_prefix" (String.ofList standardSlot)
  let cache ← Section.find? "cache" document
  let enabled ← cache.flag? 0 "enabled" standard.cacheEnabled
  let scope ← cache.text? 1 "namespace" standard.scope
  let directory ← cache.text? 2 "dir" standard.cacheDirectory
  return ⟨⟨suffix.toList, slot.toList⟩, enabled, scope, directory⟩

/-- The first setting with a value that is not allowed. -/
def invalid? (c : Config) : Option InvalidSetting :=
  if c.conventions.componentSuffix = [] then some .emptySuffix
  else if !(c.conventions.slotPrefix.head?.any Char.isUpper) then some .uncapitalizedSlotPrefix
  else if c.scope = "" then some .emptyScope
  else if ':' ∈ c.scope.toList then some .colonInScope
  else none

/-- The settings, if all of them are allowed. -/
def validate (c : Config) : Except ConfigFault Config :=
  match c.invalid? with
  | some setting => .error (.invalid setting)
  | none => .ok c

/-- The settings that a text gives. -/
def parse (text : String) : Except ConfigFault Config :=
  match Toml.document? text.toList >>= ofDocument? with
  | some c => c.validate
  | none => .error .malformed

/-- The directory in which results are kept, for a configuration in the directory `root`. -/
def cachePath (c : Config) (root : String) : String := Path.join root c.cacheDirectory

variable {m : Type → Type} [Monad m] [FileSystem m]

/-- The settings in a file. -/
def ofFile (path : String) : m (Except ConfigFault Config) := do
  match ← FileSystem.readText path with
  | .ok text => return parse text
  | .error e => return .error (.unreadable path e)

/-- The settings in a file, or the default ones if there is no such file. -/
def ofFileOrStandard (path : String) : m (Except ConfigFault Config) := do
  if ← FileSystem.isPresent path then ofFile path else return .ok standard

end Config

end ErbTags
