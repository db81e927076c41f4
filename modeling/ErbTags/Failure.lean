import ErbTags.Cache.Store
import ErbTags.Diagnostic

/-!
# Failures

Everything that can stop the work as a whole, with the one text that the user sees.
-/

namespace ErbTags

/-- A setting with a value that is not allowed. -/
inductive InvalidSetting where
  /-- The component suffix is empty. -/
  | emptySuffix
  /-- The slot prefix does not start with a capital. -/
  | uncapitalizedSlotPrefix
  /-- The scope of the cache is empty. -/
  | emptyScope
  /-- The scope of the cache holds a colon. -/
  | colonInScope
deriving DecidableEq, Repr

/-- Why there is no configuration. -/
inductive ConfigFault where
  /-- The file cannot be read. -/
  | unreadable (path : String) (fault : FileFault)
  /-- The text is no TOML, or a setting has a value of the wrong type. -/
  | malformed
  /-- A setting has a value that is not allowed. -/
  | invalid (setting : InvalidSetting)
deriving DecidableEq, Repr

/-- What stops the work. -/
inductive Failure where
  /-- A template has a structural error. -/
  | template (identity : String) (error : StructuralError)
  /-- The cache fails. -/
  | cache (fault : CacheFault)
  /-- There is no configuration. -/
  | config (fault : ConfigFault)
deriving DecidableEq, Repr

/-- What a diagnostic says about the setting. -/
def InvalidSetting.message : InvalidSetting → String
  | .emptySuffix => "naming.component_suffix: must not be empty"
  | .uncapitalizedSlotPrefix => "naming.slot_prefix: must start with an uppercase ASCII letter"
  | .emptyScope => "cache.namespace: must not be empty"
  | .colonInScope => "cache.namespace: must not contain ':'"

/-- What a diagnostic says about the fault. -/
def ConfigFault.message : ConfigFault → String
  | .unreadable path fault =>
    "CONFIG_PARSE_ERROR: Failed to read " ++ path ++ ": " ++ fault.message
  | .malformed => "CONFIG_PARSE_ERROR: TOML parse error"
  | .invalid setting => "CONFIG_INVALID_VALUE: " ++ setting.message

/-- What a diagnostic says about the failure. -/
def Failure.message : Failure → String
  | .template identity error => "TRANSPILE_FAILED: " ++ identity ++ ": " ++ error.message
  | .cache fault => fault.message
  | .config fault => fault.message

end ErbTags
