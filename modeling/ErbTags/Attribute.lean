import ErbTags.Log
import ErbTags.Text

/-!
# Attributes

What the attributes of a tag mean: a list of keyword arguments for the generated call, the name that
the tag chooses for its block variable, and the values that could not be read and count as `true`.
How they are written in a tag is the matter of `ErbTags.Attribute.Reader`.
-/

namespace ErbTags

/-- The value of an attribute. -/
inductive AttributeValue where
  /-- A string, as it stands between its quotes. -/
  | string (text : Text)
  /-- Code of the host language, as it stands between its braces. -/
  | expression (code : Text)
  /-- A key without a value, or with one that could not be read. -/
  | yes
deriving DecidableEq, Repr

/-- One keyword argument of a generated call. -/
structure AttributeEntry where
  /-- The key, with underscores for dashes. -/
  key : Text
  /-- Its value. -/
  value : AttributeValue
deriving DecidableEq, Repr

/-- Why a value could not be read. -/
inductive AttributeFault where
  /-- The brace that would close the expression is missing. -/
  | unbalanced (key : Text)
  /-- The quote that would close the string is missing. -/
  | unterminated (key : Text)
deriving DecidableEq, Repr

/-- The attributes of one tag. -/
structure Attributes where
  /-- The keyword arguments in the order of the tag. -/
  entries : List AttributeEntry
  /-- The name that the tag chooses for its block variable. -/
  blockVariable : Option Text
  /-- The values that count as `true` because they could not be read. -/
  faults : List AttributeFault
deriving DecidableEq, Repr

/-- What a diagnostic says about the fault. -/
def AttributeFault.message : AttributeFault → String
  | .unbalanced key => "Unbalanced braces in value of '" ++ String.ofList key ++ "', using true"
  | .unterminated key => "Unterminated string in value of '" ++ String.ofList key ++ "', using true"

/-- The log of reading the attributes: each fault is noted. -/
def Attributes.log (a : Attributes) : List LogRecord :=
  a.faults.map fun fault => ⟨.debug, .attributes, fault.message⟩

/-! ## Host-language text -/

/-- The text with a backslash put before every double quote that has none. The flag tells whether a
backslash protects the first character. -/
def escapeQuotes : Bool → Text → Text
  | _, [] => []
  | true, c :: t => c :: escapeQuotes false t
  | false, c :: t =>
    if c = '\\' then c :: escapeQuotes true t
    else if c = '"' then '\\' :: c :: escapeQuotes false t
    else c :: escapeQuotes false t

/-- The text as a double-quoted literal. -/
def doubleQuoted (t : Text) : Text := '"' :: (escapeQuotes false t ++ ['"'])

/-- The value in the host language. -/
def AttributeValue.render : AttributeValue → Text
  | .string text => doubleQuoted text
  | .expression code => code
  | .yes => "true".toList

/-- The entry as a keyword argument. -/
def AttributeEntry.render (e : AttributeEntry) : Text := e.key ++ ": ".toList ++ e.value.render

/-- The keyword arguments of the generated call, without parentheses. -/
def Attributes.arguments (a : Attributes) : Text :=
  List.intercalate ", ".toList (a.entries.map AttributeEntry.render)

end ErbTags
