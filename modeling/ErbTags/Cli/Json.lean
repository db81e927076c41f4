import ErbTags.Text

/-!
# JSON

JSON texts, printed over several lines with two blanks for each level. The order of the members of
an object is that of the list that holds them.
-/

namespace ErbTags.Cli

/-- A JSON text. -/
inductive Json where
  | boolean (b : Bool)
  | number (n : Nat)
  | string (text : String)
  | array (elements : List Json)
  | object (members : List (String × Json))

namespace Json

/-- A hexadecimal digit. -/
def hexDigit (n : Nat) : Char := if n < 10 then Char.ofNat (0x30 + n) else Char.ofNat (0x57 + n)

/-- How a character is written between quotes. Only quotes, backslashes and control characters are
not written as they are. -/
def escapeChar (c : Char) : Text :=
  match c with
  | '"' => ['\\', '"']
  | '\\' => ['\\', '\\']
  | '\n' => ['\\', 'n']
  | '\r' => ['\\', 'r']
  | '\t' => ['\\', 't']
  | '\x08' => ['\\', 'b']
  | '\x0c' => ['\\', 'f']
  | c =>
    if c.toNat < 0x20 then ['\\', 'u', '0', '0', hexDigit (c.toNat / 16), hexDigit (c.toNat % 16)]
    else [c]

/-- A text between quotes. -/
def quote (text : String) : String :=
  "\"" ++ String.ofList (text.toList.flatMap escapeChar) ++ "\""

/-- The start of a line at a level. -/
def newLine (level : Nat) : String := "\n" ++ String.ofList (List.replicate (2 * level) ' ')

/-- Items in brackets, each on a line of its own. -/
def bracket (opening closing : String) (level : Nat) (items : List String) : String :=
  if items = [] then opening ++ closing
  else
    opening ++ newLine (level + 1) ++ String.intercalate ("," ++ newLine (level + 1)) items ++
      newLine level ++ closing

mutual

/-- The text at a level. -/
def render (level : Nat) : Json → String
  | boolean b => if b then "true" else "false"
  | number n => toString n
  | string text => quote text
  | array elements => bracket "[" "]" level (renderElements (level + 1) elements)
  | object members => bracket "\x7b" "\x7d" level (renderMembers (level + 1) members)

/-- The texts of elements. -/
def renderElements (level : Nat) : List Json → List String
  | [] => []
  | j :: js => j.render level :: renderElements level js

/-- The texts of members. -/
def renderMembers (level : Nat) : List (String × Json) → List String
  | [] => []
  | (key, j) :: rest => (quote key ++ ": " ++ j.render level) :: renderMembers level rest

end

/-- The text. -/
def pretty (j : Json) : String := j.render 0

end Json

end ErbTags.Cli
