import ErbTags.Delimiter
import ErbTags.Toml.Number

/-!
# TOML strings

There are four kinds of strings: basic ones with escapes, literal ones without, and both again in
triple quotes, where they may span lines. A string is first cut out of the text and then decoded.
-/

namespace ErbTags.Toml

/-- A character that may stand for itself inside a line: a tab, or anything but control characters.
-/
def isPlain (c : Char) : Bool := c == '\t' || (0x20 ≤ c.toNat && c.toNat ≠ 0x7F)

/-- The text with each line break written as a line feed. -/
def unifyLineBreaks : Text → Text
  | '\r' :: '\n' :: t => '\n' :: unifyLineBreaks t
  | c :: t => c :: unifyLineBreaks t
  | [] => []

/-- The text without a line break at its front. -/
def dropLineBreak : Text → Text
  | '\n' :: t => t
  | '\r' :: '\n' :: t => t
  | t => t

/-! ## Cutting strings out of the text -/

/-- The loop of `tripled?`, with the characters passed so far in reverse. -/
def tripledAfter (q : Char) (escapes : Bool) (passed : Text) : Text → Option (Text × Text)
  | [] => none
  | [_] => none
  | [_, _] => none
  | c₁ :: c₂ :: c₃ :: t =>
    if escapes && c₁ == '\\' then tripledAfter q escapes (c₂ :: c₁ :: passed) (c₃ :: t)
    else if c₁ == q && c₂ == q && c₃ == q then
      let extra := (t.take 2).takeWhile (· == q)
      some (passed.reverse ++ extra, t.drop extra.length)
    else tripledAfter q escapes (c₁ :: passed) (c₂ :: c₃ :: t)

/-- The string that ends at three quotes and the text after them, for a text right after the three
opening ones. One or two more quotes right before the end belong to the string. -/
def tripled? (q : Char) (escapes : Bool) (t : Text) : Option (Text × Text) :=
  tripledAfter q escapes [] t

/-! ## Decoding -/

/-- Where the decoding of a basic string stands. -/
inductive Escape where
  /-- At a character that stands for itself. -/
  | plain
  /-- After a backslash. -/
  | backslash
  /-- In a code point that lacks some digits yet; its value so far. -/
  | codePoint (missing value : Nat)
  /-- In the blanks between a backslash and a line break. -/
  | beforeBreak
  /-- In the blanks and line breaks after a backslash that ends a line. -/
  | afterBreak
deriving DecidableEq, Repr

/-- The character that one letter after a backslash stands for. -/
def escaped? : Char → Option Char
  | 'b' => some '\x08'
  | 't' => some '\t'
  | 'n' => some '\n'
  | 'f' => some '\x0c'
  | 'r' => some '\r'
  | '"' => some '"'
  | '\\' => some '\\'
  | _ => none

/-- The character with a code point, if there is one. -/
def character? (n : Nat) : Option Char := if n.isValidChar then some (Char.ofNat n) else none

/-- The text that the body of a basic string stands for. Line breaks are allowed, and a backslash
before one removes it with all blanks after it, if the string may span lines. -/
def unescape? (lines : Bool) : Escape → Text → Option Text
  | .plain, [] => some []
  | .afterBreak, [] => some []
  | _, [] => none
  | .plain, c :: t =>
    if c = '\\' then unescape? lines .backslash t
    else if isPlain c || (lines && c == '\n') then
      (unescape? lines .plain t).map (c :: ·)
    else none
  | .backslash, c :: t =>
    match escaped? c with
    | some d => (unescape? lines .plain t).map (d :: ·)
    | none =>
      if c = 'u' then unescape? lines (.codePoint 4 0) t
      else if c = 'U' then unescape? lines (.codePoint 8 0) t
      else if lines && (c == ' ' || c == '\t') then unescape? lines .beforeBreak t
      else if lines && c == '\n' then unescape? lines .afterBreak t
      else none
  | .codePoint missing value, c :: t => do
    let value := value * 16 + (← digit? 16 c)
    if missing ≤ 1 then
      let d ← character? value
      (unescape? lines .plain t).map (d :: ·)
    else unescape? lines (.codePoint (missing - 1) value) t
  | .beforeBreak, c :: t =>
    if c = ' ' || c = '\t' then unescape? lines .beforeBreak t
    else if c = '\n' then unescape? lines .afterBreak t
    else none
  | .afterBreak, c :: t =>
    if c = ' ' || c = '\t' || c = '\n' then unescape? lines .afterBreak t
    else if c = '\\' then unescape? lines .backslash t
    else if isPlain c then (unescape? lines .plain t).map (c :: ·)
    else none

/-- The string of one line at the front of a text, for a text right after its opening quote. -/
def lineString? (q : Char) (t : Text) : Option (Text × Text) := do
  if q = '"' then
    let (body, rest) ← Delimiter.quoted? q t
    return (← unescape? false .plain body, rest)
  else
    let (body, rest) ← Text.cutAt q t
    guard (body.all isPlain)
    return (body, rest)

/-- The string at the front of a text, in single or triple quotes, and the text after it. -/
def string? : Text → Option (Text × Text)
  | '"' :: '"' :: '"' :: t => do
    let (body, rest) ← tripled? '"' true (dropLineBreak t)
    return (← unescape? true .plain (unifyLineBreaks body), rest)
  | '\'' :: '\'' :: '\'' :: t => do
    let (body, rest) ← tripled? '\'' false (dropLineBreak t)
    let body := unifyLineBreaks body
    guard (body.all fun c => isPlain c || c == '\n')
    return (body, rest)
  | q :: t => if Delimiter.isQuote q then lineString? q t else none
  | [] => none

end ErbTags.Toml
