import ErbTags.Toml.Quoted
import ErbTags.Toml.Value

/-!
# TOML documents

Reads a TOML 1.0 document into a table. Readers take the text that is left and give what they read
with the text after it; there is no answer if the text is not valid. Arrays, inline tables and
dotted keys may be nested up to a fixed depth.
-/

namespace ErbTags.Toml

/-- The greatest number of arrays and inline tables that may lie in each other, and of keys that may
be joined by dots. -/
def maxDepth : Nat := 79

/-! ## Blanks and comments -/

/-- Whether the character is a blank inside a line. -/
def isSpace (c : Char) : Bool := c == ' ' || c == '\t'

/-- The text after the blanks of a line. -/
def skipSpaces (t : Text) : Text := t.dropWhile isSpace

/-- The text after a line break. -/
def afterLineBreak? : Text → Option Text
  | '\n' :: t => some t
  | '\r' :: '\n' :: t => some t
  | _ => none

/-- The text after a line break, or the empty text at the end of the document. -/
def afterLine? : Text → Option Text
  | [] => some []
  | t => afterLineBreak? t

/-- The text after the rest of a line, in which only blanks and a comment may stand. -/
def afterLineRest? (t : Text) : Option Text :=
  match skipSpaces t with
  | '#' :: t => afterLine? (t.dropWhile isPlain)
  | t => afterLine? t

/-- The text after blanks, line breaks and comments. The flag tells whether the text starts inside a
comment. -/
def skipTrivia? : Bool → Text → Option Text
  | false, [] => some []
  | true, [] => none
  | _, '\r' :: '\n' :: t => skipTrivia? false t
  | false, c :: t =>
    if isSpace c || c == '\n' then skipTrivia? false t
    else if c = '#' then skipTrivia? true t
    else some (c :: t)
  | true, c :: t =>
    if c = '\n' then skipTrivia? false t
    else if isPlain c then skipTrivia? true t
    else none

/-! ## Keys -/

/-- Whether the character may stand in a key without quotes. -/
def isBareKeyChar (c : Char) : Bool := c.isAlphanum || c == '_' || c == '-'

/-- One key, without or with quotes. -/
def key? (t : Text) : Option (String × Text) :=
  match t with
  | [] => none
  | c :: rest =>
    if Delimiter.isQuote c then
      (lineString? c rest).map fun (name, rest) => (String.ofList name, rest)
    else
      let name := t.takeWhile isBareKeyChar
      if name = [] then none else some (String.ofList name, t.dropWhile isBareKeyChar)

/-- At most `n` keys joined by dots, with blanks around them. -/
def keys? : Nat → Text → Option (List String × Text)
  | 0, _ => none
  | n + 1, t => do
    let (key, t) ← key? (skipSpaces t)
    match skipSpaces t with
    | '.' :: t =>
      let (keys, t) ← keys? n t
      return (key :: keys, t)
    | t => return ([key], t)

/-! ## Values -/

/-- Whether the character may stand in a number, a date or a word. -/
def isLexemeChar (c : Char) : Bool := c.isAlphanum || "+-_.:".toList.contains c

/-- The value of a number, a date or a word. -/
def word? (lexeme : Text) : Option Value :=
  if lexeme = "true".toList then some (.boolean true)
  else if lexeme = "false".toList then some (.boolean false)
  else if isDatetime lexeme then some (.datetime (String.ofList lexeme))
  else if isFloat lexeme then some (.float (String.ofList lexeme))
  else (integer? lexeme).map .integer

/-- The value at the front of a text that is no array and no inline table. A date may be joined to a
time by a blank. -/
def scalar? (t : Text) : Option (Value × Text) :=
  match t with
  | [] => none
  | c :: _ =>
    if Delimiter.isQuote c then
      (string? t).map fun (text, rest) => (.string (String.ofList text), rest)
    else
      let lexeme := t.takeWhile isLexemeChar
      let rest := t.dropWhile isLexemeChar
      match isDate lexeme, rest with
      | true, ' ' :: d :: rest' =>
        if d.isDigit then
          let time := (d :: rest').takeWhile isLexemeChar
          if isZonedTime time then
            some (.datetime (String.ofList (lexeme ++ ' ' :: time)),
              (d :: rest').dropWhile isLexemeChar)
          else none
        else some (.datetime (String.ofList lexeme), rest)
      | _, _ => (word? lexeme).map fun v => (v, rest)

/-- The elements of an array after those in `elements`, which are in reverse, for a text right after
the opening bracket or a comma. Each round reads one element, so `fuel` bounds their number. -/
def arrayFrom? (value : Text → Option (Value × Text)) :
    (fuel : Nat) → List Value → Text → Option (Value × Text)
  | 0, _, _ => none
  | fuel + 1, elements, t => do
    match ← skipTrivia? false t with
    | ']' :: t => return (.array elements.reverse, t)
    | t =>
      let (v, t) ← value t
      match ← skipTrivia? false t with
      | ',' :: t => arrayFrom? value fuel (v :: elements) t
      | ']' :: t => return (.array (v :: elements).reverse, t)
      | _ => none

/-- The entries of an inline table after those in `table`, for a text right before a key. -/
def inlineTableFrom? (value : Text → Option (Value × Text)) :
    (fuel : Nat) → Table → Text → Option (Value × Text)
  | 0, _, _ => none
  | fuel + 1, table, t => do
    let (keys, t) ← keys? maxDepth t
    let (v, t) ← value (skipSpaces (← after? '=' t))
    let table ← table.insert? v keys
    match skipSpaces t with
    | ',' :: t => inlineTableFrom? value fuel table t
    | '}' :: t => return (.table .inlined table, t)
    | _ => none

/-- An inline table, for a text right after the opening brace. -/
def inlineTable? (value : Text → Option (Value × Text)) (t : Text) : Option (Value × Text) :=
  match skipSpaces t with
  | '}' :: t => some (.table .inlined [], t)
  | t => inlineTableFrom? value (t.length + 1) [] t

/-- The value at the front of a text, with at most `depth` arrays and inline tables in each other.
-/
def value? : (depth : Nat) → Text → Option (Value × Text)
  | depth + 1, '[' :: t => arrayFrom? (value? depth) (t.length + 1) [] t
  | depth + 1, '{' :: t => inlineTable? (value? depth) t
  | _, t => scalar? t

/-! ## Lines -/

/-- What is known after some lines of a document. -/
structure Reading where
  /-- The document so far. -/
  root : Table
  /-- The keys of the last header. -/
  header : List String

namespace Reading

/-- Opens the table of a header, or one more of its tables. -/
def openHeader? (r : Reading) (repeated : Bool) (keys : List String) : Option Reading := do
  let key ← keys.getLast?
  let change := if repeated then Table.openElement? key else Table.openTable? key
  return ⟨← Table.descend? change keys.dropLast r.root, keys⟩

/-- Adds a value to the table of the last header. -/
def insert? (r : Reading) (keys : List String) (v : Value) : Option Reading := do
  return { r with root := ← Table.descend? (Table.insert? v keys) r.header r.root }

/-- The reading after one line, and the text after it. -/
def line? (r : Reading) (t : Text) : Option (Reading × Text) := do
  match t with
  | '#' :: _ | '\n' :: _ | '\r' :: _ => return (r, ← afterLineRest? t)
  | '[' :: '[' :: t =>
    let (keys, t) ← keys? maxDepth t
    let t ← afterLineRest? (← after? ']' (← after? ']' t))
    return (← r.openHeader? true keys, t)
  | '[' :: t =>
    let (keys, t) ← keys? maxDepth t
    let t ← afterLineRest? (← after? ']' t)
    return (← r.openHeader? false keys, t)
  | _ =>
    let (keys, t) ← keys? maxDepth t
    let (v, t) ← value? maxDepth (skipSpaces (← after? '=' t))
    let t ← afterLineRest? t
    return (← r.insert? keys v, t)

/-- The reading after all lines. Each round reads one line, so `fuel` bounds their number. -/
def lines? : (fuel : Nat) → Reading → Text → Option Reading
  | 0, _, _ => none
  | fuel + 1, r, t =>
    match skipSpaces t with
    | [] => some r
    | t => do
      let (r, t) ← r.line? t
      lines? fuel r t

end Reading

/-- The table that a document stands for. A byte-order mark at its front is skipped. -/
def document? (t : Text) : Option Table :=
  let t := match t with
    | '\uFEFF' :: t => t
    | t => t
  (Reading.lines? (t.length + 1) ⟨[], []⟩ t).map Reading.root

end ErbTags.Toml
