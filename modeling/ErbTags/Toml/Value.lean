import ErbTags.Text

/-!
# TOML values and tables

A TOML document is a table. How a table came about decides what may still be added to it: a table
that a header or an inline value gives is complete, one that dotted keys gave takes more dotted
keys, and one that is only implied by a longer header can still get a header of its own. So each
table remembers its origin, and the operations at the end of this file keep to these rules.
-/

namespace ErbTags.Toml

/-- How a table came about. -/
inductive TableOrigin where
  /-- It has a header of its own. -/
  | header
  /-- It lies on the way to a table with a header. -/
  | implied
  /-- It lies on the way to the value of a dotted key. -/
  | dotted
  /-- It is written as a value, in braces. -/
  | inlined
deriving DecidableEq, Repr

/-- A value of a TOML document. -/
inductive Value where
  | string (text : String)
  | integer (n : Int)
  | boolean (b : Bool)
  /-- A floating-point number, as written. -/
  | float (lexeme : String)
  /-- A date, a time or both, as written. -/
  | datetime (lexeme : String)
  | array (elements : List Value)
  | table (origin : TableOrigin) (entries : List (String × Value))
  /-- Tables that share a header, in order. -/
  | tables (elements : List (List (String × Value)))

/-- The entries of a table. -/
abbrev Table := List (String × Value)

namespace Table

/-- The table with the value of a key that it has changed. -/
def set (key : String) (v : Value) (t : Table) : Table :=
  t.map fun (k, old) => if k = key then (k, v) else (k, old)

/-- Adds a key that the table must not have yet. -/
def add? (key : String) (v : Value) (t : Table) : Option Table :=
  if (t.lookup key).isSome then none else some (t ++ [(key, v)])

/-- Changes the last of several tables. -/
def changeLast? (change : Table → Option Table) (elements : List Table) :
    Option (List Table) := do
  let last ← elements.getLast?
  return elements.dropLast ++ [← change last]

/-- Changes the table that a header leads to. Tables missing on the way are implied by the header.
-/
def descend? (change : Table → Option Table) : List String → Table → Option Table
  | [], t => change t
  | key :: keys, t =>
    match t.lookup key with
    | none => do t.add? key (.table .implied (← descend? change keys []))
    | some (.table .inlined _) => none
    | some (.table origin entries) => do
      return t.set key (.table origin (← descend? change keys entries))
    | some (.tables elements) => do
      return t.set key (.tables (← changeLast? (descend? change keys) elements))
    | some _ => none

/-- Gives a header to the table under a key. It must not have one yet. -/
def openTable? (key : String) (t : Table) : Option Table :=
  match t.lookup key with
  | none => t.add? key (.table .header [])
  | some (.table .implied entries) => some (t.set key (.table .header entries))
  | some _ => none

/-- Adds one more table to those under a key. -/
def openElement? (key : String) (t : Table) : Option Table :=
  match t.lookup key with
  | none => t.add? key (.tables [[]])
  | some (.tables elements) => some (t.set key (.tables (elements ++ [[]])))
  | some _ => none

/-- Adds the value of a dotted key. The tables on the way must not have a header, and the last one
has to come from dotted keys. -/
def insert? (v : Value) : List String → Table → Option Table
  | [], _ => none
  | [key], t => t.add? key v
  | key :: keys, t =>
    match t.lookup key with
    | none => do t.add? key (.table .dotted (← insert? v keys []))
    | some (.table .dotted entries) => do
      return t.set key (.table .dotted (← insert? v keys entries))
    | some (.table .implied entries) => do
      guard (1 < keys.length)
      return t.set key (.table .implied (← insert? v keys entries))
    | some (.tables elements) => do
      guard (1 < keys.length)
      return t.set key (.tables (← changeLast? (insert? v keys) elements))
    | some _ => none

end Table

end ErbTags.Toml
