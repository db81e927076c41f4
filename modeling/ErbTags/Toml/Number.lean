import ErbTags.Text

/-!
# TOML numbers and dates

Numbers, dates and times are told apart by their whole lexeme. Underscores may stand between digits;
integers have to fit in 64 bits, numbers with a fraction or an exponent must not exceed the largest
double, and dates have to be days of the calendar.
-/

namespace ErbTags.Toml

/-- The value of a digit in a base of up to sixteen. -/
def digit? (base : Nat) (c : Char) : Option Nat := do
  let n ←
    if c.isDigit then some (c.toNat - '0'.toNat)
    else if 'a' ≤ c && c ≤ 'f' then some (c.toNat - 'a'.toNat + 10)
    else if 'A' ≤ c && c ≤ 'F' then some (c.toNat - 'A'.toNat + 10)
    else none
  if n < base then some n else none

/-- The digits after a digit, each with at most one underscore before it. -/
def moreDigits? (base : Nat) : Text → Option (List Nat)
  | [] => some []
  | '_' :: c :: t => do return (← digit? base c) :: (← moreDigits? base t)
  | c :: t => do return (← digit? base c) :: (← moreDigits? base t)

/-- The digits of a text that has at least one, with single underscores between them. -/
def digits? (base : Nat) : Text → Option (List Nat)
  | [] => none
  | c :: t => do return (← digit? base c) :: (← moreDigits? base t)

/-- The number with the given digits. -/
def ofDigits (base : Nat) (ds : List Nat) : Nat := ds.foldl (fun n d => n * base + d) 0

/-- Whether the text starts with a minus, and the text after its sign. -/
def sign : Text → Bool × Text
  | '-' :: t => (true, t)
  | '+' :: t => (false, t)
  | t => (false, t)

/-- The digits of a decimal number without a leading zero. -/
def decimal? (t : Text) : Option (List Nat) := do
  let ds ← digits? 10 t
  guard (ds.length = 1 ∨ ds.head? ≠ some 0)
  return ds

/-- The integer that a lexeme writes. -/
def integer? (t : Text) : Option Int := do
  let limit : Int := 0x8000000000000000
  let inRange (n : Int) : Option Int := if -limit ≤ n ∧ n < limit then some n else none
  match t with
  | '0' :: 'x' :: ds => inRange (ofDigits 16 (← digits? 16 ds))
  | '0' :: 'o' :: ds => inRange (ofDigits 8 (← digits? 8 ds))
  | '0' :: 'b' :: ds => inRange (ofDigits 2 (← digits? 2 ds))
  | _ =>
    let (negative, ds) := sign t
    let n := ofDigits 10 (← decimal? ds)
    inRange (if negative then -n else n)

/-- Whether a number with the given digits, times ten to the power of `exponent`, rounds to more
than the largest double. -/
def exceedsDouble (ds : List Nat) (exponent : Int) : Bool :=
  let ds := ds.dropWhile (· == 0)
  let magnitude := ds.length + exponent
  let bound := (Nat.pow 2 54 - 1) * Nat.pow 2 970
  if ds = [] || magnitude < 300 then false
  else if 400 < magnitude then true
  else if 0 ≤ exponent then bound ≤ ofDigits 10 ds * Nat.pow 10 exponent.toNat
  else bound * Nat.pow 10 (-exponent).toNat ≤ ofDigits 10 ds

/-- Whether a lexeme writes a floating-point number: digits with a fraction, an exponent or both, or
one of the words `inf` and `nan`. -/
def isFloat (t : Text) : Bool :=
  let (negative, body) := sign t
  if body = "inf".toList || body = "nan".toList then true
  else
    let mantissa := body.takeWhile fun c => c ≠ 'e' ∧ c ≠ 'E'
    let whole := mantissa.takeWhile (· ≠ '.')
    let fraction := (mantissa.dropWhile (· ≠ '.')).drop 1
    let hasFraction := mantissa.contains '.'
    let hasExponent := mantissa.length < body.length
    let (exponentNegative, exponent) := sign (body.drop (mantissa.length + 1))
    let accepted := do
      guard (hasFraction || hasExponent)
      let ds ← decimal? whole
      let fs ← if hasFraction then digits? 10 fraction else some []
      let es ← if hasExponent then digits? 10 exponent else some []
      let e : Int := ofDigits 10 es
      let e := if exponentNegative then -e else e
      guard (negative || !exceedsDouble (ds ++ fs) (e - fs.length))
    accepted.isSome

/-! ## Dates and times -/

/-- The number that exactly `n` digits write at the front of a text, and the text after them. -/
def fixed? (n : Nat) (t : Text) : Option (Nat × Text) := do
  guard (n ≤ t.length)
  let ds ← (t.take n).mapM (digit? 10)
  return (ofDigits 10 ds, t.drop n)

/-- The text after a character that it has to start with. -/
def after? (c : Char) : Text → Option Text
  | d :: t => if c = d then some t else none
  | [] => none

/-- The number of days of a month. -/
def daysIn (year month : Nat) : Nat :=
  if month = 2 then
    if year % 4 = 0 ∧ (year % 100 ≠ 0 ∨ year % 400 = 0) then 29 else 28
  else if month = 4 ∨ month = 6 ∨ month = 9 ∨ month = 11 then 30
  else 31

/-- The text after a date. -/
def afterDate? (t : Text) : Option Text := do
  let (year, t) ← fixed? 4 t
  let (month, t) ← fixed? 2 (← after? '-' t)
  let (day, t) ← fixed? 2 (← after? '-' t)
  guard (1 ≤ month ∧ month ≤ 12 ∧ 1 ≤ day ∧ day ≤ daysIn year month)
  return t

/-- The text after hours and minutes. -/
def afterMinutes? (t : Text) : Option Text := do
  let (hour, t) ← fixed? 2 t
  let (minute, t) ← fixed? 2 (← after? ':' t)
  guard (hour ≤ 23 ∧ minute ≤ 59)
  return t

/-- The text after a time of day with seconds, which may have a fraction. -/
def afterTime? (t : Text) : Option Text := do
  let (second, t) ← fixed? 2 (← after? ':' (← afterMinutes? t))
  guard (second ≤ 60)
  match t with
  | '.' :: c :: t' => if c.isDigit then some (t'.dropWhile Char.isDigit) else none
  | _ => some t

/-- Whether the text is an offset from universal time. -/
def isOffset : Text → Bool
  | ['Z'] | ['z'] => true
  | '+' :: t | '-' :: t => afterMinutes? t = some []
  | _ => false

/-- Whether the text is a time of day, with or without an offset. -/
def isZonedTime (t : Text) : Bool :=
  match afterTime? t with
  | some rest => rest.isEmpty || isOffset rest
  | none => false

/-- Whether the text is a date. -/
def isDate (t : Text) : Bool := afterDate? t = some []

/-- Whether a lexeme writes a date, a time, or a date and a time with a `T` between them. -/
def isDatetime (t : Text) : Bool :=
  isDate t || afterTime? t = some [] ||
    match afterDate? t with
    | some (c :: rest) => (c == 'T' || c == 't') && isZonedTime rest
    | _ => false

end ErbTags.Toml
