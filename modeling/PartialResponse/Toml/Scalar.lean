import PartialResponse.Number.Binary64
import PartialResponse.Text.Digits
import PartialResponse.Toml.Value

/-!
# PartialResponse.Toml.Scalar — numbers, truth values and points in time

A scalar without quotes is a run of characters. Single underscores may stand
between the digits of a number. A date and a time may have a space between them.
-/

namespace PartialResponse.Toml

/-- The characters of scalars without quotes. -/
def isScalarChar (c : Char) : Bool :=
  c.isAlphanum || c == '+' || c == '-' || c == '.' || c == '_' || c == ':'

/-! ## Numbers -/

/-- The digits of a number, without the underscores between them. -/
def digits? (isDigit : Char → Bool) (text : List Char) : Option (List Char) :=
  let groups := text.splitOn '_'
  if groups.all fun group => !group.isEmpty && group.all isDigit then some groups.flatten else none

/-- The digits of a decimal number before its point. There is no leading zero. -/
def wholeDigits? (text : List Char) : Option (List Char) :=
  (digits? Char.isDigit text).filter fun digits => digits.length = 1 || digits.head? != some '0'

/-- Whether there is a minus sign, and the text behind a sign. -/
def splitSign : List Char → Bool × List Char
  | '-' :: rest => (true, rest)
  | '+' :: rest => (false, rest)
  | text => (false, text)

/-- The greatest integer. -/
def maxInteger : Nat := 0x7FFFFFFFFFFFFFFF

/-- A decimal integer. -/
def decimalInteger? (text : List Char) : Option Int :=
  let (negative, magnitude) := splitSign text
  match wholeDigits? magnitude with
  | none => none
  | some digits =>
    let n := Text.digitValue digits
    if negative then (if n ≤ maxInteger + 1 then some (-n) else none)
    else if n ≤ maxInteger then some n else none

/-- A non-negative integer in another base. -/
def basedInteger? (base : Nat) (text : List Char) : Option Int := do
  let digits ← digits? (fun c => (Text.number? base [c]).isSome) text
  let n ← Text.number? base digits
  if n ≤ maxInteger then some n else none

/-- An integer. -/
def integer? : List Char → Option Int
  | '0' :: 'x' :: rest => basedInteger? 16 rest
  | '0' :: 'o' :: rest => basedInteger? 8 rest
  | '0' :: 'b' :: rest => basedInteger? 2 rest
  | text => decimalInteger? text

/-- The exponent that stands behind its letter. -/
def exponent? (text : List Char) : Option Int :=
  let (negative, magnitude) := splitSign text
  (digits? Char.isDigit magnitude).map fun digits =>
    let n : Int := Text.digitValue digits
    if negative then -n else n

/-- The value of the parts of a number with a fraction or an exponent: its digits, and the power of
ten that they are multiplied by. One of the two parts has to be there. -/
def decimalParts? (magnitude : List Char) : Option (Nat × Int) := do
  let base := magnitude.takeWhile fun c => c != 'e' && c != 'E'
  let exponent ←
    match magnitude.drop base.length with
    | [] => some 0
    | _ :: rest => exponent? rest
  let whole := base.takeWhile (· != '.')
  let wholeDigits ← wholeDigits? whole
  let fraction ←
    match base.drop whole.length with
    | [] => some []
    | _ :: rest => digits? Char.isDigit rest
  if whole.length = magnitude.length then none
  else some (Text.digitValue (wholeDigits ++ fraction), exponent - fraction.length)

/-- Whether a text is a number with a fraction or an exponent, or an infinite one, or none. A
positive number must not be too large. -/
def isFloat (text : List Char) : Bool :=
  let (negative, magnitude) := splitSign text
  magnitude == ['i', 'n', 'f'] || magnitude == ['n', 'a', 'n'] ||
    match decimalParts? magnitude with
    | none => false
    | some (digits, exponent) => negative || (Binary64.ofDecimal? false digits exponent).isSome

/-! ## Points in time -/

/-- The number of so many decimal digits, and the text behind them. -/
def fixedDigits? (width : Nat) (text : List Char) : Option (Nat × List Char) :=
  let digits := text.take width
  if digits.length = width && digits.all Char.isDigit then
    some (Text.digitValue digits, text.drop width)
  else none

/-- The text behind a character, which has to be the first one. -/
def skip? (c : Char) : List Char → Option (List Char)
  | [] => none
  | d :: rest => if d = c then some rest else none

/-- How many days a month has. -/
def daysIn (year month : Nat) : Nat :=
  if month = 2 then
    if year % 4 = 0 ∧ (year % 100 ≠ 0 ∨ year % 400 = 0) then 29 else 28
  else if month = 4 ∨ month = 6 ∨ month = 9 ∨ month = 11 then 30
  else 31

/-- The text behind a date. -/
def skipDate? (text : List Char) : Option (List Char) := do
  let (year, rest) ← fixedDigits? 4 text
  let (month, rest) ← fixedDigits? 2 (← skip? '-' rest)
  let (day, rest) ← fixedDigits? 2 (← skip? '-' rest)
  if 1 ≤ month ∧ month ≤ 12 ∧ 1 ≤ day ∧ day ≤ daysIn year month then some rest else none

/-- The text behind hours and minutes. -/
def skipMinutes? (text : List Char) : Option (List Char) := do
  let (hour, rest) ← fixedDigits? 2 text
  let (minute, rest) ← fixedDigits? 2 (← skip? ':' rest)
  if hour ≤ 23 ∧ minute ≤ 59 then some rest else none

/-- The text behind the fraction of a second, if there is one. -/
def skipSecondFraction : List Char → List Char
  | '.' :: rest =>
    let digits := rest.takeWhile Char.isDigit
    if digits.isEmpty then '.' :: rest else rest.drop digits.length
  | text => text

/-- The text behind a time of the day. A minute may have a leap second. -/
def skipTime? (text : List Char) : Option (List Char) := do
  let rest ← skipMinutes? text
  let (second, rest) ← fixedDigits? 2 (← skip? ':' rest)
  if second ≤ 60 then some (skipSecondFraction rest) else none

/-- Whether a text says how far the local time is ahead, or says nothing. -/
def isOffset : List Char → Bool
  | [] => true
  | ['Z'] => true
  | ['z'] => true
  | '+' :: rest => skipMinutes? rest == some []
  | '-' :: rest => skipMinutes? rest == some []
  | _ => false

/-- Whether a text is a time of the day, which may have an offset. -/
def isOffsetTime (text : List Char) : Bool :=
  (skipTime? text).any isOffset

/-- Whether a text is a date. -/
def isDate (text : List Char) : Bool :=
  skipDate? text == some []

/-- Whether a text is a point in time: a date with or without a time, or a time. -/
def isMoment (text : List Char) : Bool :=
  match skipDate? text with
  | some [] => true
  | some ('T' :: rest) => isOffsetTime rest
  | some ('t' :: rest) => isOffsetTime rest
  | some _ => false
  | none => skipTime? text == some []

/-! ## Scalars -/

/-- The scalar that a run of characters is. -/
def scalar? (text : List Char) : Option Value :=
  if text = ['t', 'r', 'u', 'e'] then some (.boolean true)
  else if text = ['f', 'a', 'l', 's', 'e'] then some (.boolean false)
  else
    match integer? text with
    | some n => some (.integer n)
    | none =>
      if isFloat text then some (.float text)
      else if isMoment text then some (.moment text)
      else none

/-- Reads a scalar without quotes. -/
def readScalar (text : List Char) : Option (Value × List Char) :=
  let run := text.takeWhile isScalarChar
  let rest := text.drop run.length
  let time := (rest.drop 1).takeWhile isScalarChar
  if isDate run && rest.head? == some ' ' && isOffsetTime time then
    some (.moment (run ++ ' ' :: time), rest.drop (1 + time.length))
  else (scalar? run).map (·, rest)

end PartialResponse.Toml
