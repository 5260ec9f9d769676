import PartialResponse.Tree.Basic

/-!
# PartialResponse.Yaml.Schema — what plain scalars stand for

A plain scalar stands for null, a truth value, an integer, a floating-point
number, or, where it is none of these, for its own text.
-/

namespace PartialResponse.Yaml

/-- How a number that is not finite is written. -/
def nonFiniteText : NonFinite → String
  | .infinity => ".inf"
  | .negativeInfinity => "-.inf"
  | .nan => ".nan"

/-- What a scalar stands for. -/
inductive Atom where
  | finite (value : Scalar)
  | nonFinite (value : NonFinite)
  /-- An integer that has no place among the numbers, although it would fit into 128 bits. -/
  | oversized
deriving DecidableEq

namespace Schema

/-- Whether a text means null. -/
def isNull (text : String) : Bool :=
  ["", "~", "null", "Null", "NULL"].contains text

/-- The truth value that a text means. -/
def bool? (text : String) : Option Bool :=
  if ["true", "True", "TRUE"].contains text then some true
  else if ["false", "False", "FALSE"].contains text then some false
  else none

/-! ## Integers -/

/-- Whether the text has only digits behind a zero, perhaps with a sign; such a text is not a
number. -/
def hasLeadingZero (text : List Char) : Bool :=
  let digits := match text with
    | '-' :: rest => rest
    | '+' :: rest => rest
    | _ => text
  match digits with
  | '0' :: rest => !rest.isEmpty && rest.all Char.isDigit
  | _ => false

/-- The natural number that a text without a sign means: decimal, or hexadecimal, octal or binary
with a mark in front. -/
def natural? (text : List Char) : Option Nat :=
  match text with
  | '0' :: 'x' :: digits => Text.number? 16 digits
  | '0' :: 'o' :: digits => Text.number? 8 digits
  | '0' :: 'b' :: digits => Text.number? 2 digits
  | _ => if hasLeadingZero text then none else Text.number? 10 text

/-- The integer that a text means. -/
def integer? (text : List Char) : Option Int :=
  match text with
  | '+' :: rest => (natural? rest).map Int.ofNat
  | '-' :: rest => (natural? rest).map fun n => -Int.ofNat n
  | _ => (natural? text).map Int.ofNat

/-! ## Floating-point numbers -/

/-- The exponent behind the digits of a number; none if something else follows. -/
def exponent? (text : List Char) : Option Int :=
  match text with
  | [] => some 0
  | mark :: rest =>
    if mark = 'e' ∨ mark = 'E' then
      match rest with
      | '-' :: digits => (Text.number? 10 digits).map fun n => -Int.ofNat n
      | '+' :: digits => (Text.number? 10 digits).map Int.ofNat
      | digits => (Text.number? 10 digits).map Int.ofNat
    else none

/-- The finite number that a text without a sign means: digits with perhaps a point among them, and
perhaps an exponent. -/
def decimal? (negative : Bool) (text : List Char) : Option Binary64 :=
  let whole := text.takeWhile Char.isDigit
  let rest := text.dropWhile Char.isDigit
  let (fraction, rest) := match rest with
    | '.' :: rest => (rest.takeWhile Char.isDigit, rest.dropWhile Char.isDigit)
    | _ => ([], rest)
  if whole.isEmpty && fraction.isEmpty then none
  else
    (exponent? rest).bind fun e =>
      Binary64.ofDecimal? negative (Text.digitValue (whole ++ fraction)) (e - fraction.length)

/-- The floating-point number that a text means. One that is too large is no number. -/
def float? (text : String) : Option Atom :=
  if [".inf", ".Inf", ".INF", "+.inf", "+.Inf", "+.INF"].contains text then
    some (.nonFinite .infinity)
  else if ["-.inf", "-.Inf", "-.INF"].contains text then some (.nonFinite .negativeInfinity)
  else if [".nan", ".NaN", ".NAN"].contains text then some (.nonFinite .nan)
  else
    let finite := match text.toList with
      | '+' :: rest => decimal? false rest
      | '-' :: rest => decimal? true rest
      | cs => decimal? false cs
    finite.map fun x => .finite (.number (.float x))

/-! ## Scalars -/

/-- The number that an integer stands for. Beyond 64 bits there is none, and beyond 128 bits it
counts as a floating-point number. -/
def integerAtom? (value : Int) : Option Atom :=
  match Number.ofInt? value with
  | some n => some (.finite (.number n))
  | none =>
    if -0x80000000000000000000000000000000 ≤ value ∧ value < 0x100000000000000000000000000000000
    then some .oversized
    else none

/-- What a plain scalar stands for. -/
def resolve (text : String) : Atom :=
  if isNull text then .finite .null
  else
    match bool? text with
    | some b => .finite (.bool b)
    | none =>
      match (integer? text.toList).bind integerAtom? with
      | some atom => atom
      | none =>
        if hasLeadingZero text.toList then .finite (.string text)
        else (float? text).getD (.finite (.string text))

end Schema

end PartialResponse.Yaml
