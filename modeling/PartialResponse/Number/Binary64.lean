import PartialResponse.Text.Digits

/-!
# PartialResponse.Number.Binary64 — finite binary floating-point numbers

A finite 64-bit floating-point number is a sign and a magnitude, and the finite
magnitudes are counted off in increasing order: magnitude number `r` is
`significand r * 2 ^ binade r`, in units of `2 ^ (-1074)`, the smallest positive
one. All arithmetic here is exact arithmetic on natural numbers.
-/

namespace PartialResponse

/-- How many magnitudes have the same unit, from a power of two up to the next. -/
def Binary64.perBinade : Nat := 0x10000000000000

/-- A finite floating-point number: its sign, and the rank of its magnitude among all finite
magnitudes. Zero has rank 0 and both signs. -/
structure Binary64 where
  negative : Bool
  rank : Nat
  finite : rank < 2047 * Binary64.perBinade
deriving DecidableEq

namespace Binary64

/-- How often the unit of the magnitude of the given rank is doubled. -/
def binade (rank : Nat) : Nat :=
  rank / perBinade - 1

/-- The magnitude of the given rank, in its own unit. -/
def significand (rank : Nat) : Nat :=
  rank - binade rank * perBinade

/-- The number as it compares with others: both zeros are one number. -/
def same (x y : Binary64) : Bool :=
  x.rank == y.rank && (x.negative == y.negative || x.rank == 0)

/-- The quotient `a / b` rounded to the nearest natural number, a half to the even one. -/
def roundHalfEven (a b : Nat) : Nat :=
  let q := a / b
  let r := a % b
  if 2 * r < b then q
  else if b < 2 * r then q + 1
  else q + q % 2

/-- The rank of the magnitude nearest to `a / b` units, where magnitudes are taken to go on
beyond the finite ones. -/
def nearestRank (a b : Nat) : Nat :=
  let e := (a / b).log2 - 52
  e * perBinade + roundHalfEven a (b * Nat.pow 2 e)

/-- The number of the given sign and the magnitude of the given rank, if that is finite. -/
def ofRank? (negative : Bool) (rank : Nat) : Option Binary64 :=
  if h : rank < 2047 * perBinade then some ⟨negative, rank, h⟩ else none

/-- The number of the given sign nearest to `digits * 10 ^ exponent`; there is none if that is too
large. The two tests in front only keep the powers of ten small. -/
def ofDecimal? (negative : Bool) (digits : Nat) (exponent : Int) : Option Binary64 :=
  if digits = 0 then some ⟨negative, 0, by decide⟩
  else if 400 < exponent then none
  else if exponent + digits.log2 < -400 then some ⟨negative, 0, by decide⟩
  else
    ofRank? negative
      (nearestRank (digits * Nat.pow 10 exponent.toNat * Nat.pow 2 1074)
        (Nat.pow 10 (-exponent).toNat))

/-! ## Arithmetic with magnitudes

Results are rounded, and ranks beyond the finite ones stand for what is too large. -/

/-- The magnitude of the given rank, in units. -/
def magnitude (rank : Nat) : Nat :=
  significand rank * Nat.pow 2 (binade rank)

/-- The rank of the magnitude nearest to a natural number. -/
def rankOfNat (n : Nat) : Nat :=
  nearestRank (n * Nat.pow 2 1074) 1

/-- The rank of the magnitude nearest to a product. -/
def product (rank other : Nat) : Nat :=
  nearestRank (magnitude rank * magnitude other) (Nat.pow 2 1074)

/-- The rank of the magnitude nearest to a quotient. -/
def quotient (rank other : Nat) : Nat :=
  nearestRank (magnitude rank * Nat.pow 2 1074) (magnitude other)

/-! ## The fewest digits that read back -/

/-- A decimal number `digits * 10 ^ exponent`. -/
structure Decimal where
  digits : Nat
  exponent : Int
deriving DecidableEq, Repr

/-- The ends of the interval of reals nearest to the magnitude of the given rank, and the
magnitude itself between them, in quarters of its unit. Below a power of two magnitudes lie twice
as close. -/
def roundingInterval (rank : Nat) : Nat × Nat × Nat :=
  let m := significand rank
  let below := if m = perBinade ∧ 0 < binade rank then 1 else 2
  (4 * m - below, 4 * m, 4 * m + 2)

/-- The power `10 ^ exponent` as a quotient, in quarters of the unit of the magnitude of the given
rank. -/
def powerOfTen (rank : Nat) (exponent : Int) : Nat × Nat :=
  (Nat.pow 2 (1076 - binade rank) * Nat.pow 10 exponent.toNat,
    Nat.pow 2 (binade rank - 1076) * Nat.pow 10 (-exponent).toNat)

/-- Whether a point `a / b` lies in the rounding interval; its ends belong to it if the magnitude
is even in its unit. -/
def readsBack (rank : Nat) (a b : Nat) : Bool :=
  let (low, _, high) := roundingInterval rank
  if significand rank % 2 = 0 then low * b ≤ a && a ≤ high * b else low * b < a && a < high * b

/-- The point of the grid of multiples of `10 ^ exponent` that lies in the rounding interval and
nearest to the magnitude, an even multiple if two are equally near. One of the two neighbours of
the magnitude lies in the interval if any point of the grid does. -/
def onGrid? (rank : Nat) (exponent : Int) : Option Decimal :=
  let (_, exact, _) := roundingInterval rank
  let (up, down) := powerOfTen rank exponent
  let d := exact * down / up
  let gap := 2 * (exact * down - d * up)
  let lower := readsBack rank (d * up) down
  let upper := readsBack rank ((d + 1) * up) down
  let preferUpper := up < gap || (gap == up && d % 2 == 1)
  if upper && (preferUpper || !lower) then some ⟨d + 1, exponent⟩
  else if lower then some ⟨d, exponent⟩
  else none

/-- An exponent that is greater than the decimal logarithm of the magnitude of the given rank, by at
most 2. The quotient is a little above the logarithm of 2. -/
def greatestExponent (rank : Nat) : Int :=
  ((Int.ofNat (binade rank + (significand rank).log2) - 1073) * 30103).fdiv 100000 + 1

/-- The decimal number with the fewest digits that reads back as the magnitude of the given rank,
and of those the nearest: the point on the coarsest decimal grid that has one. At most 17 digits
are needed. -/
def shortest (rank : Nat) : Decimal :=
  ((List.range 21).findSome? fun (i : Nat) =>
    onGrid? rank (greatestExponent rank - Int.ofNat i)).getD ⟨0, 0⟩

/-! ## Writing -/

/-- How a floating-point number is laid out. Numbers whose leading digit has an exponent from
`plainFrom` to below `plainBelow` are written with a decimal point at its place, others with an
exponent. -/
structure Notation where
  plainFrom : Int
  plainBelow : Int
  /-- Whether an exponent that is not negative has a plus sign. -/
  exponentPlus : Bool

/-- The text of an exponent. -/
def Notation.exponentText (n : Notation) (e : Int) : List Char :=
  if e < 0 then 'e' :: '-' :: Text.digitText e.natAbs
  else if n.exponentPlus then 'e' :: '+' :: Text.digitText e.natAbs
  else 'e' :: Text.digitText e.natAbs

/-- The text of a positive decimal number. A number without a fraction gets `.0` where no exponent
marks it. -/
def Notation.decimalText (n : Notation) (d : Decimal) : List Char :=
  let digits := Text.digitText d.digits
  let point := digits.length + d.exponent
  let lead := point - 1
  if n.plainFrom ≤ lead ∧ lead < n.plainBelow then
    if 0 ≤ d.exponent then digits ++ List.replicate d.exponent.toNat '0' ++ ['.', '0']
    else if 0 < point then digits.take point.toNat ++ '.' :: digits.drop point.toNat
    else '0' :: '.' :: List.replicate (-point).toNat '0' ++ digits
  else
    match digits with
    | [digit] => digit :: n.exponentText lead
    | digit :: more => digit :: '.' :: more ++ n.exponentText lead
    | [] => []

/-- The text of a number: the fewest digits that read back, laid out. -/
def text (n : Notation) (x : Binary64) : List Char :=
  let sign := if x.negative then ['-'] else []
  if x.rank = 0 then sign ++ ['0', '.', '0'] else sign ++ n.decimalText (shortest x.rank)

end Binary64

end PartialResponse
