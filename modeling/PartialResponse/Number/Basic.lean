import PartialResponse.Number.Binary64

/-!
# PartialResponse.Number.Basic — numbers of a document

A document's number is an integer of at most 64 bits, signed or unsigned, or a
finite floating-point number. The two kinds stay apart: `1` and `1.0` differ.
-/

namespace PartialResponse

/-- A floating-point number that is not finite. -/
inductive NonFinite where
  | infinity
  | negativeInfinity
  | nan
deriving DecidableEq, Repr

/-- Such a number in words. -/
def NonFinite.text : NonFinite → String
  | infinity => "inf"
  | negativeInfinity => "-inf"
  | nan => "NaN"

/-- A floating-point number of any kind. -/
inductive Float64 where
  | finite (value : Binary64)
  | nonFinite (value : NonFinite)
deriving DecidableEq

/-- A number as documents hold it. -/
inductive Number where
  | integer (value : Int) (hfits : -0x8000000000000000 ≤ value ∧ value < 0x10000000000000000)
  | float (value : Binary64)
deriving DecidableEq

namespace Number

/-- The integer as a number, if it fits. -/
def ofInt? (value : Int) : Option Number :=
  if h : -0x8000000000000000 ≤ value ∧ value < 0x10000000000000000 then some (integer value h)
  else none

/-- The integer with a sign. -/
def ofInt64 (value : Int64) : Number :=
  integer value.toInt (by
    have h₁ := Int64.le_toInt value
    have h₂ := Int64.toInt_lt value
    omega)

/-- The integer without a sign. -/
def ofUInt64 (value : UInt64) : Number :=
  integer value.toNat (by
    have h := value.toNat_lt
    omega)

theorem ofInt64_ofInt {n : Int} (h : -0x8000000000000000 ≤ n ∧ n < 0) :
    ofInt64 (.ofInt n) = integer n (by omega) := by
  have hn : (Int64.ofInt n).toInt = n := Int64.toInt_ofInt_of_le (by omega) (by omega)
  simp only [ofInt64, hn]

theorem ofUInt64_ofNat {n : Nat} (h : n < 0x10000000000000000) :
    ofUInt64 (.ofNat n) = integer n (by omega) := by
  have hn : (UInt64.ofNat n).toNat = n := UInt64.toNat_ofNat_of_lt h
  simp only [ofUInt64, hn]

/-- Whether two numbers count as equal: of the same kind and the same value, both zeros of the
floating-point kind being one. -/
def same : Number → Number → Bool
  | integer a _, integer b _ => a == b
  | float x, float y => x.same y
  | _, _ => false

/-- The decimal text of an integer. -/
def integerText (value : Int) : List Char :=
  if value < 0 then '-' :: Text.digitText value.natAbs else Text.digitText value.natAbs

/-- The text of a number, floating-point numbers laid out by the notation. -/
def text (n : Binary64.Notation) : Number → List Char
  | integer value _ => integerText value
  | float x => x.text n

end Number

end PartialResponse
