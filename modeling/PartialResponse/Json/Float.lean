import PartialResponse.Number.Binary64

/-!
# PartialResponse.Json.Float — how JSON text comes to floating-point numbers

A number is read digit by digit into an integer of 64 bits. Digits for which there is
no room count by their place only. What has been read is then multiplied with a power
of ten, or divided by one, and each of the three steps is rounded. So a number is not
always read as the nearest floating-point number: `51.248178375505404` comes out as
`51.24817837550541`.
-/

namespace PartialResponse.Json

/-- The greatest integer that digits are read into. -/
def maxSignificand : Nat := 0xFFFFFFFFFFFFFFFF

/-- Reads digits behind those that make up the significand, as long as there is room, and gives the
digits that are left. -/
def takeDigits (significand : Nat) : List Char → Nat × List Char
  | [] => (significand, [])
  | c :: rest =>
    let longer := significand * 10 + (c.toNat - 48)
    if maxSignificand < longer then (significand, c :: rest) else takeDigits longer rest

/-- The greatest power of ten among the magnitudes, as an exponent. -/
def maxPower : Nat := 308

/-- The rank of the magnitude nearest to a power of ten. -/
def powerRank (exponent : Nat) : Nat :=
  Binary64.rankOfNat (Nat.pow 10 exponent)

/-- Divides by the greatest power of ten so many times, or until nothing is left. -/
def lower : Nat → Nat → Nat
  | 0, rank => rank
  | rounds + 1, rank =>
    if rank = 0 then 0 else lower rounds (Binary64.quotient rank (powerRank maxPower))

/-- The number that `significand * 10 ^ exponent` comes to, if it is not too large. -/
def scale? (negative : Bool) (significand : Nat) (exponent : Int) : Option Binary64 :=
  let rank := Binary64.rankOfNat significand
  match exponent with
  | .ofNat e =>
    if e ≤ maxPower then Binary64.ofRank? negative (Binary64.product rank (powerRank e))
    else if rank = 0 then Binary64.ofRank? negative 0
    else none
  | .negSucc e =>
    -- the divisor is `10 ^ (e + 1)`, of which `rounds` steps are taken by the greatest power
    let rounds := e / maxPower
    Binary64.ofRank? negative
      (Binary64.quotient (lower rounds rank) (powerRank (e + 1 - rounds * maxPower)))

/-- The greatest exponent that is looked at. -/
def maxExponent : Nat := 0x7FFFFFFF

/-- The number with a significand, the place of its last digit, and an exponent if one is written. An
exponent that is too great for an integer of 32 bits is not counted any more: what it leaves is
nothing, or too large. -/
def ofParts? (negative : Bool) (significand : Nat) (place : Int) : Option Int → Option Binary64
  | none => scale? negative significand place
  | some exponent =>
    if exponent.natAbs ≤ maxExponent then scale? negative significand (place + exponent)
    else if 0 < exponent ∧ significand ≠ 0 then none
    else Binary64.ofRank? negative 0

end PartialResponse.Json
