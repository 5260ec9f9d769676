/-!
# PartialResponse.Text.Digits — digits

Decimal and hexadecimal digits and the numbers that they write.
-/

namespace PartialResponse.Text

/-- The decimal digits of a natural number. -/
def digitText (n : Nat) : List Char :=
  Nat.toDigits 10 n

/-! ## Numbers of many digits

The value of digits is found by taking them two by two as digits in the square of
the base, which keeps the numbers small for as long as there are many of them.
-/

/-- Digits two by two, as digits in the square of the base. The least significant is first. -/
def pairDigits (base : Nat) : List Nat → List Nat
  | low :: high :: rest => (low + base * high) :: pairDigits base rest
  | digits => digits

/-- The number that digits write in a base, the least significant first. The first argument bounds
how often they are taken two by two. -/
def valueWithin : Nat → Nat → List Nat → Nat
  | rounds + 1, base, low :: high :: rest =>
    valueWithin rounds (base * base) (pairDigits base (low :: high :: rest))
  | _, base, digits => digits.foldr (fun digit n => digit + base * n) 0

theorem foldr_pairDigits (base : Nat) (digits : List Nat) :
    (pairDigits base digits).foldr (fun digit n => digit + base * base * n) 0 =
      digits.foldr (fun digit n => digit + base * n) 0 := by
  fun_induction pairDigits base digits with
  | case1 low high rest ih =>
    rw [List.foldr_cons, ih]
    simp only [List.foldr_cons, Nat.mul_add, Nat.mul_assoc, Nat.add_assoc]
  | case2 digits h =>
    match digits, h with
    | [], _ => rfl
    | [_], _ => rfl
    | low :: high :: rest, h => exact absurd rfl (h low high rest)

theorem valueWithin_eq_foldr (rounds base : Nat) (digits : List Nat) :
    valueWithin rounds base digits = digits.foldr (fun digit n => digit + base * n) 0 := by
  fun_induction valueWithin rounds base digits with
  | case1 _ _ _ _ _ ih => rw [ih, foldr_pairDigits]
  | case2 => rfl

/-- The natural number that digits write in a base, the most significant first. -/
def value (base : Nat) (digits : List Nat) : Nat :=
  valueWithin 64 base digits.reverse

theorem value_eq_foldl (base : Nat) (digits : List Nat) :
    value base digits = digits.foldl (fun n digit => digit + base * n) 0 := by
  rw [value, valueWithin_eq_foldr, List.foldr_reverse]

/-- The natural number that decimal digits write, the most significant first. -/
def digitValue (digits : List Char) : Nat :=
  value 10 (digits.map (·.toNat - 48))

/-- The value of a hexadecimal digit, of either case. -/
def hexValue? (c : Char) : Option Nat :=
  let n := c.toNat
  if 48 ≤ n ∧ n ≤ 57 then some (n - 48)
  else if 65 ≤ n ∧ n ≤ 70 then some (n - 55)
  else if 97 ≤ n ∧ n ≤ 102 then some (n - 87)
  else none

/-- The natural number that hexadecimal digits write; none if another character is among them. -/
def hexNumber? (digits : List Char) : Option Nat :=
  digits.foldlM (fun n c => (hexValue? c).map (16 * n + ·)) 0

/-- The natural number that digits write in a base of at most 16; none if there are no digits, or
another character is among them. -/
def number? (base : Nat) (digits : List Char) : Option Nat :=
  if digits.isEmpty then none
  else (digits.mapM fun c => (hexValue? c).filter (· < base)).map (value base)

/-- The lower-case hexadecimal digit of a number below 16. -/
def hexDigit (n : Nat) : Char :=
  if n < 10 then Char.ofNat (48 + n) else Char.ofNat (87 + n)

/-- The upper-case hexadecimal digit of a number below 16. -/
def upperHexDigit (n : Nat) : Char :=
  if n < 10 then Char.ofNat (48 + n) else Char.ofNat (55 + n)

/-- The last `width` hexadecimal digits of a number, by the given digits. -/
def hexText (digit : Nat → Char) : Nat → Nat → List Char
  | 0, _ => []
  | width + 1, n => hexText digit width (n / 16) ++ [digit (n % 16)]

end PartialResponse.Text
