/-!
# PartialResponse.Gzip.Bits — bits of bytes

Compressed data is read bit by bit, the low bit of each byte first. Some parts of
it start at a byte; the bits before that byte are then dropped.
-/

namespace PartialResponse.Gzip

/-- What is left of compressed data. -/
structure Bits where
  /-- The bits left of a byte that has been started. -/
  started : List Bool
  /-- The bytes behind it. -/
  bytes : List UInt8

/-- Reads from compressed data, unless it ends too early or is malformed. -/
abbrev Reader := StateT Bits Option

namespace Bits

/-- How many bits are left. -/
def size (bits : Bits) : Nat :=
  bits.started.length + 8 * bits.bytes.length

/-- The first bit and what is left behind it. -/
def next? : Bits → Option (Bool × Bits)
  | ⟨bit :: started, bytes⟩ => some (bit, ⟨started, bytes⟩)
  | ⟨[], byte :: bytes⟩ =>
    some (byte.toNat.testBit 0, ⟨[1, 2, 3, 4, 5, 6, 7].map byte.toNat.testBit, bytes⟩)
  | ⟨[], []⟩ => none

end Bits

namespace Reader

/-- Reads a bit. -/
def bit : Reader Bool := Bits.next?

/-- Reads a number of so many bits, the low bit first. -/
def number : Nat → Reader Nat
  | 0 => pure 0
  | n + 1 => do
    let low ← bit
    let high ← number n
    pure (low.toNat + 2 * high)

/-- Reads so many whole bytes. The bits left of a started byte are dropped. -/
def wholeBytes (n : Nat) : Reader (List UInt8) := fun bits =>
  if n ≤ bits.bytes.length then some (bits.bytes.take n, ⟨[], bits.bytes.drop n⟩) else none

end Reader

/-! ## Numbers in bytes -/

/-- A number in so many bytes, the low byte first. -/
def littleEndian : Nat → Nat → List UInt8
  | 0, _ => []
  | width + 1, n => UInt8.ofNat n :: littleEndian width (n / 256)

/-- The number that bytes hold, the low byte first. -/
def ofLittleEndian : List UInt8 → Nat
  | [] => 0
  | b :: rest => b.toNat + 256 * ofLittleEndian rest

@[simp]
theorem length_littleEndian (width n : Nat) : (littleEndian width n).length = width := by
  induction width generalizing n with
  | zero => rfl
  | succ width ih => simp [littleEndian, ih]

theorem ofLittleEndian_littleEndian (width n : Nat) :
    ofLittleEndian (littleEndian width n) = n % Nat.pow 256 width := by
  induction width generalizing n with
  | zero => simp [littleEndian, ofLittleEndian, Nat.mod_one]
  | succ width ih =>
    rw [littleEndian, ofLittleEndian, ih]
    show _ = n % (Nat.pow 256 width * 256)
    rw [Nat.mul_comm (Nat.pow 256 width), Nat.mod_mul]
    simp

end PartialResponse.Gzip
