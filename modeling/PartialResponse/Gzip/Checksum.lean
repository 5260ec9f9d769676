/-!
# PartialResponse.Gzip.Checksum — the checksum of compressed files

The remainder of a sequence of bytes, read as a polynomial over the field of two
elements with the low bit first, by a polynomial of degree 32.
-/

namespace PartialResponse.Gzip

/-- The remainder moved on by one bit. -/
def shiftBit (c : UInt32) : UInt32 :=
  if c &&& 1 = 1 then (c >>> 1) ^^^ 0xEDB88320 else c >>> 1

/-- The remainder moved on by as many bits. -/
def shiftBits : Nat → UInt32 → UInt32
  | 0, c => c
  | n + 1, c => shiftBits n (shiftBit c)

/-- The remainder behind one more byte. -/
def checksumByte (c : UInt32) (b : UInt8) : UInt32 :=
  shiftBits 8 (c ^^^ b.toUInt32)

/-- The checksum of bytes. All bits are inverted before and after. -/
def checksum (bytes : List UInt8) : UInt32 :=
  bytes.foldl checksumByte 0xFFFFFFFF ^^^ 0xFFFFFFFF

end PartialResponse.Gzip
