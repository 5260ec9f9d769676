import PartialResponse.Gzip.Checksum
import PartialResponse.Gzip.Deflate
import PartialResponse.Text.Utf8

/-!
# PartialResponse.Gzip.Member — compressed files

A compressed file is a header, compressed data, and the checksum and the size of
what it holds. Whatever stands behind that is not looked at. A file of this kind
is known by its first two bytes.
-/

namespace PartialResponse.Gzip

/-- The two bytes that every compressed file starts with. -/
def mark : List UInt8 := [0x1f, 0x8b]

/-- Whether bytes start as a compressed file does. -/
def isMarked (bytes : List UInt8) : Bool :=
  mark.isPrefixOf bytes

/-! ## The header -/

/-- What is behind a text that ends with a zero byte. It has at most 65535 bytes before it. -/
def skipText? : Nat → List UInt8 → Option (List UInt8)
  | _, [] => none
  | _, 0 :: rest => some rest
  | 0, _ => none
  | n + 1, _ :: rest => skipText? n rest

/-- What is behind a field that starts with its size. -/
def skipField? (bytes : List UInt8) : Option (List UInt8) :=
  match bytes with
  | a :: b :: rest =>
    let size := ofLittleEndian [a, b]
    if size ≤ rest.length then some (rest.drop size) else none
  | _ => none

/-- What is behind the checksum of a header, which consists of the bytes before it. -/
def skipChecksum? (header : List UInt8) (bytes : List UInt8) : Option (List UInt8) :=
  match bytes with
  | a :: b :: rest =>
    if ofLittleEndian [a, b] = (checksum header).toNat % 0x10000 then some rest else none
  | _ => none

/-- What is behind an optional part of the header. -/
def skipIf (present : Bool) (skip : List UInt8 → Option (List UInt8)) (bytes : List UInt8) :
    Option (List UInt8) :=
  if present then skip bytes else some bytes

/-- What is behind the header. Bits 1 to 4 of the flags stand for a checksum, a field, a name and a
comment; no others are known but bit 0. -/
def skipHeader? (bytes : List UInt8) : Option (List UInt8) :=
  match bytes with
  | 0x1f :: 0x8b :: 8 :: flags :: _ :: _ :: _ :: _ :: _ :: _ :: rest => do
    let flag (n : Nat) : Bool := flags.toNat.testBit n
    if flag 5 || flag 6 || flag 7 then none
    else
      let rest ← skipIf (flag 2) skipField? rest
      let rest ← skipIf (flag 3) (skipText? 0xFFFF) rest
      let rest ← skipIf (flag 4) (skipText? 0xFFFF) rest
      skipIf (flag 1) (skipChecksum? (bytes.take (bytes.length - rest.length))) rest
  | _ => none

/-! ## Files -/

/-- The checksum and the size of bytes, as they stand at the end of a file. -/
def trailer (bytes : List UInt8) : List UInt8 :=
  littleEndian 4 (checksum bytes).toNat ++ littleEndian 4 bytes.length

/-- The bytes that a compressed file holds. -/
def decompress? (file : List UInt8) : Option (List UInt8) := do
  let data ← skipHeader? file
  let (bytes, rest) ← inflate? data
  if (trailer bytes).isPrefixOf rest then some bytes else none

/-- The header of the files that are written. It has no name and no time. -/
def header : List UInt8 := [0x1f, 0x8b, 8, 0, 0, 0, 0, 0, 0, 0xff]

/-- A way to write compressed files. -/
structure Compressor where
  /-- What is written while the bytes come in. -/
  body (bytes : List UInt8) : List UInt8
  /-- What is written when all bytes are there. -/
  ending (bytes : List UInt8) : List UInt8

/-- A compressed file that holds the given bytes. -/
def Compressor.compress (compressor : Compressor) (bytes : List UInt8) : List UInt8 :=
  compressor.body bytes ++ compressor.ending bytes

/-- What has been compressed can be decompressed. -/
def Compressor.Lossless (compressor : Compressor) : Prop :=
  ∀ bytes, decompress? (compressor.compress bytes) = some bytes

/-- The way that stores all bytes as they are. -/
def Compressor.stored : Compressor where
  body bytes := header ++ deflate bytes
  ending := trailer

/-- The text that a compressed file holds. -/
def text? (file : List UInt8) : Option (List Char) :=
  (decompress? file).bind Text.Utf8.decode?

end PartialResponse.Gzip
