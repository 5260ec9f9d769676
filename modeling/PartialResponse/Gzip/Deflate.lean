import PartialResponse.Gzip.Code

/-!
# PartialResponse.Gzip.Deflate — compressed data

Compressed data is a sequence of blocks. A block holds bytes as they are, or codes
of bytes and of references to earlier output; the codes are fixed or described
at its head. Writing uses stored blocks alone.
-/

namespace PartialResponse.Gzip

/-! ## Codes -/

/-- The trees of a block with codes. -/
structure BlockCodes where
  /-- The code of bytes, of the end of the block and of lengths. -/
  literals : CodeTree
  /-- The code of distances. -/
  distances : CodeTree

/-- The least value of each length code, and how many bits are added to it. -/
def lengthCodes : List (Nat × Nat) :=
  [(3, 0), (4, 0), (5, 0), (6, 0), (7, 0), (8, 0), (9, 0), (10, 0), (11, 1), (13, 1), (15, 1),
    (17, 1), (19, 2), (23, 2), (27, 2), (31, 2), (35, 3), (43, 3), (51, 3), (59, 3), (67, 4),
    (83, 4), (99, 4), (115, 4), (131, 5), (163, 5), (195, 5), (227, 5), (258, 0)]

/-- The least value of each distance code, and how many bits are added to it. -/
def distanceCodes : List (Nat × Nat) :=
  [(1, 0), (2, 0), (3, 0), (4, 0), (5, 1), (7, 1), (9, 2), (13, 2), (17, 3), (25, 3), (33, 4),
    (49, 4), (65, 5), (97, 5), (129, 6), (193, 6), (257, 7), (385, 7), (513, 8), (769, 8),
    (1025, 9), (1537, 9), (2049, 10), (3073, 10), (4097, 11), (6145, 11), (8193, 12), (12289, 12),
    (16385, 13), (24577, 13)]

/-- Reads the bits added to a code of the given table. -/
def extended (codes : List (Nat × Nat)) (code : Nat) : Reader Nat :=
  match codes[code]? with
  | none => failure
  | some (least, width) => do
    let added ← Reader.number width
    pure (least + added)

/-- The byte that stands the given distance before the end of the output. In front of the output
there are zeros. -/
def byteBack (distance : Nat) (out : Array UInt8) : UInt8 :=
  if distance ≤ out.size then out[out.size - distance]?.getD 0 else 0

/-- Appends bytes that stand the given distance before the end of the output. -/
def copyBack (distance : Nat) : Nat → Array UInt8 → Array UInt8
  | 0, out => out
  | length + 1, out => copyBack distance length (out.push (byteBack distance out))

/-- Reads symbols up to the end of a block. Every symbol takes a bit at least, so that the bits left
bound their number. -/
def readSymbols (codes : BlockCodes) : Nat → Array UInt8 → Reader (Array UInt8)
  | 0, _ => failure
  | bound + 1, out => do
    let symbol ← codes.literals.read
    if symbol < 256 then readSymbols codes bound (out.push (UInt8.ofNat symbol))
    else if symbol = 256 then pure out
    else
      let length ← extended lengthCodes (symbol - 257)
      let distance ← extended distanceCodes (← codes.distances.read)
      readSymbols codes bound (copyBack distance length out)

/-- The codes that need no description. -/
def fixedCodes? : Option BlockCodes := do
  let literals ← CodeTree.ofLengths?
    (.replicate 144 8 ++ .replicate 112 9 ++ .replicate 24 7 ++ .replicate 8 8)
  let distances ← CodeTree.ofLengths? (.replicate 32 5)
  pure ⟨literals, distances⟩

/-! ## Described codes -/

/-- The order in which the lengths of the codes of lengths are stored. -/
def lengthOrder : List Nat :=
  [16, 17, 18, 0, 8, 7, 9, 6, 10, 5, 11, 4, 12, 3, 13, 2, 14, 1, 15]

/-- Reads what a symbol of the lengths' code stands for, behind the given lengths. -/
def readRun (symbol : Nat) (before : List Nat) : Reader (List Nat) := do
  if symbol < 16 then pure [symbol]
  else if symbol = 16 then
    match before.getLast? with
    | none => failure
    | some length => pure (.replicate (3 + (← Reader.number 2)) length)
  else if symbol = 17 then pure (.replicate (3 + (← Reader.number 3)) 0)
  else pure (.replicate (11 + (← Reader.number 7)) 0)

/-- Reads as many lengths as given, behind those before them. Every run has a length at least, so
that their number bounds the number of runs. -/
def readLengths (tree : CodeTree) (count : Nat) : Nat → List Nat → Reader (List Nat)
  | 0, before => if before.length = count then pure before else failure
  | bound + 1, before =>
    if count ≤ before.length then
      if before.length = count then pure before else failure
    else do
      let symbol ← tree.read
      let run ← readRun symbol before
      readLengths tree count bound (before ++ run)

/-- Reads the description of codes. -/
def readCodes : Reader BlockCodes := do
  let literalCount := 257 + (← Reader.number 5)
  let distanceCount := 1 + (← Reader.number 5)
  let lengthCount := 4 + (← Reader.number 4)
  if 286 < literalCount ∨ 30 < distanceCount then failure
  else
    let stored ← (List.replicate lengthCount 3).mapM Reader.number
    let table := lengthOrder.zip stored
    let tree ← CodeTree.ofLengths? ((List.range 19).map fun n => (table.lookup n).getD 0)
    let count := literalCount + distanceCount
    let lengths ← readLengths tree count count []
    let literals ← CodeTree.ofFewLengths? (lengths.take literalCount)
    let distances ← CodeTree.ofFewLengths? (lengths.drop literalCount)
    pure ⟨literals, distances⟩

/-! ## Blocks -/

/-- Reads a block that holds bytes as they are: their number, its complement and the bytes. -/
def readStored (out : Array UInt8) : Reader (Array UInt8) := do
  let count := ofLittleEndian (← Reader.wholeBytes 2)
  let complement := ofLittleEndian (← Reader.wholeBytes 2)
  if count + complement = 0xFFFF then
    let bytes ← Reader.wholeBytes count
    pure (out ++ bytes)
  else failure

/-- Reads a block with codes. -/
def readCoded (codes : BlockCodes) (out : Array UInt8) : Reader (Array UInt8) := do
  let bits ← get
  readSymbols codes bits.size out

/-- Reads blocks up to the last one. Every block takes a bit at least, so that the bits left bound
their number. -/
def readBlocks : Nat → Array UInt8 → Reader (Array UInt8)
  | 0, _ => failure
  | bound + 1, out => do
    let isLast ← Reader.bit
    let out ←
      match ← Reader.number 2 with
      | 0 => readStored out
      | 1 => readCoded (← fixedCodes?) out
      | 2 => readCoded (← readCodes) out
      | _ => failure
    if isLast then pure out else readBlocks bound out

/-- The bytes that compressed data holds, and the bytes behind it. -/
def inflate? (bytes : List UInt8) : Option (List UInt8 × List UInt8) :=
  (readBlocks (8 * bytes.length) #[] ⟨[], bytes⟩).map fun (out, bits) => (out.toList, bits.bytes)

/-! ## Writing -/

/-- How many bytes a stored block holds at most. -/
def storedLimit : Nat := 0xFFFF

/-- A stored block. -/
def storedBlock (isLast : Bool) (bytes : List UInt8) : List UInt8 :=
  (if isLast then 1 else 0) ::
    (littleEndian 2 bytes.length ++ littleEndian 2 (0xFFFF - bytes.length) ++ bytes)

/-- Compressed data that holds the given bytes. -/
def deflate (bytes : List UInt8) : List UInt8 :=
  if bytes.length ≤ storedLimit then storedBlock true bytes
  else storedBlock false (bytes.take storedLimit) ++ deflate (bytes.drop storedLimit)
termination_by bytes.length
decreasing_by
  simp only [List.length_drop, storedLimit] at *
  omega

end PartialResponse.Gzip
