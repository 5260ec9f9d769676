import PartialResponse.Gzip.Member

/-!
# PartialResponse.Proofs.Gzip.Stored — stored bytes come back

Compressed files that store all bytes as they are decompress to these bytes: a
stored block is read as the bytes that it was made from, whatever has been read
before it, and so are all blocks together.
-/

namespace PartialResponse.Gzip

/-- What is read behind something read. -/
theorem Reader.bind_eq {α β : Type} {first : Reader α} {bits bits' : Bits} {a : α}
    (h : first bits = some (a, bits')) (next : α → Reader β) :
    (first >>= next) bits = next a bits' := by
  show (first bits).bind (fun p => next p.1 p.2) = _
  rw [h, Option.bind_some]

/-- Whole bytes are read from the next byte on. -/
theorem Reader.wholeBytes_append {n : Nat} {front : List UInt8} (h : front.length = n)
    (started : List Bool) (rest : List UInt8) :
    wholeBytes n ⟨started, front ++ rest⟩ = some (front, ⟨[], rest⟩) := by
  subst h
  simp [wholeBytes]

/-- The number of bytes in a stored block is read back. -/
theorem ofLittleEndian_two {n : Nat} (h : n ≤ 0xFFFF) : ofLittleEndian (littleEndian 2 n) = n := by
  rw [ofLittleEndian_littleEndian]
  exact Nat.mod_eq_of_lt (Nat.lt_succ_of_le h)

theorem readStored_append {bytes : List UInt8} (h : bytes.length ≤ storedLimit)
    (out : Array UInt8) (started : List Bool) (rest : List UInt8) :
    readStored out ⟨started, littleEndian 2 bytes.length ++
        littleEndian 2 (0xFFFF - bytes.length) ++ bytes ++ rest⟩ =
      some (out ++ bytes, ⟨[], rest⟩) := by
  have hsum : bytes.length + (0xFFFF - bytes.length) = 0xFFFF := Nat.add_sub_cancel' h
  simp only [List.append_assoc]
  rw [readStored, Reader.bind_eq (Reader.wholeBytes_append (length_littleEndian 2 _) _ _),
    Reader.bind_eq (Reader.wholeBytes_append (length_littleEndian 2 _) _ _),
    ofLittleEndian_two h, ofLittleEndian_two (Nat.sub_le _ _), if_pos hsum,
    Reader.bind_eq (Reader.wholeBytes_append rfl _ _)]
  rfl

/-- A stored block is read as its bytes. -/
theorem readBlocks_storedBlock {bytes : List UInt8} (h : bytes.length ≤ storedLimit) (isLast : Bool)
    (bound : Nat) (out : Array UInt8) (rest : List UInt8) :
    readBlocks (bound + 1) out ⟨[], storedBlock isLast bytes ++ rest⟩ =
      if isLast then some (out ++ bytes, ⟨[], rest⟩)
      else readBlocks bound (out ++ bytes) ⟨[], rest⟩ := by
  let behind := littleEndian 2 bytes.length ++ littleEndian 2 (0xFFFF - bytes.length) ++ bytes ++ rest
  -- of the first byte a bit says whether the block is the last one, and two say that it is stored
  have hlast : Reader.bit ⟨[], storedBlock isLast bytes ++ rest⟩ =
      some (isLast, ⟨List.replicate 7 false, behind⟩) := by
    cases isLast <;> rfl
  have hkind : Reader.number 2 ⟨List.replicate 7 false, behind⟩ =
      some (0, ⟨List.replicate 5 false, behind⟩) := rfl
  rw [readBlocks, Reader.bind_eq hlast, Reader.bind_eq hkind]
  refine (Reader.bind_eq (readStored_append h out _ rest) _).trans ?_
  cases isLast <;> rfl

/-- All blocks together are read as the bytes that they were made from. -/
theorem readBlocks_deflate (bytes : List UInt8) {bound : Nat} (h : (deflate bytes).length ≤ bound)
    (out : Array UInt8) (rest : List UInt8) :
    readBlocks bound out ⟨[], deflate bytes ++ rest⟩ = some (out ++ bytes, ⟨[], rest⟩) := by
  induction bytes using deflate.induct generalizing bound out with
  -- the last block, which is marked as such
  | case1 bytes hfits =>
    rw [deflate, if_pos hfits] at h ⊢
    cases bound with
    | zero => simp [storedBlock] at h
    | succ bound => rw [readBlocks_storedBlock hfits, if_pos rfl]
  -- a full block with others behind it
  | case2 bytes hlarge ih =>
    rw [deflate, if_neg hlarge] at h ⊢
    cases bound with
    | zero => simp [storedBlock] at h
    | succ bound =>
      have hfits : (bytes.take storedLimit).length ≤ storedLimit := List.length_take_le _ _
      have henough : (deflate (bytes.drop storedLimit)).length ≤ bound := by
        simp only [List.length_append, storedBlock, List.length_cons] at h
        omega
      have hwhole : out ++ bytes.take storedLimit ++ bytes.drop storedLimit = out ++ bytes := by
        apply Array.toList_inj.1
        simp
      rw [List.append_assoc, readBlocks_storedBlock hfits, if_neg Bool.false_ne_true, ih henough, hwhole]

@[simp]
theorem skipHeader?_stored (bytes : List UInt8) :
    skipHeader? (Compressor.stored.compress bytes) = some (deflate bytes ++ trailer bytes) := by
  rw [Compressor.compress, Compressor.stored, List.append_assoc]
  rfl

/-- Stored data is read up to its end, whatever is behind it. -/
@[simp]
theorem inflate?_deflate (bytes rest : List UInt8) :
    inflate? (deflate bytes ++ rest) = some (bytes, rest) := by
  have henough : (deflate bytes).length ≤ 8 * (deflate bytes ++ rest).length := by
    rw [List.length_append]
    omega
  rw [inflate?, readBlocks_deflate bytes henough]
  simp

/-- **What stores bytes as they are can be decompressed.** -/
theorem Compressor.lossless_stored : Compressor.stored.Lossless := by
  intro bytes
  simp [decompress?]

end PartialResponse.Gzip
