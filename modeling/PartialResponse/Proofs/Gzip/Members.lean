import Mathlib.Data.List.Forall2
import PartialResponse.Proofs.Gzip.Stored

/-!
# PartialResponse.Proofs.Gzip.Members — files of several members

Compressed files can be put one behind the other, and what results is a compressed file
again, with as many members. No reader looks further than it has to: with more bytes
behind them, the bytes that it reads give the same, and the others are left
(`Reader.Extends`). This goes from the single bit up to the blocks, of which more may be
read the more bytes there are, so the relation is between two readers. Hence the bytes
that a file decompresses to are those of its first member (`decompress?_flatten`).
-/

namespace PartialResponse.Gzip

variable {α β : Type}

/-- Compressed data with more bytes behind it. -/
def Bits.append (bits : Bits) (more : List UInt8) : Bits :=
  ⟨bits.started, bits.bytes ++ more⟩

theorem Bits.size_le_append (bits : Bits) (more : List UInt8) : bits.size ≤ (bits.append more).size := by
  simp only [Bits.size, Bits.append, List.length_append]
  omega

namespace Reader

/-- With more bytes behind, the second reader reads what the first one reads without them, and leaves
these bytes. -/
def Extends (short long : Reader α) : Prop :=
  ∀ bits a rest more, short bits = some (a, rest) → long (bits.append more) = some (a, rest.append more)

/-! ## How readers are put together -/

theorem bind_apply (first : Reader α) (next : α → Reader β) (bits : Bits) :
    (first >>= next) bits = (first bits).bind fun (a, rest) => next a rest :=
  rfl

/-- A reader that reads nothing has nothing to keep. -/
theorem extends_failure (long : Reader α) : Extends failure long := by
  intro bits a rest more h
  cases h

theorem extends_pure (a : α) : Extends (pure a) (pure a) := by
  intro bits b rest more h
  obtain ⟨rfl, rfl⟩ := Prod.mk.inj (Option.some.inj h)
  rfl

/-- An answer that is there without reading. -/
theorem extends_lift (answer : Option α) : Extends (liftM answer) (liftM answer) := by
  cases answer with
  | none => exact extends_failure _
  | some a => exact extends_pure a

/-- Reading one thing and then another: the bytes the first leaves are those the second reads. -/
theorem Extends.bind {first first' : Reader α} {next next' : α → Reader β} (hfirst : Extends first first')
    (hnext : ∀ a, Extends (next a) (next' a)) : Extends (first >>= next) (first' >>= next') := by
  intro bits b rest more h
  rw [bind_apply] at h ⊢
  obtain ⟨⟨a, between⟩, ha, hb⟩ := Option.bind_eq_some_iff.1 h
  rw [hfirst bits a between more ha]
  exact hnext a between b rest more hb

/-- Reading a thing for each element of a list. -/
theorem Extends.mapM {read : β → Reader α} (h : ∀ b, Extends (read b) (read b)) (bs : List β) :
    Extends (bs.mapM read) (bs.mapM read) := by
  induction bs with
  | nil => exact extends_pure []
  | cons b bs ih =>
    rw [List.mapM_cons]
    refine (h b).bind fun a => ih.bind fun as => ?_
    exact extends_pure (a :: as)

/-! ## Bits and bytes -/

/-- A bit of a byte that is started, or of the next one. -/
theorem extends_bit : Extends bit bit := by
  intro bits a rest more h
  -- with no bit left nothing is read; otherwise the bit comes from what is started, or from the
  -- first byte
  rcases bits with ⟨_ | ⟨b, started⟩, _ | ⟨byte, bytes⟩⟩
  · cases h
  all_goals
    obtain ⟨rfl, rfl⟩ := Prod.mk.inj (Option.some.inj h)
    rfl

/-- A number of some bits, the lowest first. -/
theorem extends_number (n : Nat) : Extends (number n) (number n) := by
  induction n with
  | zero => exact extends_pure 0
  | succ n ih =>
    refine extends_bit.bind fun low => ih.bind fun high => ?_
    exact extends_pure (low.toNat + 2 * high)

/-- Whole bytes, if there are so many. -/
theorem extends_wholeBytes (n : Nat) : Extends (wholeBytes n) (wholeBytes n) := by
  intro bits a rest more h
  rw [wholeBytes] at h
  split at h
  · next henough =>
    obtain ⟨rfl, rfl⟩ := Prod.mk.inj (Option.some.inj h)
    have henough' : n ≤ (bits.bytes ++ more).length := by
      rw [List.length_append]
      omega
    rw [wholeBytes, Bits.append, if_pos henough', List.take_append_of_le_length henough,
      List.drop_append_of_le_length henough, Bits.append]
  · cases h

end Reader

open Reader

/-! ## Blocks -/

/-- A symbol, by its code: the reading goes down the tree. -/
theorem CodeTree.extends_read (tree : CodeTree) : Extends tree.read tree.read := by
  induction tree with
  | missing => exact extends_failure _
  | symbol n => exact extends_pure n
  | branch zero one hzero hone =>
    refine extends_bit.bind fun b => ?_
    cases b with
    | true => exact hone
    | false => exact hzero

/-- A length or a distance, with the bits that are added to it. -/
theorem extends_extended (codes : List (Nat × Nat)) (code : Nat) :
    Extends (extended codes code) (extended codes code) := by
  unfold extended
  split
  · exact extends_failure _
  · next least width _ => exact (extends_number width).bind fun added => extends_pure (least + added)

/-- A block is read with more room for its symbols as well. -/
theorem extends_readSymbols (codes : BlockCodes) {bound bound' : Nat} (hbound : bound ≤ bound')
    (out : Array UInt8) : Extends (readSymbols codes bound out) (readSymbols codes bound' out) := by
  -- the second reader has at least as many rounds left, whatever has been read
  induction bound generalizing bound' out with
  | zero => exact extends_failure _
  | succ bound ih =>
    obtain ⟨bound', rfl⟩ := Nat.exists_eq_add_of_le' (Nat.lt_of_lt_of_le (Nat.succ_pos bound) hbound)
    have hless : bound ≤ bound' := by omega
    rw [readSymbols, readSymbols]
    refine codes.literals.extends_read.bind fun symbol => ?_
    split_ifs
    · exact ih hless _
    · exact extends_pure out
    · refine (extends_extended _ _).bind fun length => ?_
      refine codes.distances.extends_read.bind fun code => (extends_extended _ _).bind fun distance => ?_
      exact ih hless _

/-- A run of lengths. -/
theorem extends_readRun (symbol : Nat) (before : List Nat) :
    Extends (readRun symbol before) (readRun symbol before) := by
  unfold readRun
  split_ifs
  · exact extends_pure _
  · split
    · exact extends_failure _
    · exact (extends_number 2).bind fun n => extends_pure _
  · exact (extends_number 3).bind fun n => extends_pure _
  · exact (extends_number 7).bind fun n => extends_pure _

/-- The lengths of codes, run by run. Their number bounds the runs, not the bytes. -/
theorem extends_readLengths (tree : CodeTree) (count bound : Nat) (before : List Nat) :
    Extends (readLengths tree count bound before) (readLengths tree count bound before) := by
  induction bound generalizing before with
  | zero =>
    rw [readLengths]
    split_ifs
    · exact extends_pure before
    · exact extends_failure _
  | succ bound ih =>
    rw [readLengths]
    split_ifs
    · exact extends_pure before
    · exact extends_failure _
    · refine tree.extends_read.bind fun symbol => ?_
      exact (extends_readRun symbol before).bind fun run => ih _

/-- The codes that a block brings with it. -/
theorem extends_readCodes : Extends readCodes readCodes := by
  unfold readCodes
  refine (extends_number 5).bind fun literals => (extends_number 5).bind fun distances => ?_
  refine (extends_number 4).bind fun lengths => ?_
  dsimp only
  split_ifs
  · exact extends_failure _
  · refine (Extends.mapM extends_number _).bind fun stored => (extends_lift _).bind fun tree => ?_
    refine (extends_readLengths tree _ _ []).bind fun lengths => ?_
    refine (extends_lift _).bind fun literals => (extends_lift _).bind fun distances => ?_
    exact extends_pure _

/-- A block that stores its bytes as they are. -/
theorem extends_readStored (out : Array UInt8) : Extends (readStored out) (readStored out) := by
  unfold readStored
  refine (extends_wholeBytes 2).bind fun count => (extends_wholeBytes 2).bind fun complement => ?_
  dsimp only
  split_ifs
  · exact (extends_wholeBytes _).bind fun bytes => extends_pure _
  · exact extends_failure _

/-- What bounds the number of symbols is the number of bits, which has grown. -/
theorem extends_readCoded (codes : BlockCodes) (out : Array UInt8) :
    Extends (readCoded codes out) (readCoded codes out) := by
  intro bits a rest more
  exact extends_readSymbols codes (bits.size_le_append more) out bits a rest more

/-- Reads a block of the kind with the given number. -/
def readBlock (kind : Nat) (out : Array UInt8) : Reader (Array UInt8) :=
  match kind with
  | 0 => readStored out
  | 1 => do readCoded (← fixedCodes?) out
  | 2 => do readCoded (← readCodes) out
  | _ => failure

/-- The reading of blocks, with the kinds of blocks under one name. -/
theorem readBlocks_succ (bound : Nat) (out : Array UInt8) :
    readBlocks (bound + 1) out = (do
      let isLast ← bit
      let kind ← number 2
      let out ← readBlock kind out
      if isLast then pure out else readBlocks bound out) := by
  rw [readBlocks]
  congr
  funext isLast
  congr
  funext kind
  rcases kind with _ | _ | _ | kind
  · cases isLast <;> rfl
  · cases isLast <;> simp [readBlock]
  · cases isLast <;> simp [readBlock]
  · cases isLast <;> rfl

/-- A block of any kind. -/
theorem extends_readBlock (kind : Nat) (out : Array UInt8) :
    Extends (readBlock kind out) (readBlock kind out) := by
  unfold readBlock
  split
  · exact extends_readStored out
  · exact (extends_lift _).bind fun codes => extends_readCoded codes out
  · exact extends_readCodes.bind fun codes => extends_readCoded codes out
  · exact extends_failure _

/-- Blocks are read with more room for their number as well. -/
theorem extends_readBlocks {bound bound' : Nat} (hbound : bound ≤ bound') (out : Array UInt8) :
    Extends (readBlocks bound out) (readBlocks bound' out) := by
  induction bound generalizing bound' out with
  | zero => exact extends_failure _
  | succ bound ih =>
    obtain ⟨bound', rfl⟩ := Nat.exists_eq_add_of_le' (Nat.lt_of_lt_of_le (Nat.succ_pos bound) hbound)
    have hless : bound ≤ bound' := by omega
    rw [readBlocks_succ, readBlocks_succ]
    refine extends_bit.bind fun isLast => (extends_number 2).bind fun kind => ?_
    refine (extends_readBlock kind out).bind fun out => ?_
    split_ifs
    · exact extends_pure out
    · exact ih hless out

/-- Compressed data gives the same bytes with more behind it, and leaves that. -/
theorem inflate?_append {data bytes rest : List UInt8} (h : inflate? data = some (bytes, rest))
    (more : List UInt8) : inflate? (data ++ more) = some (bytes, rest ++ more) := by
  rw [inflate?, Option.map_eq_some_iff] at h
  obtain ⟨⟨out, bits⟩, hblocks, heq⟩ := h
  obtain ⟨rfl, rfl⟩ := Prod.mk.inj heq
  -- the rounds are bounded by the number of bits
  have hbound : 8 * data.length ≤ 8 * (data ++ more).length := by
    rw [List.length_append]
    omega
  have hmore := extends_readBlocks hbound #[] ⟨[], data⟩ out bits more hblocks
  rw [Bits.append] at hmore
  rw [inflate?, hmore]
  rfl

/-! ## Headers -/

section

variable {bytes rest : List UInt8} (more : List UInt8)

/-- A text in the header, up to the byte 0. -/
theorem skipText?_append {limit : Nat} (h : skipText? limit bytes = some rest) :
    skipText? limit (bytes ++ more) = some (rest ++ more) := by
  fun_induction skipText? limit bytes with
  | case1 => cases h
  | case2 =>
    obtain rfl := Option.some.inj h
    simp [skipText?]
  | case3 => cases h
  | case4 n b bytes hb ih =>
    rw [List.cons_append, skipText?]
    · exact ih h
    · exact hb

/-- The extra field of the header. -/
theorem skipField?_append (h : skipField? bytes = some rest) :
    skipField? (bytes ++ more) = some (rest ++ more) := by
  unfold skipField? at h
  split at h
  · next a b field =>
    dsimp only at h
    split at h
    · next hsize =>
      obtain rfl := Option.some.inj h
      have hsize' : ofLittleEndian [a, b] ≤ (field ++ more).length := by
        rw [List.length_append]
        omega
      simp only [List.cons_append, skipField?, if_pos hsize', List.drop_append_of_le_length hsize]
    · cases h
  · cases h

/-- The checksum of the header. -/
theorem skipChecksum?_append {header : List UInt8} (h : skipChecksum? header bytes = some rest) :
    skipChecksum? header (bytes ++ more) = some (rest ++ more) := by
  unfold skipChecksum? at h
  split at h
  · split at h
    · next hsum =>
      obtain rfl := Option.some.inj h
      simp only [List.cons_append, skipChecksum?, if_pos hsum]
    · cases h
  · cases h

/-- A part of the header that is there or not. -/
theorem skipIf_append {present : Bool} {skip : List UInt8 → Option (List UInt8)}
    (hskip : ∀ bytes rest, skip bytes = some rest → skip (bytes ++ more) = some (rest ++ more))
    (h : skipIf present skip bytes = some rest) :
    skipIf present skip (bytes ++ more) = some (rest ++ more) := by
  cases present with
  | true => exact hskip bytes rest h
  | false =>
    obtain rfl := Option.some.inj h
    rfl

/-- What is in front of the rest does not depend on what is behind it. -/
theorem take_append_append (file rest : List UInt8) :
    (file ++ more).take ((file ++ more).length - (rest ++ more).length) =
      file.take (file.length - rest.length) := by
  have hlength : (file ++ more).length - (rest ++ more).length = file.length - rest.length := by
    rw [List.length_append, List.length_append]
    omega
  rw [hlength, List.take_append_of_le_length (Nat.sub_le _ _)]

/-- The header, with all that it may have. Its checksum is over the bytes of the header alone. -/
theorem skipHeader?_append {file data : List UInt8} (h : skipHeader? file = some data) :
    skipHeader? (file ++ more) = some (data ++ more) := by
  unfold skipHeader? at h
  split at h
  · next flags _ _ _ _ _ _ rest =>
    dsimp only at h
    split at h
    · cases h
    · next hflags =>
      obtain ⟨afterField, hfield, h⟩ := Option.bind_eq_some_iff.1 h
      obtain ⟨afterName, hname, h⟩ := Option.bind_eq_some_iff.1 h
      obtain ⟨afterComment, hcomment, h⟩ := Option.bind_eq_some_iff.1 h
      have hfield' := skipIf_append more (fun _ _ => skipField?_append more) hfield
      have hname' := skipIf_append more (fun _ _ => skipText?_append more) hname
      have hcomment' := skipIf_append more (fun _ _ => skipText?_append more) hcomment
      have hchecksum' := skipIf_append more (fun _ _ => skipChecksum?_append more) h
      -- the bytes the checksum is taken over do not change
      rw [← take_append_append more] at hchecksum'
      simp only [List.cons_append] at hchecksum' ⊢
      simp only [skipHeader?, if_neg hflags, Option.bind_eq_bind, hfield', hname', hcomment',
        Option.bind_some, hchecksum']
  · cases h

end

/-! ## Members -/

/-- A compressed file of one member, which holds the given bytes: behind the compressed data stand their
checksum and their size, and nothing more. -/
def IsMember (file bytes : List UInt8) : Prop :=
  ∃ data, skipHeader? file = some data ∧ inflate? data = some (bytes, trailer bytes)

/-- Nothing behind a member is looked at. -/
theorem decompress?_append {file bytes : List UInt8} (h : IsMember file bytes) (more : List UInt8) :
    decompress? (file ++ more) = some bytes := by
  obtain ⟨data, hheader, hdata⟩ := h
  rw [decompress?, skipHeader?_append more hheader, Option.bind_eq_bind, Option.bind_some,
    inflate?_append hdata more]
  simp

/-- A file of several members decompresses to what the first one holds, and a file of none to nothing. -/
theorem decompress?_flatten {files contents : List (List UInt8)}
    (h : List.Forall₂ IsMember files contents) : decompress? files.flatten = contents.head? := by
  cases h with
  | nil => rfl
  | cons hfirst _ => exact decompress?_append hfirst _

/-- What stores bytes as they are writes files of one member. -/
theorem isMember_stored (bytes : List UInt8) : IsMember (Compressor.stored.compress bytes) bytes :=
  ⟨deflate bytes ++ trailer bytes, skipHeader?_stored bytes, inflate?_deflate bytes (trailer bytes)⟩

end PartialResponse.Gzip
