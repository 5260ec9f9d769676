import PartialResponse.Gzip.Bits

/-!
# PartialResponse.Gzip.Code — codes of symbols

A symbol is coded by a path through a binary tree. Only the lengths of the codes
are stored. At each depth the symbols of that code length stand before the
subtrees that go on, and the symbols stand in ascending order; this determines
the tree.
-/

namespace PartialResponse.Gzip

/-- A tree of codes. -/
inductive CodeTree where
  /-- No symbol has a code that leads here. -/
  | missing
  | symbol (n : Nat)
  | branch (zero one : CodeTree)
deriving DecidableEq, Repr

namespace CodeTree

/-- Reads the code of a symbol. -/
def read : CodeTree → Reader Nat
  | missing => failure
  | symbol n => pure n
  | branch zero one => do
    if ← Reader.bit then one.read else zero.read

/-! ## The tree of code lengths -/

/-- The greatest length of a code. -/
def maxLength : Nat := 15

/-- The symbols whose codes have the given length. The first symbol is 0. -/
def symbolsOf (lengths : List Nat) (length : Nat) : List CodeTree :=
  (lengths.zipIdx.filter (·.1 = length)).map (symbol ·.2)

/-- The trees one level up. -/
def pairs : List CodeTree → List CodeTree
  | [] => []
  | [zero] => [branch zero missing]
  | zero :: one :: rest => branch zero one :: pairs rest

/-- The trees at a depth that lies so much above the greatest one. -/
def forest (lengths : List Nat) : Nat → List CodeTree
  | 0 => symbolsOf lengths maxLength
  | n + 1 => symbolsOf lengths (maxLength - (n + 1)) ++ pairs (forest lengths n)

/-- How many codes of the greatest length there are room for. -/
def capacity : Nat := Nat.pow 2 maxLength

/-- How much of that room codes with the given lengths take. -/
def load (lengths : List Nat) : Nat :=
  (lengths.filter (0 < ·)).foldr (fun length total => Nat.pow 2 (maxLength - length) + total) 0

/-- The tree for the lengths of the codes of the symbols 0, 1, 2 and so on; the length is 0 for a
symbol that does not occur. The codes have to fill the tree. -/
def ofLengths? (lengths : List Nat) : Option CodeTree :=
  if load lengths = capacity then
    (pairs (forest lengths (maxLength - 1))).head?
  else none

/-- The tree for lengths of codes, where no symbol at all and a single one with a code of one bit are
also possible. -/
def ofFewLengths? (lengths : List Nat) : Option CodeTree :=
  match lengths.filter (0 < ·) with
  | [] => some missing
  | [1] => some ((pairs (forest lengths (maxLength - 1))).headD missing)
  | _ => ofLengths? lengths

end CodeTree

end PartialResponse.Gzip
