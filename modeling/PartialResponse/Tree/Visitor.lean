import PartialResponse.Tree.Basic

/-!
# PartialResponse.Tree.Visitor — making values of what a reader comes upon

A reader tells a visitor what it comes upon in a text or in a value of another kind,
part by part, and the visitor makes something of it. Readers tell integers with a sign
from integers without, and they come upon floating-point numbers that are not finite,
for which a visitor may have no place.
-/

namespace PartialResponse

/-- What a visitor has no place for. -/
inductive VisitError where
  | nonFinite (value : NonFinite)
deriving DecidableEq, Repr

/-- The message about it. -/
def VisitError.message : VisitError → String
  | nonFinite value => "non-finite number " ++ value.text ++ " is not supported"

/-- What is made of each thing that a reader comes upon. -/
structure Visitor (α : Type) where
  /-- Nothing, or no value. -/
  unit : α
  bool (value : Bool) : α
  /-- An integer with a sign. -/
  signed (value : Int64) : α
  /-- An integer without a sign. -/
  unsigned (value : UInt64) : α
  float (value : Float64) : Except VisitError α
  string (value : String) : α
  /-- All items of an array. -/
  array (items : List α) : α
  /-- One more property of an object, behind those that have been visited. -/
  insert (visited : Properties α) (name : String) (value : α) : Properties α
  /-- An object, when all its properties have been visited. -/
  object (properties : Properties α) : α

namespace Visitor

variable {α : Type} (visitor : Visitor α)

/-- What is made of a number. Only negative integers come with a sign. -/
def number : Number → Except VisitError α
  | .integer value _ =>
    .ok (if value < 0 then visitor.signed (.ofInt value)
      else visitor.unsigned (.ofNat value.toNat))
  | .float value => visitor.float (.finite value)

/-- A visitor that tells numbers only by their kind and value makes one thing of each, whether it comes
with a sign or without. -/
theorem number_eq (make : Number → α) (hsigned : ∀ x, visitor.signed x = make (.ofInt64 x))
    (hunsigned : ∀ x, visitor.unsigned x = make (.ofUInt64 x))
    (hfloat : ∀ x, visitor.float (.finite x) = .ok (make (.float x))) (n : Number) :
    visitor.number n = .ok (make n) := by
  cases n with
  | integer n hfits =>
    rw [number]
    split
    case isTrue hneg => rw [hsigned, Number.ofInt64_ofInt ⟨hfits.1, hneg⟩]
    case isFalse hpos =>
      have hn : (n.toNat : Int) = n := Int.toNat_of_nonneg (by omega)
      rw [hunsigned, Number.ofUInt64_ofNat (by omega)]
      simp only [hn]
  | float x => exact hfloat x

/-- What is made of a scalar. -/
def scalar : Scalar → Except VisitError α
  | .null => .ok visitor.unit
  | .bool value => .ok (visitor.bool value)
  | .number value => visitor.number value
  | .string value => .ok (visitor.string value)

end Visitor

namespace Tree

/-- The tree of a floating-point number. One that is not finite is refused. -/
def visitFloat : Float64 → Except VisitError Tree
  | .finite value => .ok (scalar (.number (.float value)))
  | .nonFinite value => .error (.nonFinite value)

/-- Documents are made by this visitor. A name that has been visited before takes the new value in the
old place. -/
def visitor : Visitor Tree where
  unit := null
  bool := ofBool
  signed := ofInt64
  unsigned value := scalar (.number (.ofUInt64 value))
  float := visitFloat
  string := ofString
  array := array
  insert := Properties.set
  object := object

@[simp]
theorem visitor_array (items : List Tree) : visitor.array items = array items := rfl

@[simp]
theorem visitor_insert (visited : Properties Tree) (name : String) (value : Tree) :
    visitor.insert visited name value = visited.set name value := rfl

@[simp]
theorem visitor_object (properties : Properties Tree) :
    visitor.object properties = object properties := rfl

/-- A scalar of a document has a place in a document, and it is visited as itself. -/
@[simp]
theorem visitor_scalar (value : Scalar) : visitor.scalar value = .ok (scalar value) := by
  cases value with
  | number n =>
    exact visitor.number_eq (fun n => scalar (.number n)) (fun _ => rfl) (fun _ => rfl) (fun _ => rfl) n
  | _ => rfl

end Tree

end PartialResponse
