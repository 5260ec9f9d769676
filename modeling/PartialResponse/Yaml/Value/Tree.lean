import PartialResponse.Yaml.Value.Basic

/-!
# PartialResponse.Yaml.Value.Tree — YAML values as document trees

Document trees know less than YAML: tags are dropped, keys that are scalars
become strings, and the numbers that are not finite have no place.
-/

namespace PartialResponse.Yaml

/-- Floating-point numbers are written with the fewest digits that read back, positionally from
`10 ^ (-5)` to below `10 ^ 16`, otherwise with an exponent that has no plus sign. -/
def floatNotation : Binary64.Notation := ⟨-5, 16, false⟩

/-- What has no place in a document tree. -/
inductive Unsupported where
  | number (value : NonFinite)
  | collectionKey
deriving DecidableEq, Repr

/-- The message about it. -/
def Unsupported.message : Unsupported → String
  | number value => "Unsupported YAML number " ++ nonFiniteText value
  | collectionKey => "Unsupported YAML mapping key: only scalar keys are allowed"

namespace Value

/-- The property name that a mapping key becomes. -/
def keyText : Value → Except Unsupported String
  | scalar .null => .ok "null"
  | scalar (.bool b) => .ok (if b then "true" else "false")
  | scalar (.number n) => .ok (String.ofList (n.text floatNotation))
  | scalar (.string s) => .ok s
  | nonFinite x => .ok (nonFiniteText x)
  | tagged _ content => keyText content
  | sequence _ => .error .collectionKey
  | mapping _ => .error .collectionKey

mutual

/-- The tree that a value becomes. -/
def toTree : Value → Except Unsupported Tree
  | scalar s => .ok (.scalar s)
  | nonFinite x => .error (.number x)
  | sequence items => do .ok (.array (← itemsToTree items))
  | mapping entries => do .ok (.object (← entriesToTree [] entries))
  | tagged _ content => toTree content

/-- The items of an array. -/
def itemsToTree : List Value → Except Unsupported (List Tree)
  | [] => .ok []
  | item :: rest => do
    let first ← toTree item
    .ok (first :: (← itemsToTree rest))

/-- The properties of an object, added to those there are. -/
def entriesToTree (done : Properties Tree) :
    List (Value × Value) → Except Unsupported (Properties Tree)
  | [] => .ok done
  | (key, value) :: rest => do
    let name ← keyText key
    entriesToTree (done.set name (← toTree value)) rest

end

end Value

end PartialResponse.Yaml
