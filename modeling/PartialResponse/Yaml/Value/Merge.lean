import PartialResponse.Yaml.Value.Basic

/-!
# PartialResponse.Yaml.Value.Merge — merge keys

A mapping that has the key `<<` takes over the entries of the mapping it names
there, or of several mappings, as far as it does not have their keys itself. The
key itself goes, and the last entry of the mapping moves into its place. Entries
that are taken over come at the end.

Each mapping is looked at once, from the outside to the inside.
-/

namespace PartialResponse.Yaml.Value

/-- The key that names mappings to take entries from. -/
def mergeKey : Value := ofString "<<"

/-- The entries with the last one moved to the front. -/
def lastFirst (entries : List (Value × Value)) : List (Value × Value) :=
  match entries.getLast? with
  | some last => last :: entries.dropLast
  | none => []

/-- Takes out the merge key, with what it names. -/
def takeMergeKey? : List (Value × Value) → Option (Value × List (Value × Value))
  | [] => none
  | (key, value) :: rest =>
    if key.same mergeKey then some (value, lastFirst rest)
    else (takeMergeKey? rest).map fun (source, rest) => (source, (key, value) :: rest)

/-- The entries of a mapping. -/
def entries? : Value → Option (List (Value × Value))
  | mapping entries => some entries
  | _ => none

/-- The entries that a merge key may name: those of a mapping, or of several. -/
def mergeSource? : Value → Option (List (Value × Value))
  | mapping entries => some entries
  | sequence items => List.flatten <$> items.mapM entries?
  | _ => none

/-- Adds an entry unless its key is there already. -/
def addMissing (entries : List (Value × Value)) (entry : Value × Value) : List (Value × Value) :=
  if hasKey entry.1 entries then entries else entries ++ [entry]

/-- The entries of a mapping once its merge key is followed. -/
def mergeEntries? (entries : List (Value × Value)) : Option (List (Value × Value)) :=
  match takeMergeKey? entries with
  | none => some entries
  | some (source, rest) => (mergeSource? source).map (·.foldl addMissing rest)

/-- Follows the merge keys of a value inside which collections and tags are nested at most `depth`
times. -/
def mergeWithin? : Nat → Value → Option Value
  | depth + 1, mapping entries => do
    let entries ← mergeEntries? entries
    return mapping (← entries.mapM fun (key, value) => return (key, ← mergeWithin? depth value))
  | depth + 1, sequence items => sequence <$> items.mapM (mergeWithin? depth)
  | depth + 1, tagged tag content => tagged tag <$> mergeWithin? depth content
  | _, value => some value

mutual

/-- How many collections and tags lie around the innermost value. -/
def depth : Value → Nat
  | scalar _ => 0
  | nonFinite _ => 0
  | sequence items => depthItems items + 1
  | mapping entries => depthEntries entries + 1
  | tagged _ content => depth content + 1

/-- The greatest depth of an item. -/
def depthItems : List Value → Nat
  | [] => 0
  | item :: rest => max (depth item) (depthItems rest)

/-- The greatest depth of a value among entries. -/
def depthEntries : List (Value × Value) → Nat
  | [] => 0
  | (_, value) :: rest => max (depth value) (depthEntries rest)

end

/-- The value with its merge keys followed; there is none if a merge key names something else than
mappings. Merge keys inside mapping keys are left alone. -/
def merged? (value : Value) : Option Value :=
  mergeWithin? value.depth value

end PartialResponse.Yaml.Value
