import PartialResponse.Tree.Properties

/-!
# PartialResponse.Toml.Value — tables and their entries

A table is filled by assignments, whose keys may go through several tables, and
by headers, which open a table for the assignments behind them. Tables that are
gone through are made if there are none. How a table came to be decides who may
add to it: no table is defined twice.
-/

namespace PartialResponse.Toml

/-- How a table came to be. -/
inductive Origin where
  /-- It has a header of its own. -/
  | header
  /-- A header goes through it. -/
  | implied
  /-- The key of an assignment goes through it. -/
  | dotted
  /-- It is written as a value, and closed. -/
  | braces
deriving DecidableEq, Repr

/-- A value. Numbers with a fraction and points in time are kept as they are written. -/
inductive Value where
  | string (text : List Char)
  | integer (n : Int)
  | float (text : List Char)
  | boolean (b : Bool)
  | moment (text : List Char)
  | array (items : List Value)
  | table (origin : Origin) (entries : List (String × Value))
  /-- Tables with the same header, of which the last one is being filled. -/
  | tables (earlier : List (List (String × Value))) (last : List (String × Value))

/-- The entries of a table. No key occurs twice. -/
abbrev Entries := Properties Value

namespace Entries

/-- Changes the table that a path leads to from a table. What the change is given is how that table
came to be, and its entries. Tables on the way are made if there are none. The path of a key, as
against that of a header, does not enter a table that has a header. -/
def edit? (isKey : Bool) (change : Origin → Entries → Option (Origin × Entries)) :
    List String → Origin → Entries → Option (Origin × Entries)
  | [], origin, entries => change origin entries
  | key :: path, origin, entries =>
    match Properties.get? entries key with
    | none => do
      let (o, inner) ← edit? isKey change path (if isKey then .dotted else .implied) []
      some (origin, Properties.set entries key (.table o inner))
    | some (.table o inner) =>
      if o = .braces ∨ (isKey ∧ o = .header) then none
      else do
        let (o, inner) ← edit? isKey change path o inner
        some (origin, Properties.set entries key (.table o inner))
    | some (.tables earlier last) => do
      let (_, last) ← edit? isKey change path .header last
      some (origin, Properties.set entries key (.tables earlier last))
    | some _ => none

/-- Assigns a value to a key of a table. The path of the key goes through tables made by such
keys. -/
def assign? (path : List String) (key : String) (value : Value) (entries : Entries) :
    Option Entries :=
  (edit? true (fun origin inner =>
    if (origin = .dotted) = path.isEmpty ∨ (Properties.get? inner key).isSome then none
    else some (origin, Properties.set inner key value)) path .header entries).map (·.2)

/-- Assigns a value to a key of the table that a header has opened. -/
def assignUnder? (header path : List String) (key : String) (value : Value) (entries : Entries) :
    Option Entries :=
  (edit? false (fun origin inner => (assign? path key value inner).map (origin, ·))
    header .header entries).map (·.2)

/-- Opens a table with a header of its own. -/
def openTable? (path : List String) (key : String) (entries : Entries) : Option Entries :=
  (edit? false (fun origin inner =>
    match Properties.get? inner key with
    | none => some (origin, Properties.set inner key (.table .header []))
    | some (.table .implied own) => some (origin, Properties.set inner key (.table .header own))
    | some _ => none) path .header entries).map (·.2)

/-- Opens one more table under a header that several tables share. -/
def openNextTable? (path : List String) (key : String) (entries : Entries) : Option Entries :=
  (edit? false (fun origin inner =>
    match Properties.get? inner key with
    | none => some (origin, Properties.set inner key (.tables [] []))
    | some (.tables earlier last) =>
      some (origin, Properties.set inner key (.tables (earlier ++ [last]) []))
    | some _ => none) path .header entries).map (·.2)

end Entries

end PartialResponse.Toml
