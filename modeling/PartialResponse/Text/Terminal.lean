import PartialResponse.Text.Utf8

/-!
# PartialResponse.Text.Terminal — what a terminal shows of a text

Some characters are not shown but obeyed: control characters, and the sequences
that start with an escape character. White space is among the former and is shown
all the same, even in the midst of most sequences; such a sequence goes on where
the text that is shown next meets a character that is not.
-/

namespace PartialResponse.Text.Terminal

/-- Which part of a sequence comes next. -/
inductive State where
  /-- None: text is shown. -/
  | text
  /-- What follows an escape character. -/
  | escape
  /-- The end of a sequence that has a mark in it. -/
  | marked
  /-- The parameters of a command, or its end. -/
  | command
  /-- The parameters of a sequence for a device, then its marks. -/
  | deviceStart
  | deviceParameter
  | deviceMark
  /-- A string that a certain byte ends. -/
  | string
  /-- A string that a bell ends. -/
  | title
deriving DecidableEq, Repr

/-- Whether a character is white space of one byte, spaces apart. -/
def isLayout (c : Char) : Bool :=
  c == '\t' || c == '\n' || c == '\x0c' || c == '\r'

/-- Whether a character can be shown. -/
def isVisible (c : Char) : Bool :=
  isLayout c || (' ' ≤ c && c != '\x7f')

/-- Whether one of the bytes of a character ends strings. -/
def endsString (c : Char) : Bool :=
  (Utf8.encodeChar c).contains 0x9c

namespace State

/-- What comes next behind a character that stands first in a sequence. -/
def afterEscape (c : Char) : State :=
  if c < ' ' ∨ '~' < c then escape
  else if c < '0' then marked
  else if c = '[' then command
  else if c = 'P' then deviceStart
  else if c = ']' then title
  else if c = 'X' ∨ c = '^' ∨ c = '_' then string
  else text

/-- What comes next behind a character of a sequence for a device. -/
def afterDevice (s : State) (c : Char) : State :=
  if c < ' ' ∨ '~' < c then s
  else if '@' ≤ c then string
  else if c < '0' then deviceMark
  else if s = deviceMark ∨ (s = deviceParameter ∧ '<' ≤ c) then string
  else deviceParameter

/-- What comes next behind a character that is not shown. -/
def next (s : State) (c : Char) : State :=
  if c = '\x1b' then escape
  else if c = '\x18' ∨ c = '\x1a' then text
  else
    match s with
    | text => text
    | escape => afterEscape c
    | marked => if '0' ≤ c ∧ c ≤ '~' then text else marked
    | command => if '@' ≤ c ∧ c ≤ '~' then text else command
    | string => if endsString c then text else string
    | title => if c = '\x07' then text else title
    | device => device.afterDevice c

/-- Whether white space is shown where this part of a sequence comes next. -/
def showsLayout : State → Bool
  | escape => true
  | marked => true
  | command => true
  | _ => false

end State

/-- The characters that are shown. `showing` says whether the last one was, if there was one. -/
def visible (s : State) (showing : Bool) : List Char → List Char
  | [] => []
  | c :: rest =>
    if (showing || s = .text) && isVisible c then
      c :: visible (if c.toNat < 0x80 then s else .text) true rest
    else if s.showsLayout && isLayout c then c :: visible s true rest
    else visible (s.next c) false rest

/-- What is shown of a text. -/
def shown (text : String) : String :=
  .ofList (visible .text true text.toList)

end PartialResponse.Text.Terminal
