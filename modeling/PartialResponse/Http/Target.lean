import PartialResponse.Text.Utf8

/-!
# PartialResponse.Http.Target — request targets

The target of a request is a path with perhaps a query, or a scheme and an
authority in front of these, or an authority alone. Targets are checked
character by character; of a good one the query is what matters here. Characters
beyond ASCII are allowed in paths and queries only.
-/

namespace PartialResponse.Http.Target

/-- The characters of an authority, percent signs apart. -/
def isAuthorityChar (c : Char) : Bool :=
  c.isAlphanum || ['!', '$', '&', '\'', '(', ')', '*', '+', ',', '-', '.', ':', ';', '=', '@',
    '[', ']', '_', '~'].contains c

/-- The characters that end an authority. -/
def isAuthorityEnd (c : Char) : Bool :=
  c == '/' || c == '?' || c == '#'

/-- What has been seen of an authority. -/
structure AuthorityScan where
  colons : Nat
  bracketOpened : Bool
  bracketClosed : Bool
  /-- Whether a percent sign stands where it belongs to the host. -/
  percent : Bool
  /-- Whether the last character is an at sign. -/
  endsInAt : Bool

/-- Looks at a character of an authority. Colons and percent signs in front of an at sign belong to
the user, and inside brackets to an address. -/
def AuthorityScan.step (s : AuthorityScan) (c : Char) : Option AuthorityScan :=
  let s := { s with endsInAt := c == '@' }
  if c = '%' then some { s with percent := true }
  else if !isAuthorityChar c then none
  else if c = ':' then if 8 ≤ s.colons then none else some { s with colons := s.colons + 1 }
  else if c = '[' then
    if s.percent || s.bracketOpened then none else some { s with bracketOpened := true }
  else if c = ']' then
    if !s.bracketOpened || s.bracketClosed then none
    else some { s with bracketClosed := true, colons := 0, percent := false }
  else if c = '@' then some { s with colons := 0, percent := false }
  else some s

/-- Whether a text is an authority; it may be empty. -/
def isAuthority (text : List Char) : Bool :=
  match text.foldlM AuthorityScan.step ⟨0, false, false, false, false⟩ with
  | some s => s.bracketOpened == s.bracketClosed && s.colons ≤ 1 && !s.endsInAt && !s.percent
  | none => false

/-- The characters of a scheme. -/
def isSchemeChar (c : Char) : Bool :=
  c.isAlphanum || c == '+' || c == '-' || c == '.' || c == '~'

/-- The length of the scheme in front of a target, if it has one. -/
def schemeLength? (text : List Char) : Option Nat :=
  let scheme := text.takeWhile isSchemeChar
  if 3 < text.length ∧ (text.drop scheme.length).take 3 = [':', '/', '/'] then some scheme.length
  else none

/-- The characters of a path. -/
def isPathChar (c : Char) : Bool :=
  let n := c.toNat
  n == 0x21 || n == 0x22 || (0x24 ≤ n && n ≤ 0x3B) || n == 0x3D || (0x40 ≤ n && n ≤ 0x5F) ||
    (0x61 ≤ n && n != 0x7F)

/-- The characters of a query. -/
def isQueryChar (c : Char) : Bool :=
  let n := c.toNat
  n == 0x21 || (0x24 ≤ n && n ≤ 0x3B) || n == 0x3D || (0x3F ≤ n && n != 0x7F)

/-- The query behind a path; none at all for a bad path or query. A number sign ends both. -/
def pathQuery? (text : List Char) : Option (Option (List Char)) :=
  let text := text.takeWhile (· != '#')
  let path := text.takeWhile (· != '?')
  if !path.all isPathChar then none
  else
    match text.drop path.length with
    | '?' :: query => if query.all isQueryChar then some (some query) else none
    | _ => some none

/-- The query of a target with or without a scheme; none at all for a bad one. Behind a scheme an
authority has to stand, and without a scheme nothing else may. -/
def fullQuery? (text : List Char) : Option (Option (List Char)) :=
  match schemeLength? text with
  | some n =>
    let rest := text.drop (n + 3)
    let authority := rest.takeWhile (!isAuthorityEnd ·)
    if n ≤ 64 ∧ authority ≠ [] ∧ isAuthority authority then
      pathQuery? (rest.drop authority.length)
    else none
  | none => if isAuthority text then some none else none

/-- The query of a target; none at all for a bad one. A target has to be shorter than 65535
bytes. -/
def query? (target : String) : Option (Option String) :=
  let text := target.toList
  let query := match text with
    | [] => none
    | '/' :: _ => pathQuery? text
    | _ => fullQuery? text
  if target.utf8ByteSize < 65535 then query.map (·.map String.ofList) else none

end PartialResponse.Http.Target
