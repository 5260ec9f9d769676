/-!
# PartialResponse.Http.Headers — header fields

Header fields in order. A name may repeat, and its case does not matter: names
are kept in lower case. A value is a text; bytes that are none are left out.
-/

namespace PartialResponse.Http

/-- The characters of a header name in lower case. -/
def isTokenChar (c : Char) : Bool :=
  c.isLower || c.isDigit || ['!', '#', '$', '%', '&', '\'', '*', '+', '-', '.', '^', '_', '\x60',
    '|', '~'].contains c

/-- A header name. -/
structure HeaderName where
  text : String
  isToken : text.toList ≠ [] ∧ text.length < 65536 ∧ text.toList.all isTokenChar
deriving DecidableEq

namespace HeaderName

/-- The header name that is written in either case, if the text is one. -/
def ofText? (text : String) : Option HeaderName :=
  let lower := String.ofList (text.toList.map Char.toLower)
  if h : lower.toList ≠ [] ∧ lower.length < 65536 ∧ lower.toList.all isTokenChar then
    some ⟨lower, h⟩
  else none

/-- The name of the field that tells the type of the body. -/
def contentType : HeaderName :=
  ⟨"content-type", by decide⟩

end HeaderName

/-- The characters of a header value: all but control characters; a tab is none. -/
def isValueChar (c : Char) : Bool :=
  c == '\t' || (0x20 ≤ c.toNat && c.toNat != 0x7F)

/-- A header value. -/
structure HeaderValue where
  text : String
  isPlain : text.toList.all isValueChar
deriving DecidableEq

namespace HeaderValue

/-- The header value with a text, if it has no control characters. -/
def ofText? (text : String) : Option HeaderValue :=
  if h : text.toList.all isValueChar then some ⟨text, h⟩ else none

/-- The type of a JSON body. -/
def jsonContentType : HeaderValue :=
  ⟨"application/json; charset=utf-8", by decide⟩

end HeaderValue

/-- Header fields in order. -/
abbrev Headers := List (HeaderName × HeaderValue)

namespace Headers

/-- The values of the fields with a name, in order. -/
def values (headers : Headers) (name : HeaderName) : List HeaderValue :=
  (headers.filter (·.1 == name)).map (·.2)

/-- Makes a value the only one for its name. -/
def insert (headers : Headers) (name : HeaderName) (value : HeaderValue) : Headers :=
  headers.filter (·.1 != name) ++ [(name, value)]

/-- Gives a name a value unless it has one. -/
def insertMissing (headers : Headers) (name : HeaderName) (value : HeaderValue) : Headers :=
  if headers.any (·.1 == name) then headers else headers ++ [(name, value)]

theorem values_insert (headers : Headers) (name other : HeaderName) (value : HeaderValue) :
    (headers.insert name value).values other =
      if other = name then [value] else headers.values other := by
  by_cases h : other = name
  · subst h
    simp [insert, values, List.filter_filter]
  · have hback : ¬name = other := fun he => h he.symm
    simp only [h, if_false, insert, values, List.filter_append, List.filter_filter]
    have hsame : (headers.filter fun f => f.1 == other && f.1 != name) =
        headers.filter fun f => f.1 == other := by
      apply List.filter_congr
      intro f _
      by_cases he : f.1 = other
      · simp [he, h]
      · simp [he]
    simp [hsame, hback]

theorem values_insertMissing (headers : Headers) (name other : HeaderName) (value : HeaderValue) :
    (headers.insertMissing name value).values other =
      if other = name ∧ headers.values name = [] then [value] else headers.values other := by
  have hany : headers.any (·.1 == name) = true ↔ headers.values name ≠ [] := by
    simp [values, List.any_eq_true, List.filter_eq_nil_iff]
  unfold insertMissing
  split
  · next h => simp [hany.mp h]
  · next h =>
    have hnone : headers.values name = [] := Decidable.not_not.mp fun hne => h (hany.mpr hne)
    by_cases he : other = name
    · subst he
      have hempty : headers.filter (·.1 == other) = [] := by simpa [values] using hnone
      simp [values, hempty]
    · have hback : ¬name = other := fun hx => he hx.symm
      simp [values, he, hback]

end Headers

end PartialResponse.Http
