import PartialResponse.Tree.Visitor

/-!
# PartialResponse.Yaml.Fault — what can be wrong with YAML text

The causes for which a YAML text is refused, from its characters up to the
values that its nodes stand for.
-/

namespace PartialResponse.Yaml

/-- Why a YAML text is refused. -/
inductive Fault where
  /-- The text holds a control character. -/
  | forbiddenCharacter
  /-- No token starts with this character. -/
  | noToken
  /-- An entry, key or value marker stands where none is allowed. -/
  | misplacedMarker
  /-- A key on one line lacks its colon. -/
  | missingColon
  /-- A directive is unknown or badly formed. -/
  | badDirective
  /-- A directive is given twice. -/
  | repeatedDirective
  /-- The document asks for another version of the format. -/
  | unsupportedVersion
  /-- An anchor or alias has no name, or an odd character behind it. -/
  | badAnchor
  /-- A tag is badly formed. -/
  | badTag
  /-- A tag handle is not declared. -/
  | undeclaredHandle
  /-- A tab or an indentation of zero stands where text has to be indented. -/
  | badIndentation
  /-- The header of a block scalar is badly formed. -/
  | badScalarHeader
  /-- A quoted scalar does not end. -/
  | unclosedQuote
  /-- An escape sequence is unknown or stands for no character. -/
  | badEscape
  /-- A colon stands where a plain scalar has no room for one. -/
  | misplacedColon
  /-- A node has to stand here. -/
  | expectedNode
  /-- The next entry of a collection, or its end, has to stand here. -/
  | expectedEntry
  /-- The start of a document has to stand here. -/
  | expectedDocument
  /-- An alias refers to no anchor of its document. -/
  | unknownAlias
  /-- Collections are nested too deeply. -/
  | tooDeep
  /-- Aliases are followed too often. -/
  | tooManyAliases
  /-- A mapping has two equal keys. -/
  | repeatedKey
  /-- A tag is given to a scalar that it does not fit. -/
  | unfitTag
  /-- An integer has no place among the numbers. -/
  | integerTooLarge
  /-- What is to be made of the text has no place for one of its values. -/
  | visiting (cause : VisitError)
  /-- A value carries a tag of its own where plain data is asked for. -/
  | unexpectedTag
  /-- A mapping has a collection for a key. -/
  | collectionKey
  /-- There is more than one document. -/
  | moreThanOne
deriving DecidableEq, Repr

end PartialResponse.Yaml
