/-!
# PartialResponse.Yaml.Token.Basic — the tokens of YAML text

The parts into which YAML text is taken. The starts and ends of block
collections have no characters of their own: they come from indentation.
-/

namespace PartialResponse.Yaml

/-- A token of YAML text. -/
inductive Token where
  | versionDirective (major minor : Nat)
  | tagDirective (handle : String) (expansion : List UInt8)
  | documentStart
  | documentEnd
  | streamEnd
  | blockSequenceStart
  | blockMappingStart
  | blockEnd
  | flowSequenceStart
  | flowSequenceEnd
  | flowMappingStart
  | flowMappingEnd
  | blockEntry
  | flowEntry
  | key
  | value
  | alias (name : String)
  | anchor (name : String)
  | tag (handle : String) (suffix : List UInt8)
  /-- A scalar; a plain one has no quotes and no block header, and so may be more than a string. -/
  | scalar (text : String) (plain : Bool)
deriving DecidableEq, Repr

end PartialResponse.Yaml
