import PartialResponse.Document.Writer
import PartialResponse.Files.Access

/-!
# PartialResponse.Document.Output — writing documents out

A text is handed to a sink and the sink is flushed. Either may fail. A sink is
not asked to take a text that is empty.
-/

namespace PartialResponse

/-- What takes a text. -/
inductive Sink where
  | sound
  | failsOnWrite
  | failsOnFlush
deriving DecidableEq, Repr

/-- Hands a text to a sink and flushes it. The result is what the sink has taken. -/
def Sink.take (sink : Sink) (text : String) : Except OutputError String :=
  match sink with
  | sound => .ok text
  | failsOnWrite => if text.isEmpty then .ok text else .error .write
  | failsOnFlush => .error .flush

/-- Writes a document to a sink, if there is a text of it. -/
def Document.writeTo (sink : Sink) (format : Format) (c : Config) (document : Document) :
    Option (Except OutputError String) :=
  (document.text? format c).map sink.take

end PartialResponse
