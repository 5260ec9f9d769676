import PartialResponse.Config.Basic
import PartialResponse.Http.Request
import PartialResponse.Http.Response
import PartialResponse.Prune.Pass

/-!
# PartialResponse.Http.Formatter — writing responses

A formatter writes the JSON bodies of responses, pruned to what the request asks
for. Malformed selector text turns a response into a rejection, unless the
configuration says that it counts as absent.

There are two ways to write. A response as such is pruned only if it is
successful and the request is not exempt, and otherwise the selector text is not
even read. A result that asks for pruning itself gets it whatever its status.
-/

namespace PartialResponse.Http

/-- A configuration with what it always includes. -/
structure Formatter where
  config : Config
  always : Option AlwaysIncluded

/-- A value to be written, pruned whatever the status. -/
structure PartialResult where
  value : Tree
  /-- The status to respond with, if not that of the response. -/
  status : Option Status
  /-- The type of the body, if not that of the response. -/
  contentType : Option HeaderValue

/-- A response as written, with the request afterwards and what has been logged. -/
structure Written where
  response : Response String
  request : SelectorRequest
  log : List LogLine

namespace Formatter

/-- The formatter for a configuration. Malformed text for what is always included is an error. -/
def ofConfig (config : Config) : Except SelectorError Formatter :=
  config.always.map fun always => ⟨config, always⟩

/-- Whether an outcome makes a response a rejection. -/
def rejects (f : Formatter) (outcome : Outcome) : Bool :=
  outcome.isMalformed && !f.config.ignoreParseErrors

/-- What an outcome leaves of a body, with the log lines. -/
def prune (f : Formatter) (outcome : Outcome) (body : Tree) : Tree × List LogLine :=
  outcome.apply f.config.caseMode f.always body

/-- Writes a response. -/
def format (f : Formatter) (r : SelectorRequest) (response : Response Tree) : Written :=
  if r.bypassed || response.status != .ok then
    ⟨response.withJson (Json.compactText response.body), r, []⟩
  else if f.rejects r.outcome then ⟨response.rejected, r.read, r.readLog⟩
  else
    let (body, lines) := f.prune r.outcome response.body
    ⟨response.withJson (Json.compactText body), r.read, r.readLog ++ lines⟩

/-- Writes a result onto a response. -/
def executeOn (f : Formatter) (r : SelectorRequest) (result : PartialResult)
    (response : Response Unit) : Written :=
  if f.rejects r.outcome then ⟨response.rejected, r.read, r.readLog⟩
  else
    let headers := match result.contentType with
      | some value => response.headers.insert .contentType value
      | none => response.headers
    let status := result.status.getD response.status
    let (body, lines) := f.prune r.outcome result.value
    let response : Response Unit := ⟨status, headers, ()⟩
    ⟨response.withJson (Json.compactText body), r.read, r.readLog ++ .executing status :: lines⟩

/-- Writes a result as a new response. -/
def execute (f : Formatter) (r : SelectorRequest) (result : PartialResult) : Written :=
  f.executeOn r result (.plain ())

end Formatter

end PartialResponse.Http
