import PartialResponse.Http.Headers
import PartialResponse.Http.Status

/-!
# PartialResponse.Http.Response — responses

A response has a status, header fields and a body. The body is a document value
until the response is formatted, and text afterwards.
-/

namespace PartialResponse.Http

/-- A response with a body of type `α`. -/
structure Response (α : Type) where
  status : Status
  headers : Headers
  body : α

namespace Response

/-- The successful response without header fields. -/
def plain {α : Type} (body : α) : Response α := ⟨.ok, [], body⟩

/-- The response with an empty body that tells that the request is at fault. Header fields stay. -/
def rejected {α : Type} (response : Response α) : Response String :=
  ⟨.badRequest, response.headers, ""⟩

/-- The response with another body, and with the type of JSON unless it has a type. -/
def withJson {α : Type} (response : Response α) (text : String) : Response String :=
  ⟨response.status, response.headers.insertMissing .contentType .jsonContentType, text⟩

end Response

end PartialResponse.Http
