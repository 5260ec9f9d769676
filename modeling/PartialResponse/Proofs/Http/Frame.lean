import PartialResponse.Proofs.Http.Formatter

/-!
# PartialResponse.Proofs.Http.Frame — what the writers leave alone

A writer looks at two things of a response, its status and whether it has a content
type, and changes nothing else of its header. There are two ways in which a response
can come out: as a rejection, which changes the status only (`Rejection`), or written,
with the status and the content type that are asked for, that are there, or that are
usual (`Adaptation`). Main statements:

* `Formatter.writers_frame` — in which of the two ways each writer lets a response come
  out, and nothing else happens to it;
* `Formatter.format_agrees_with_executeOn` — for a request that is not exempt, writing a
  successful response is writing its body as a result onto the rest of it.
-/

namespace PartialResponse

/-- A text is malformed if it is there and cannot be read. -/
theorem Outcome.isMalformed_ofText? {text : Option String} :
    (Outcome.ofText? text).isMalformed = true ↔
      ∃ written cause, text = some written ∧ Selection.parse written = .error cause := by
  cases text with
  | none => simp [ofText?, isMalformed]
  | some written =>
    cases hparse : Selection.parse written with
    | ok selection => simp [ofText?, isMalformed, hparse]
    | error cause => simp [ofText?, isMalformed, hparse]

namespace Http

variable {α β : Type}

/-! ## The two ways for a response to come out -/

/-- A response with status 400 and an empty body. All header fields are as they were. -/
structure Rejection (before : Response α) (after : Response String) : Prop where
  status_eq : after.status = .badRequest
  body_eq : after.body = ""
  values_eq : ∀ name, after.headers.values name = before.headers.values name

/-- The values that the content type ends up with: the one that is asked for and no other, or all
those that are there, or that of JSON if there are none. -/
def writtenTypes (asked : Option HeaderValue) (present : List HeaderValue) : List HeaderValue :=
  match asked, present with
  | some value, _ => [value]
  | none, [] => [.jsonContentType]
  | none, first :: others => first :: others

/-- A response with the status that is asked for or else its own, and with its content type settled.
All other header fields are as they were. -/
structure Adaptation (status : Option Status) (contentType : Option HeaderValue)
    (before : Response α) (after : Response String) : Prop where
  status_eq : after.status = status.getD before.status
  types_eq : after.headers.values .contentType =
    writtenTypes contentType (before.headers.values .contentType)
  values_eq : ∀ name, name ≠ .contentType →
    after.headers.values name = before.headers.values name

/-- What a formatter turns down is a rejection. -/
theorem rejection_rejected (response : Response α) : Rejection response response.rejected :=
  ⟨rfl, rfl, fun _ => rfl⟩

/-- What is written after the content type that is asked for has been set. -/
theorem Adaptation.withJson {before : Response α} {changed : Response β} {status : Option Status}
    {contentType : Option HeaderValue} (hstatus : changed.status = status.getD before.status)
    (hheaders : changed.headers = match contentType with
      | some value => before.headers.insert .contentType value
      | none => before.headers) (text : String) :
    Adaptation status contentType before (changed.withJson text) := by
  constructor
  · exact hstatus
  · rw [Response.withJson, hheaders, Headers.values_insertMissing]
    -- the content type that is asked for is the only one, and so is not missing
    cases contentType with
    | some value => simp [Headers.values_insert, writtenTypes]
    | none =>
      cases hpresent : before.headers.values .contentType with
      | nil => simp [writtenTypes]
      | cons first others => simp [writtenTypes]
  · intro name hname
    rw [Response.withJson, hheaders, Headers.values_insertMissing, if_neg (fun h => hname h.1)]
    cases contentType with
    | some value => rw [Headers.values_insert, if_neg hname]
    | none => rfl

namespace Formatter

/-! ## Each writer -/

/-- A formatter turns a request down if its selector text is malformed and that is not to be
ignored. -/
def TurnsDown (f : Formatter) (r : SelectorRequest) : Prop :=
  f.config.ignoreParseErrors = false ∧
    ∃ text cause, r.text = some text ∧ Selection.parse text = .error cause

variable {f : Formatter} {r : SelectorRequest}

/-- The check for a malformed text comes down to reading the text. -/
theorem rejects_iff : f.rejects r.outcome = true ↔ f.TurnsDown r := by
  rw [rejects, r.outcome_eq, Bool.and_eq_true, Outcome.isMalformed_ofText?, Bool.not_eq_true']
  exact and_comm

/-- A response that is written for a request that is turned down. -/
theorem format_turnedDown {response : Response Tree} (hdown : f.TurnsDown r)
    (hengaged : r.bypassed = false ∧ response.status = .ok) :
    Rejection response (f.format r response).response := by
  rw [f.format_engaged hengaged, formatted, if_pos (rejects_iff.2 hdown)]
  exact rejection_rejected response

/-- A response otherwise: the request is not turned down, or exempt, or the response no success. -/
theorem format_written {response : Response Tree}
    (h : ¬ (f.TurnsDown r ∧ r.bypassed = false ∧ response.status = .ok)) :
    Adaptation none none response (f.format r response).response := by
  by_cases hengaged : r.bypassed = false ∧ response.status = .ok
  · have hrejects : ¬ f.rejects r.outcome = true := fun hrejects =>
      h ⟨rejects_iff.1 hrejects, hengaged⟩
    rw [f.format_engaged hengaged, formatted, if_neg hrejects]
    exact .withJson rfl rfl _
  · -- the selector text is not read, so it does not matter whether it is malformed
    have hexempt : r.bypassed = true ∨ response.status ≠ .ok := by
      cases hbypassed : r.bypassed with
      | true => exact Or.inl rfl
      | false => exact Or.inr fun hok => hengaged ⟨hbypassed, hok⟩
    rw [f.format_exempt hexempt]
    exact .withJson rfl rfl _

/-- A result that is written for a request that is turned down, whatever the response. -/
theorem executeOn_turnedDown (hdown : f.TurnsDown r) (result : PartialResult)
    (response : Response Unit) : Rejection response (f.executeOn r result response).response := by
  rw [executeOn_eq, executed, if_pos (rejects_iff.2 hdown)]
  exact rejection_rejected response

/-- A result otherwise. -/
theorem executeOn_written (h : ¬ f.TurnsDown r) (result : PartialResult)
    (response : Response Unit) : Adaptation result.status result.contentType response
      (f.executeOn r result response).response := by
  rw [executeOn_eq, executed, if_neg (fun hrejects => h (rejects_iff.1 hrejects))]
  exact .withJson rfl rfl _

/-- A result that asks for nothing comes out like a successful response, and one line is logged
that tells of it. -/
theorem executeOn_eq_formatted (f : Formatter) (r : SelectorRequest) (headers : Headers)
    (body : Tree) :
    f.executeOn r ⟨body, none, none⟩ ⟨.ok, headers, ()⟩ =
      ⟨(f.formatted r.outcome ⟨.ok, headers, body⟩).1, r.read,
        r.readLog ++ ((if f.rejects r.outcome then [] else [.executing .ok]) ++
          (f.formatted r.outcome ⟨.ok, headers, body⟩).2)⟩ := by
  rw [executeOn_eq, executed, formatted]
  split
  · rfl
  · rfl

/-- **Two ways to write the same.** For a request that is not exempt, a successful response is
written just as its body is written, as a result that asks for nothing, onto the rest of it: the
status, the header fields and the body are the same, and the request is read in both. The only
difference is a line in the log. -/
theorem format_agrees_with_executeOn (f : Formatter) {r : SelectorRequest}
    (hr : r.bypassed = false) (headers : Headers) (body : Tree) :
    let formatted := f.format r ⟨.ok, headers, body⟩
    let executed := f.executeOn r ⟨body, none, none⟩ ⟨.ok, headers, ()⟩
    executed.response = formatted.response ∧
      executed.request = formatted.request ∧
      ∃ lines, formatted.log = r.readLog ++ lines ∧
        executed.log =
          r.readLog ++ ((if f.rejects r.outcome then [] else [.executing .ok]) ++ lines) := by
  intro formatted executed
  have hformatted : formatted = ⟨(f.formatted r.outcome ⟨.ok, headers, body⟩).1, r.read,
      r.readLog ++ (f.formatted r.outcome ⟨.ok, headers, body⟩).2⟩ :=
    f.format_engaged ⟨hr, rfl⟩
  have hexecuted : executed = _ := f.executeOn_eq_formatted r headers body
  rw [hformatted, hexecuted]
  constructor
  · rfl
  · constructor
    · rfl
    · exact ⟨_, rfl, rfl⟩

/-- A malformed text that is ignored, and was read before. -/
theorem format_agrees_with_executeOn_malformed :
    let f : Formatter := ⟨{ Config.default with ignoreParseErrors := true }, none⟩
    let r := (SelectorRequest.ofText? (some "a(")).read
    let headers : Headers :=
      [(.contentType, ⟨"text/plain", by decide⟩), (.contentType, .jsonContentType)]
    r.bypassed = false ∧
      (f.executeOn r ⟨.array [], none, none⟩ ⟨.ok, headers, ()⟩).response =
        (f.format r ⟨.ok, headers, .array []⟩).response := by
  intro f r headers
  constructor
  · rfl
  · exact (f.format_agrees_with_executeOn rfl headers (.array [])).1

end Formatter

end Http

end PartialResponse
