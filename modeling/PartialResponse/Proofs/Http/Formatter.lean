import PartialResponse.Http.Formatter

/-!
# PartialResponse.Proofs.Http.Formatter — what is written when the outcome is known

Once it is known what the selector text of a request comes to, what is written
depends on that outcome only. `format_engaged` and `executeOn_eq` say so for the
two ways to write, and `format_exempt` is the case where nobody asks.
-/

namespace PartialResponse.Http

namespace Formatter

/-- What becomes of a successful response when the outcome is known. -/
def formatted (f : Formatter) (o : Outcome) (response : Response Tree) :
    Response String × List LogLine :=
  if f.rejects o then (response.rejected, [])
  else
    (response.withJson (Json.compactText (f.prune o response.body).1), (f.prune o response.body).2)

/-- A response with the status and the type that a result asks for. -/
def adapted (result : PartialResult) (response : Response Unit) : Response Unit :=
  let headers := match result.contentType with
    | some value => response.headers.insert .contentType value
    | none => response.headers
  ⟨result.status.getD response.status, headers, ()⟩

/-- What becomes of a result and the response it is written onto when the outcome is known. -/
def executed (f : Formatter) (o : Outcome) (result : PartialResult) (response : Response Unit) :
    Response String × List LogLine :=
  if f.rejects o then (response.rejected, [])
  else
    ((adapted result response).withJson (Json.compactText (f.prune o result.value).1),
      .executing (adapted result response).status :: (f.prune o result.value).2)

/-- There is a formatter if what is always included is well formed. -/
theorem exists_ofConfig {config : Config} (hwellFormed : config.always.isOk = true) :
    ∃ f, ofConfig config = .ok f := by
  cases h : config.always with
  | ok always => exact ⟨⟨config, always⟩, by rw [ofConfig, h]; rfl⟩
  | error cause => simp [h, Except.isOk, Except.toBool] at hwellFormed

/-- A formatter has the configuration it is made for, and what that always includes. -/
theorem eq_of_ofConfig {config : Config} {f : Formatter} (hmade : ofConfig config = .ok f) :
    f.config = config ∧ config.always = .ok f.always := by
  cases h : config.always with
  | ok always =>
    rw [ofConfig, h] at hmade
    cases hmade
    exact ⟨rfl, rfl⟩
  | error cause =>
    rw [ofConfig, h] at hmade
    cases hmade

theorem format_exempt (f : Formatter) {r : SelectorRequest} {response : Response Tree}
    (hexempt : r.bypassed = true ∨ response.status ≠ .ok) :
    f.format r response = ⟨response.withJson (Json.compactText response.body), r, []⟩ := by
  have hwhole : (r.bypassed || response.status != .ok) = true := by simpa using hexempt
  simp only [format, hwhole, if_true]

theorem format_engaged (f : Formatter) {r : SelectorRequest} {response : Response Tree}
    (hengaged : r.bypassed = false ∧ response.status = .ok) :
    f.format r response =
      ⟨(f.formatted r.outcome response).1, r.read,
        r.readLog ++ (f.formatted r.outcome response).2⟩ := by
  have hpruned : (r.bypassed || response.status != .ok) = false := by simpa using hengaged
  cases hrejected : f.rejects r.outcome with
  | true => simp [format, formatted, hpruned, hrejected]
  | false => simp [format, formatted, hpruned, hrejected]

theorem executeOn_eq (f : Formatter) (r : SelectorRequest) (result : PartialResult)
    (response : Response Unit) :
    f.executeOn r result response =
      ⟨(f.executed r.outcome result response).1, r.read,
        r.readLog ++ (f.executed r.outcome result response).2⟩ := by
  unfold executeOn executed
  split
  · simp
  · rfl

end Formatter

end PartialResponse.Http
