import Mathlib.Data.List.Basic
import Mathlib.Data.List.Induction
import PartialResponse.Proofs.Http.Formatter

/-!
# PartialResponse.Proofs.Http.Session — what a handler does with one request

A handler may ask for the outcome of the selector text, exempt the request, and
write any number of responses and results, in any order. The request keeps what
the text comes to, and the exemption. What is shown:

* `Reached.perform` — the step lemma: what is known of the request after some
  steps holds after one more step;
* `reached_requestAfter` — the run lemma, by induction on the steps;
* `session_stateless` — the reply to each step is the reply of a new request with
  the same text and the same exemption, and the text is reported on once, in the
  first step that needs it.

So of the steps behind it a request need remember two things: whether one of them
exempted it and whether one of them needed the text.
-/

namespace PartialResponse.Http

/-- What a handler can do with a request. -/
inductive Step where
  | outcome
  | bypass
  | format (response : Response Tree)
  | execute (result : PartialResult)
  | executeOn (result : PartialResult) (response : Response Unit)

/-- What a step gives back. -/
inductive Reply where
  | outcome (outcome : Outcome)
  | done
  | response (response : Response String)

/-- A step as performed: its reply, the request afterwards and what has been logged. -/
structure Performed where
  reply : Reply
  request : SelectorRequest
  log : List LogLine

/-- What has been written, as a reply. -/
def Written.performed (written : Written) : Performed :=
  ⟨.response written.response, written.request, written.log⟩

/-- Whether a line of the log is about selector text that has been read. -/
def isReport : LogLine → Bool
  | .selectorRead _ | .selectorMalformed _ => true
  | .pruned _ _ | .executing _ => false

namespace Performed

/-- The lines that a step logs about the selector text. -/
def reports (p : Performed) : List LogLine :=
  p.log.filter isReport

/-- The other lines that a step logs. -/
def otherLines (p : Performed) : List LogLine :=
  p.log.filter (!isReport ·)

end Performed

namespace Step

/-- Whether a step exempts the request. -/
def isBypass : Step → Bool
  | .bypass => true
  | _ => false

/-- Whether a step writes a result that asks for pruning itself. -/
def isExecution : Step → Bool
  | .execute _ | .executeOn _ _ => true
  | _ => false

/-- Performs a step on a request. -/
def perform (f : Formatter) (r : SelectorRequest) : Step → Performed
  | .outcome => ⟨.outcome r.outcome, r.read, r.readLog⟩
  | .bypass => ⟨.done, r.bypass, []⟩
  | .format response => (f.format r response).performed
  | .execute result => (f.execute r result).performed
  | .executeOn result response => (f.executeOn r result response).performed

/-- Whether a step needs to know what the selector text comes to. A response needs it only if it is
successful and the request is not exempt. -/
def Consults (bypassed : Bool) : Step → Prop
  | .outcome | .execute _ | .executeOn _ _ => True
  | .bypass => False
  | .format response => bypassed = false ∧ response.status = .ok

end Step

/-- A session: steps performed in order, each on the request that the one before leaves. -/
def session (f : Formatter) (r : SelectorRequest) : List Step → List Performed
  | [] => []
  | step :: rest => step.perform f r :: session f (step.perform f r).request rest

/-- The request after some steps. -/
def requestAfter (f : Formatter) (r : SelectorRequest) (steps : List Step) : SelectorRequest :=
  steps.foldl (fun r step => (step.perform f r).request) r

/-- Whether some steps exempt the request. -/
def bypasses (steps : List Step) : Bool :=
  steps.any Step.isBypass

/-- One of some steps needs to know what the selector text comes to. -/
def Consulted (steps : List Step) : Prop :=
  ∃ before step after, steps = before ++ step :: after ∧ step.Consults (bypasses before)

/-- A request on which nothing has been done, but for an exemption. -/
def fresh (text : Option String) (bypassed : Bool) : SelectorRequest :=
  { SelectorRequest.ofText? text with bypassed := bypassed }

/-! ## What a step comes to -/

/-- Pruning does not report on the selector text. -/
@[simp]
theorem Formatter.filter_prune (f : Formatter) (o : Outcome) (body : Tree) :
    (f.prune o body).2.filter isReport = [] := by
  cases o <;> rfl

/-- Reading the text leaves nothing but reports on it. -/
theorem isReport_of_mem_readLog {r : SelectorRequest} {line : LogLine} (h : line ∈ r.readLog) :
    isReport line = true := by
  unfold SelectorRequest.readLog at h
  split at h
  · simp at h
  · cases ho : r.outcome with
    | absent => simp [ho, Outcome.log] at h
    | malformed cause => simp [ho, Outcome.log] at h; simp [h, isReport]
    | selected selection => simp [ho, Outcome.log] at h; simp [h, isReport]

namespace Step

/-- What a step gives back and logs when the outcome is known: it depends on nothing else. -/
def answer (f : Formatter) (o : Outcome) : Step → Reply × List LogLine
  | .outcome => (.outcome o, [])
  | .bypass => (.done, [])
  | .format response => (f.formatted o response).map .response id
  | .execute result => (f.executed o result (.plain ())).map .response id
  | .executeOn result response => (f.executed o result response).map .response id

@[simp]
theorem filter_answer (f : Formatter) (o : Outcome) (step : Step) :
    (step.answer f o).2.filter isReport = [] := by
  have hexecuted (result : PartialResult) (response : Response Unit) :
      (f.executed o result response).2.filter isReport = [] := by
    unfold Formatter.executed
    split
    · rfl
    · exact f.filter_prune o result.value
  cases step with
  | outcome => rfl
  | bypass => rfl
  | format response =>
    simp only [answer, Formatter.formatted]
    split
    · rfl
    · exact f.filter_prune o response.body
  | execute result => exact hexecuted result _
  | executeOn result response => exact hexecuted result response

/-- A step that needs the outcome reads the text and answers by what it comes to. -/
theorem perform_of_consults (f : Formatter) {r : SelectorRequest} {step : Step}
    (hconsults : step.Consults r.bypassed) :
    step.perform f r =
      ⟨(step.answer f r.outcome).1, r.read, r.readLog ++ (step.answer f r.outcome).2⟩ := by
  cases step with
  | outcome => simp [perform, answer]
  | bypass => exact hconsults.elim
  | format response =>
    simp only [perform, f.format_engaged hconsults]
    rfl
  | execute result =>
    simp only [perform, Formatter.execute, f.executeOn_eq]
    rfl
  | executeOn result response =>
    simp only [perform, f.executeOn_eq]
    rfl

/-- The steps that do not need the outcome. -/
theorem eq_of_not_consults {bypassed : Bool} {step : Step} (h : ¬step.Consults bypassed) :
    step = .bypass ∨
      ∃ response, step = .format response ∧ (bypassed = true ∨ response.status ≠ .ok) := by
  cases step with
  | bypass => exact .inl rfl
  | format response =>
    refine .inr ⟨response, rfl, ?_⟩
    cases bypassed with
    | true => exact .inl rfl
    | false => exact .inr fun hok => h ⟨rfl, hok⟩
  | outcome => exact absurd trivial h
  | execute result => exact absurd trivial h
  | executeOn result response => exact absurd trivial h

/-- A response that is not to be pruned is written whole, and the text is not read for it. -/
theorem perform_format_exempt (f : Formatter) {r : SelectorRequest} {response : Response Tree}
    (hexempt : r.bypassed = true ∨ response.status ≠ .ok) :
    (format response).perform f r =
      ⟨.response (response.withJson (Json.compactText response.body)), r, []⟩ := by
  simp only [perform, f.format_exempt hexempt]
  rfl

/-- What a step does to the request, and what it logs about the selector text. -/
theorem perform_cases (f : Formatter) (r : SelectorRequest) (step : Step) :
    (step.Consults r.bypassed ∧ (step.perform f r).request = r.read ∧
      (step.perform f r).reports = r.readLog) ∨
    (¬step.Consults r.bypassed ∧
      ((step = .bypass ∧ (step.perform f r).request = r.bypass) ∨
        (step.isBypass = false ∧ (step.perform f r).request = r)) ∧
      (step.perform f r).log = []) := by
  -- a step that needs no outcome is a bypass, or formats what is exempt
  by_cases hconsults : step.Consults r.bypassed
  · refine .inl ⟨hconsults, ?_⟩
    rw [perform_of_consults f hconsults]
    refine ⟨rfl, ?_⟩
    rw [Performed.reports, List.filter_append, filter_answer, List.append_nil]
    apply List.filter_eq_self.mpr
    intro line h
    exact isReport_of_mem_readLog h
  · refine .inr ⟨hconsults, ?_⟩
    obtain rfl | ⟨response, rfl, hexempt⟩ := eq_of_not_consults hconsults
    · exact ⟨.inl ⟨rfl, rfl⟩, rfl⟩
    · rw [perform_format_exempt f hexempt]
      exact ⟨.inr ⟨rfl, rfl⟩, rfl⟩

/-- Steps that need the outcome answer the same on requests with the same text. -/
theorem perform_congr_of_consults (f : Formatter) {step : Step} {r r' : SelectorRequest}
    (htext : r.text = r'.text) (hconsults : step.Consults r.bypassed)
    (hconsults' : step.Consults r'.bypassed) :
    (step.perform f r).reply = (step.perform f r').reply ∧
      (step.perform f r).otherLines = (step.perform f r').otherLines := by
  have houtcome : r.outcome = r'.outcome := by rw [r.outcome_eq, r'.outcome_eq, htext]
  have hnoReport (r : SelectorRequest) : r.readLog.filter (!isReport ·) = [] := by
    apply List.filter_eq_nil_iff.mpr
    intro line h
    simp [isReport_of_mem_readLog h]
  rw [perform_of_consults f hconsults, perform_of_consults f hconsults', houtcome]
  refine ⟨rfl, ?_⟩
  rw [Performed.otherLines, Performed.otherLines, List.filter_append, List.filter_append,
    hnoReport r, hnoReport r']

/-- Any step answers the same on requests with the same text and the same exemption. -/
theorem perform_congr (f : Formatter) (step : Step) {r r' : SelectorRequest}
    (htext : r.text = r'.text) (hbypassed : r.bypassed = r'.bypassed) :
    (step.perform f r).reply = (step.perform f r').reply ∧
      (step.perform f r).otherLines = (step.perform f r').otherLines := by
  by_cases hconsults : step.Consults r.bypassed
  · exact perform_congr_of_consults f htext hconsults (hbypassed ▸ hconsults)
  · obtain rfl | ⟨response, rfl, hexempt⟩ := eq_of_not_consults hconsults
    · exact ⟨rfl, rfl⟩
    · rw [perform_format_exempt f hexempt, perform_format_exempt f (hbypassed ▸ hexempt)]
      exact ⟨rfl, rfl⟩

end Step

/-! ## What is known of the request after some steps -/

/-- What some steps leave of a new request: its text, whether one of them exempts it, and whether
one of them needs the outcome. -/
structure Reached (text : Option String) (before : List Step) (r : SelectorRequest) : Prop where
  text_eq : r.text = text
  bypassed_eq : r.bypassed = bypasses before
  isRead_iff : r.isRead = true ↔ Consulted before

theorem consulted_concat (before : List Step) (step : Step) :
    Consulted (before ++ [step]) ↔ Consulted before ∨ step.Consults (bypasses before) := by
  constructor
  · rintro ⟨front, s, back, heq, hconsults⟩
    -- the step that consults is the last one, or it stands in front of that
    obtain rfl | ⟨back, last, rfl⟩ := back.eq_nil_or_concat'
    · obtain ⟨rfl, rfl⟩ : before = front ∧ step = s := by simpa using heq
      exact .inr hconsults
    · rw [← List.cons_append, ← List.append_assoc] at heq
      exact .inl ⟨front, s, back, (List.append_inj' heq rfl).1, hconsults⟩
  · rintro (⟨front, s, back, rfl, hconsults⟩ | hconsults)
    · exact ⟨front, s, back ++ [step], by simp, hconsults⟩
    · exact ⟨before, step, [], rfl, hconsults⟩

theorem reached_start (text : Option String) : Reached text [] (.ofText? text) where
  text_eq := rfl
  bypassed_eq := rfl
  isRead_iff := by simp [SelectorRequest.ofText?, SelectorRequest.isRead, Consulted]

namespace Reached

variable {f : Formatter} {text : Option String} {before : List Step} {r : SelectorRequest}

theorem outcome_eq (h : Reached text before r) : r.outcome = Outcome.ofText? text := by
  rw [r.outcome_eq, h.text_eq]

theorem readLog_of_not_consulted (h : Reached text before r) (hfirst : ¬Consulted before) :
    r.readLog = (Outcome.ofText? text).log := by
  have hunread : ¬r.isRead = true := fun hisRead => hfirst (h.isRead_iff.mp hisRead)
  rw [SelectorRequest.readLog, if_neg hunread, h.outcome_eq]

theorem readLog_of_consulted (h : Reached text before r) (hagain : Consulted before) :
    r.readLog = [] := by
  rw [SelectorRequest.readLog, if_pos (h.isRead_iff.mpr hagain)]

/-- The step lemma. -/
theorem perform (h : Reached text before r) (step : Step) :
    Reached text (before ++ [step]) (step.perform f r).request := by
  have hbypasses : bypasses (before ++ [step]) = (bypasses before || step.isBypass) := by
    simp [bypasses]
  obtain ⟨hconsults, hrequest, -⟩ | ⟨hidle, ⟨rfl, hrequest⟩ | ⟨hnotBypass, hrequest⟩, -⟩ :=
    step.perform_cases f r
  · -- the step reads the text, and so exempts nothing
    rw [hrequest]
    have hnotBypass : step.isBypass = false := by
      cases step <;> first | rfl | exact hconsults.elim
    rw [h.bypassed_eq] at hconsults
    refine ⟨h.text_eq, ?_, ?_⟩
    · rw [hbypasses, hnotBypass, Bool.or_false]
      exact h.bypassed_eq
    · rw [consulted_concat]
      exact ⟨fun _ => .inr hconsults, fun _ => rfl⟩
  · -- the step exempts the request; an exemption does not count as reading
    rw [hrequest]
    refine ⟨h.text_eq, ?_, ?_⟩
    · rw [hbypasses]
      exact (Bool.or_true _).symm
    · rw [consulted_concat]
      exact h.isRead_iff.trans ⟨.inl, fun hc => hc.resolve_right id⟩
  · -- the step writes a response whole and leaves the request as it is
    rw [hrequest]
    rw [h.bypassed_eq] at hidle
    refine ⟨h.text_eq, ?_, ?_⟩
    · rw [hbypasses, hnotBypass, Bool.or_false]
      exact h.bypassed_eq
    · rw [consulted_concat]
      exact h.isRead_iff.trans ⟨.inl, fun hc => hc.resolve_right hidle⟩

/-- The first step that needs the outcome reports on the text. -/
theorem reports_first (h : Reached text before r) {step : Step} (hfirst : ¬Consulted before)
    (hconsults : step.Consults (bypasses before)) :
    (step.perform f r).reports = (Outcome.ofText? text).log := by
  rw [← h.bypassed_eq] at hconsults
  obtain ⟨-, -, hreports⟩ | ⟨hidle, -⟩ := step.perform_cases f r
  · rw [hreports, h.readLog_of_not_consulted hfirst]
  · exact absurd hconsults hidle

/-- No other step does. -/
theorem reports_else (h : Reached text before r) {step : Step}
    (hother : Consulted before ∨ ¬step.Consults (bypasses before)) :
    (step.perform f r).reports = [] := by
  rw [← h.bypassed_eq] at hother
  obtain ⟨hconsults, -, hreports⟩ | ⟨-, -, hlog⟩ := step.perform_cases f r
  · rw [hreports, h.readLog_of_consulted (hother.resolve_right (not_not_intro hconsults))]
  · rw [Performed.reports, hlog]
    rfl

/-- A step answers as it does on a new request with the same exemption. -/
theorem perform_congr (h : Reached text before r) (step : Step) :
    (step.perform f r).reply = (step.perform f (fresh text (bypasses before))).reply ∧
      (step.perform f r).otherLines = (step.perform f (fresh text (bypasses before))).otherLines :=
  step.perform_congr f h.text_eq h.bypassed_eq

end Reached

/-- The run lemma. The induction adds steps at the end, as `Reached` speaks of all steps so far. -/
theorem reached_requestAfter (f : Formatter) (text : Option String) (steps : List Step) :
    Reached text steps (requestAfter f (.ofText? text) steps) := by
  induction steps using List.reverseRecOn with
  | nil => exact reached_start text
  | append_singleton before step ih =>
    rw [requestAfter, List.foldl_append]
    exact ih.perform step

/-- A session has one entry for each step: the step performed on what those before it leave. -/
theorem getElem?_session (f : Formatter) (r : SelectorRequest) (before : List Step) (step : Step)
    (after : List Step) :
    (session f r (before ++ step :: after))[before.length]? =
      some (step.perform f (requestAfter f r before)) := by
  induction before generalizing r with
  | nil => rfl
  | cons first rest ih => exact ih (first.perform f r).request

/-! ## Every step as on a new request -/

/-- What holds of a step behind others on a request with the given text. -/
structure Stateless (f : Formatter) (text : Option String) (before : List Step) (step : Step)
    (p : Performed) : Prop where
  /-- The reply is that of a request on which nothing has been done, but for an exemption. -/
  reply_eq : p.reply = (step.perform f (fresh text (bypasses before))).reply
  /-- So is what is logged, reports on the selector text apart. -/
  otherLines_eq : p.otherLines = (step.perform f (fresh text (bypasses before))).otherLines
  /-- In front of the step the text has been read if some earlier step needs the outcome, -/
  isRead_before : (requestAfter f (.ofText? text) before).isRead = true ↔ Consulted before
  /-- and behind it also if this step does. -/
  isRead_after : p.request.isRead = true ↔ Consulted before ∨ step.Consults (bypasses before)
  /-- The first step that needs the outcome reports on the text; no other step does. -/
  reports_first : ¬Consulted before → step.Consults (bypasses before) →
    p.reports = (Outcome.ofText? text).log
  reports_else : Consulted before ∨ ¬step.Consults (bypasses before) → p.reports = []
  /-- A response that is not to be pruned is written whole, and the request is left alone. -/
  format_whole : ∀ response, step = .format response →
    bypasses before = true ∨ response.status ≠ .ok →
    p = ⟨.response (response.withJson (Json.compactText response.body)),
      requestAfter f (.ofText? text) before, []⟩
  /-- An exemption makes no difference to a result that asks for pruning itself. -/
  execution_eq : step.isExecution = true →
    p.reply = (step.perform f (fresh text false)).reply ∧
    p.otherLines = (step.perform f (fresh text false)).otherLines

theorem Reached.stateless {f : Formatter} {text : Option String} {before : List Step}
    (h : Reached text before (requestAfter f (.ofText? text) before)) (step : Step) :
    Stateless f text before step (step.perform f (requestAfter f (.ofText? text) before)) where
  reply_eq := (h.perform_congr step).1
  otherLines_eq := (h.perform_congr step).2
  isRead_before := h.isRead_iff
  isRead_after := (h.perform step).isRead_iff.trans (consulted_concat before step)
  reports_first := h.reports_first
  reports_else := h.reports_else
  format_whole := by
    rintro response rfl hexempt
    rw [← h.bypassed_eq] at hexempt
    exact Step.perform_format_exempt f hexempt
  execution_eq := by
    intro hexecution
    have hconsults (bypassed : Bool) : step.Consults bypassed := by
      cases step <;> trivial
    exact Step.perform_congr_of_consults f h.text_eq (hconsults _) (hconsults _)

/-- Reading a selector text is reported on in one line, and no selector text in none. -/
theorem length_log_ofText? (text : Option String) :
    (Outcome.ofText? text).log.length = if text.isSome then 1 else 0 := by
  cases text with
  | none => rfl
  | some text =>
    simp only [Outcome.ofText?]
    cases Selection.parse text with
    | ok selection => rfl
    | error cause => rfl

/-- **A request behaves as if it had no state, and its text is read at most once.** With a formatter
for any configuration whose always-included selectors are well formed, in a session of any steps on
a request with any selector text or none: what holds of a step is what the steps in front of it
exempt and consult, and nothing else. -/
theorem session_stateless {config : Config} (hwellFormed : config.always.isOk = true) :
    ∃ f, Formatter.ofConfig config = .ok f ∧
      ∀ (text : Option String) (before : List Step) (step : Step) (after : List Step),
        (∃ p, (session f (.ofText? text) (before ++ step :: after))[before.length]? = some p ∧
          Stateless f text before step p) ∧
        (Outcome.ofText? text).log.length = if text.isSome then 1 else 0 := by
  obtain ⟨f, hmade⟩ := Formatter.exists_ofConfig hwellFormed
  refine ⟨f, hmade, ?_⟩
  intro text before step after
  refine ⟨⟨_, getElem?_session f _ before step after, ?_⟩, length_log_ofText? text⟩
  exact (reached_requestAfter f text before).stateless step

/-- A configuration that always includes one property. -/
def withId : Config := { Config.default with alwaysIncluded := ["id"] }

/-- Steps that leave the text unread: the request is exempt when the response is written. -/
def exemptSteps : List Step := [.bypass, .format (.plain .null)]

theorem not_consulted_exemptSteps : ¬Consulted exemptSteps := by
  intro h
  obtain h | h := (consulted_concat [.bypass] _).mp h
  · obtain h | h := (consulted_concat [] _).mp h
    · simp [Consulted] at h
    · exact h
  · exact absurd h.1 (by decide)

/-- Malformed text goes unnoticed until somebody asks what it comes to. -/
theorem session_stateless_malformed :
    ∃ f p, Formatter.ofConfig withId = .ok f ∧
      (session f (.ofText? (some "a(")) (exemptSteps ++ [.outcome]))[2]? = some p ∧
      p.request.isRead = true ∧ p.reports.length = 1 := by
  obtain ⟨f, hmade, hall⟩ := @session_stateless withId (by decide +kernel)
  obtain ⟨⟨p, hentry, h⟩, hlength⟩ := hall (some "a(") exemptSteps .outcome []
  refine ⟨f, p, hmade, hentry, h.isRead_after.mpr (.inr trivial), ?_⟩
  rw [h.reports_first not_consulted_exemptSteps trivial, hlength]
  rfl

end PartialResponse.Http
