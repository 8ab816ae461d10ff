/-
CallAudit.Proofs.Audit.Steps — the steps of an audit with all that is said
in them.

A protocol says which errands are done and in which order. Here it is said
what is asked and answered in each, down to the text: one lemma for each step
of an audit, each with the exchanges of the step and with what the next one
is given.

* `Auditor.summaryQuestion` and the other requests by which a call is summed
  up or scored.
* `told_of_goes`, `accepted_of_goes` — what is fetched and what is handed
  in.
* `found_of_goes`, `awaited_of_goes` — the search whose reply is used is the
  last one.
* `SumsUp` — how a call is summed up, in the five ways in which it can end;
  `scored_of_goes` — how a call is scored.
* `Consults`, `summing_of_audit` — an audit without a form up to the question
  that is put to the model.
-/
import CallAudit.Proofs.Audit.Protocol
import CallAudit.Proofs.Results
import CallAudit.Proofs.Verdict.Labels

namespace CallAudit

open CallAudit.Http (Exchange Method Reply Request Session noted)
open CallAudit.Json (Decoder Value)
open CallAudit.CallHistory (Transcript)
open CallAudit.Verdict (Scores Summary)

/-! ## Requests -/

namespace Auditor

/-- What the model is asked about a call that is summed up. -/
def summaryQuestion (a : Auditor) (p : Params) (key dialogue : String) : Request :=
  LanguageModel.chatRequest a.model key Instruction.summarySystem
    (Instruction.summary dialogue a.settings.categories p.defaultPrompt)

/-- The request by which a summary and a category are handed in. -/
def summaryRequest (a : Auditor) (p : Params) (call summary category : String) : Request :=
  CallHistory.requestTo a.services .patch
    (Text.fill a.services.endpoints.patch "\x7buuid\x7d" call)
    (some (CallHistory.patchBody (summaryVariables p summary category)))

/-- The request for a form. -/
def formRequest (a : Auditor) (form : Int) : Request :=
  CallHistory.requestTo a.services .get
    (Text.fill a.services.endpoints.form "\x7bid\x7d" (String.ofList (Json.intText form))) none

/-- What the model is asked about a call that is scored by a form. -/
def scoresQuestion (a : Auditor) (p : Params) (key dialogue : String) (questions : Form) :
    Request :=
  LanguageModel.chatRequest a.model key Instruction.scorecardSystem
    (Instruction.scorecard dialogue questions p.explains)

/-- The request by which scores are handed in. -/
def ratingRequest (a : Auditor) (call : String) (form : Int) (scores : Scores) : Request :=
  CallHistory.requestTo a.services .post a.services.endpoints.rate
    (some (scores.rating call form))

end Auditor

/-! ## Single steps -/

section Steps

variable {a : Auditor} {p : Params} {call dialogue : String} {log : List Exchange}
  {r : Result Delivery} {d : Delivery}

/-- A delivery is made only if every step before it succeeded. -/
theorem ok_of_thenAt {α : Type} {stage : Stage} {step : Session (Except Failure α)}
    {next : α → Session (Result Delivery)} (h : (thenAt stage step next).Goes log (.ok d)) :
    ∃ before v after, log = before ++ after ∧ step.Goes before (.ok v)
      ∧ (next v).Goes after (.ok d) := by
  rcases goes_thenAt h with ⟨f, -, hr⟩ | hgoes
  · cases hr
  · exact hgoes

/-- What is fetched is what the body of a successful answer denotes. -/
theorem told_of_goes {α : Type} {what url : String} {method : Method} {body : Option Value}
    {decoder : Decoder α} {v : α}
    (h : (CallHistory.call a.services what method url body (CallHistory.decode what decoder)).Goes
      log (.ok v)) :
    ∃ reply, log = [(CallHistory.requestTo a.services method url body, reply)]
      ∧ Errand.told decoder reply = some v := by
  obtain ⟨reply, rfl, hok⟩ := Session.goes_request.mp h
  refine ⟨reply, rfl, ?_⟩
  rw [Errand.told_eq what, ← hok]
  rfl

/-- What is handed in is accepted if its answer is a success. -/
theorem accepted_of_goes {what url : String} {method : Method} {body : Option Value}
    {r : Except Failure Unit}
    (h : (CallHistory.call a.services what method url body fun _ => .ok ()).Goes log r) :
    ∃ reply, log = [(CallHistory.requestTo a.services method url body, reply)]
      ∧ reply.any (·.isSuccess) = r.toOption.isSome := by
  obtain ⟨reply, rfl, rfl⟩ := Session.goes_request.mp h
  exact ⟨reply, rfl, Errand.isSuccess_eq what reply⟩

/-- The text of the model is that of its first choice. -/
theorem choices_of_contentOf {reply : Reply} {text : String}
    (h : LanguageModel.contentOf reply = .ok text) :
    ∃ others, Errand.told LanguageModel.choices reply = some (some text :: others) := by
  have hfirst := Errand.contentOf_eq reply
  rw [h] at hfirst
  obtain ⟨choices, hchoices, hfirst⟩ := Option.bind_eq_some_iff.mp hfirst
  obtain ⟨hhead, -⟩ := Option.filter_eq_some_iff.mp hfirst
  cases choices with
  | nil => cases hhead
  | cons choice others =>
    obtain rfl : choice = some text := hhead
    exact ⟨others, hchoices⟩

/-! ## Waiting for the transcript -/

/-- The transcript is that of the last search, and no search before it told
of one. -/
theorem found_of_goes {t : Transcript} : ∀ (n : Nat) (delay : Time.Span) (log : List Exchange),
    (a.poll p.call n delay).Goes log (some t) →
    ∃ missed x, log = missed ++ [x] ∧ Errand.search.Asks a p x.1 ∧ transcriptIn x.2 = some t
      ∧ ∀ y ∈ missed, Errand.search.Asks a p y.1 ∧ transcriptIn y.2 = none
  | 0, _, _ => by
      rintro ⟨-, hnone⟩
      cases hnone
  | n + 1, delay, log => by
      intro h
      obtain ⟨before, r, after, rfl, hfind, hafter⟩ := Session.goes_bind.mp h
      obtain ⟨x, rfl, hasks, htold⟩ := goes_findTranscript hfind
      split at hafter
      · -- found
        obtain ⟨rfl, ht⟩ := hafter
        exact ⟨[], x, rfl, hasks, by rw [htold, ht]; rfl, by simp⟩
      · rename_i hmissing
        have hnone : transcriptIn x.2 = none := by
          rw [htold]
          cases r with
          | error f => rfl
          | ok found =>
            cases found with
            | none => rfl
            | some t => exact absurd rfl (hmissing t)
        obtain ⟨missed, y, rfl, hy, hfound, hmissed⟩ := found_of_goes n _ after hafter
        exact ⟨x :: missed, y, rfl, hy, hfound, List.forall_mem_cons.mpr ⟨⟨hasks, hnone⟩, hmissed⟩⟩

/-- A transcript is there once a search has told of it. -/
theorem awaited_of_goes {t : Transcript} (h : (a.awaitTranscript p.call).Goes log (.ok t)) :
    ∃ create missed x, log = create :: (missed ++ [x]) ∧ Errand.transcribe.Asks a p create.1
      ∧ Errand.search.Asks a p x.1 ∧ transcriptIn x.2 = some t
      ∧ ∀ y ∈ missed, Errand.search.Asks a p y.1 ∧ transcriptIn y.2 = none := by
  obtain ⟨create, polls, found, rfl, hcreate, ⟨delay, hpoll⟩, ⟨-, hr⟩ | ⟨_, rfl, hr⟩⟩ :=
    goes_awaitTranscript h
  · cases hr
  · obtain rfl := Except.ok.inj hr
    obtain ⟨missed, x, rfl, hasks, hfound, hmissed⟩ := found_of_goes _ delay polls hpoll
    exact ⟨create, missed, x, rfl, hcreate, hasks, hfound, hmissed⟩

/-! ## Summing up and scoring -/

/-- How a call is summed up: what is exchanged, and what comes of it. -/
inductive SumsUp (a : Auditor) (p : Params) (call dialogue : String) :
    List Exchange → Result Delivery → Prop where
  | keyless : LanguageModel.keyFor? a.model p.token = none →
      SumsUp a p call dialogue [] (.error (.model, .model .noKey))
  | unheard {key : String} {reply : Reply} (f : ModelFailure) :
      LanguageModel.keyFor? a.model p.token = some key →
      LanguageModel.contentOf reply = .error f →
      SumsUp a p call dialogue [(a.summaryQuestion p key dialogue, reply)]
        (.error (.model, .model f))
  | unlabelled {key text : String} {reply : Reply} :
      LanguageModel.keyFor? a.model p.token = some key →
      LanguageModel.contentOf reply = .ok text → (Summary.read text).isEmpty = true →
      SumsUp a p call dialogue [(a.summaryQuestion p key dialogue, reply)]
        (.error (.model, .emptyReply))
  | refused {key text : String} {reply answer : Reply} (f : Failure) :
      LanguageModel.keyFor? a.model p.token = some key →
      LanguageModel.contentOf reply = .ok text → (Summary.read text).isEmpty = false →
      answer.any (·.isSuccess) = false →
      SumsUp a p call dialogue
        [(a.summaryQuestion p key dialogue, reply),
          (a.summaryRequest p call (Summary.read text).said (Summary.read text).filed, answer)]
        (.error (.delivery, f))
  | accepted {key text : String} {reply answer : Reply} :
      LanguageModel.keyFor? a.model p.token = some key →
      LanguageModel.contentOf reply = .ok text → (Summary.read text).isEmpty = false →
      answer.any (·.isSuccess) = true →
      SumsUp a p call dialogue
        [(a.summaryQuestion p key dialogue, reply),
          (a.summaryRequest p call (Summary.read text).said (Summary.read text).filed, answer)]
        (.ok (.summary (Summary.read text).said (Summary.read text).filed))

theorem sumsUp_of_goes {r : Result Delivery} (h : (a.sumUp p call dialogue).Goes log r) :
    SumsUp a p call dialogue log r := by
  rcases goes_thenAt h with ⟨f, hask, rfl⟩ | ⟨asked, text, after, rfl, hask, hafter⟩
  · rcases asked_of_goes hask with ⟨hkey, rfl, hf⟩ | ⟨key, reply, hkey, rfl, hf⟩
    · obtain rfl := Except.error.inj hf
      exact .keyless hkey
    · cases hc : LanguageModel.contentOf reply with
      | error g =>
        rw [hc] at hf
        obtain rfl := Except.error.inj hf
        exact .unheard g hkey hc
      | ok text =>
        rw [hc] at hf
        cases hf
  · rcases asked_of_goes hask with ⟨-, -, hf⟩ | ⟨key, reply, hkey, rfl, hf⟩
    · cases hf
    have hcontent := mapError_eq_ok.mp hf.symm
    simp only at hafter
    split at hafter
    · rename_i hempty
      obtain ⟨rfl, rfl⟩ := hafter
      exact .unlabelled hkey hcontent hempty
    · rename_i hlabels
      have hlabels : (Summary.read text).isEmpty = false := Bool.eq_false_iff.mpr hlabels
      rcases goes_thenAt hafter with ⟨f, hpatch, rfl⟩ | ⟨patched, u, last, rfl, hpatch, rfl, rfl⟩
      · obtain ⟨answer, rfl, hanswer⟩ := accepted_of_goes hpatch
        exact .refused f hkey hcontent hlabels hanswer
      · obtain ⟨answer, rfl, hanswer⟩ := accepted_of_goes hpatch
        exact .accepted hkey hcontent hlabels hanswer

/-- A reply of the model that is worked with has something in it. -/
theorem replied_of_goes {system user : String} (silent : String → Bool)
    (rest : String → Session (Result Delivery)) {d : Delivery}
    (h : (thenAt .model (a.askModel p system user) fun text =>
      if silent text then .done (.error (.model, .emptyReply)) else rest text).Goes log (.ok d)) :
    ∃ key reply text after,
      log = (LanguageModel.chatRequest a.model key system user, reply) :: after
        ∧ LanguageModel.keyFor? a.model p.token = some key
        ∧ LanguageModel.contentOf reply = .ok text ∧ silent text = false
        ∧ (rest text).Goes after (.ok d) := by
  obtain ⟨_, text, after, rfl, hask, hafter⟩ := ok_of_thenAt h
  rcases asked_of_goes hask with ⟨-, -, hf⟩ | ⟨key, reply, hkey, rfl, hf⟩
  · cases hf
  cases hsilent : silent text with
  | true =>
    simp only [hsilent, if_true] at hafter
    cases hafter.2
  | false =>
    simp only [hsilent, Bool.false_eq_true, if_false] at hafter
    exact ⟨key, reply, text, after, rfl, hkey, mapError_eq_ok.mp hf.symm, hsilent, hafter⟩

/-- A call that is scored: the form is fetched, the model asked and the
rating handed in. -/
theorem scored_of_goes {form : Int} {d : Delivery}
    (h : (a.score p call form dialogue).Goes log (.ok d)) :
    ∃ key questions text scores fetched reply answer,
      log = [(a.formRequest form, fetched), (a.scoresQuestion p key dialogue questions, reply),
          (a.ratingRequest call form scores, answer)]
      ∧ Errand.told Form.decoder fetched = some questions
      ∧ LanguageModel.keyFor? a.model p.token = some key
      ∧ LanguageModel.contentOf reply = .ok text
      ∧ scores = Scores.read text ∧ scores.isEmpty = false
      ∧ answer.any (·.isSuccess) = true ∧ d = .scorecard form scores := by
  obtain ⟨_, questions, _, rfl, hform, hafter⟩ := ok_of_thenAt h
  obtain ⟨fetched, rfl, htold⟩ := told_of_goes hform
  obtain ⟨key, reply, text, _, rfl, hkey, hcontent, hscores, hlast⟩ :=
    replied_of_goes (fun text => (Scores.read text).isEmpty)
      (fun text => thenAt .delivery (CallHistory.rate a.services call form (Scores.read text))
        fun _ => .done (.ok (.scorecard form (Scores.read text)))) hafter
  obtain ⟨_, u, _, rfl, hrate, rfl, hd⟩ := ok_of_thenAt hlast
  obtain ⟨answer, rfl, hanswer⟩ := accepted_of_goes hrate
  exact ⟨key, questions, text, Scores.read text, fetched, reply, answer, rfl, htold, hkey, hcontent,
    rfl, hscores, hanswer, Except.ok.inj hd⟩

/-! ## Up to the model -/

/-- There is one errand that changes a call. -/
theorem Errand.Asks.method {e : Errand} {r : Request} (h : e.Asks a p r) (he : e ≠ .patch) :
    r.method ≠ .patch := by
  cases e with
  | transcribe => rw [h]; simp [CallHistory.requestTo]
  | search => rw [h]; simp [CallHistory.requestTo]
  | phrases => obtain ⟨_, rfl⟩ := h; simp [CallHistory.requestTo]
  | form => obtain ⟨_, -, rfl⟩ := h; simp [CallHistory.requestTo]
  | model => obtain ⟨_, _, _, -, rfl⟩ := h; simp [LanguageModel.chatRequest]
  | patch => exact absurd rfl he
  | rate => obtain ⟨_, _, -, rfl⟩ := h; simp [CallHistory.requestTo]

/-- There is one errand that needs an authorization. -/
theorem Errand.Asks.authorization {e : Errand} {q : Request} (h : e.Asks a p q)
    (he : e ≠ .model) : q.authorization = none := by
  cases e with
  | transcribe | search => rw [h]; rfl
  | phrases | patch => obtain ⟨_, rfl⟩ := h; rfl
  | form => obtain ⟨_, -, rfl⟩ := h; rfl
  | model => exact absurd rfl he
  | rate => obtain ⟨_, _, -, rfl⟩ := h; rfl

/-- An exchange with the call history that changes nothing. -/
def Consults (x : Exchange) : Prop :=
  x.1.authorization = none ∧ x.1.method ≠ .patch

theorem Errand.Asks.consults {e : Errand} {x : Exchange} (h : e.Asks a p x.1) (hpatch : e ≠ .patch)
    (hmodel : e ≠ .model) : Consults x :=
  ⟨h.authorization hmodel, h.method hpatch⟩

theorem consults_of_awaitTranscript {t : Except Failure Transcript}
    (h : (a.awaitTranscript p.call).Goes log t) : ∀ x ∈ log, Consults x := by
  obtain ⟨create, polls, found, rfl, hcreate, ⟨delay, hpoll⟩, -⟩ := goes_awaitTranscript h
  refine List.forall_mem_cons.mpr ⟨hcreate.consults (by decide) (by decide), fun x hx => ?_⟩
  exact ((polls_of_goes _ _ _ _ hpoll).1 x hx).consults (by decide) (by decide)

theorem consults_of_fetchPhrases {t : String} {phrases : Except Failure (List Phrase)}
    (h : (CallHistory.fetchPhrases a.services t).Goes log phrases) : ∀ x ∈ log, Consults x := by
  obtain ⟨reply, rfl, -⟩ := Session.goes_request.mp h
  simp [Consults, CallHistory.requestTo]

/-- Up to the question that is put to the model, an audit only consults the
call history. -/
theorem summing_of_audit (hform : p.form? = none) (h : (a.audit p p.call).Goes log r) :
    ∃ before after, log = before ++ after ∧ (∀ x ∈ before, Consults x)
      ∧ ((after = [] ∧ ∃ e, r = .error e) ∨ ∃ dialogue, SumsUp a p p.call dialogue after r) := by
  rcases goes_thenAt h with ⟨f, hawait, rfl⟩ | ⟨awaited, t, after, rfl, hawait, hafter⟩
  · exact ⟨log, [], by simp, consults_of_awaitTranscript hawait, Or.inl ⟨rfl, _, rfl⟩⟩
  have hawaited := consults_of_awaitTranscript hawait
  rcases goes_thenAt hafter with ⟨f, hfetch, rfl⟩ | ⟨fetched, phrases, rest, rfl, hfetch, hrest⟩
  · refine ⟨awaited ++ after, [], by simp, ?_, Or.inl ⟨rfl, _, rfl⟩⟩
    exact List.forall_mem_append.mpr ⟨hawaited, consults_of_fetchPhrases hfetch⟩
  · simp only [hform] at hrest
    refine ⟨awaited ++ fetched, rest, by simp, ?_, Or.inr ⟨_, sumsUp_of_goes hrest⟩⟩
    exact List.forall_mem_append.mpr ⟨hawaited, consults_of_fetchPhrases hfetch⟩

end Steps

end CallAudit
