/-
CallAudit.Audit.Basic — the audit of a call, from its transcript to what is
delivered.

* `Delivery`, `Outcome` — what an audit delivers and how it can end.
* `Auditor` — what an audit needs: the services, the model and how it is
  to be done.
* `Auditor.audit` — the audit of a call as a conversation with services:
  the call is to be transcribed, the transcript is waited for, its phrases
  are fetched, and the call is summed up or scored.
* `Receipt`, `receive` — whether a job is taken at all: it has to name a
  call, and the call must not be in hand already.
-/
import CallAudit.Admission
import CallAudit.CallHistory
import CallAudit.Instruction
import CallAudit.Job.Basic
import CallAudit.LanguageModel
import CallAudit.Verdict.Summary

namespace CallAudit

open CallAudit.Http (Session)
open CallAudit.CallHistory (Transcript)

/-! ## How an audit ends -/

/-- The stages of an audit. -/
inductive Stage where
  | transcript
  | phrases
  | form
  | model
  | delivery
deriving DecidableEq, Repr

namespace Stage

/-- The name of a stage. -/
def name : Stage → String
  | transcript => "transcript"
  | phrases => "phrases"
  | form => "scorecard_form"
  | model => "llm"
  | delivery => "delivery"

/-- All stages in their order. -/
def all : List Stage := [transcript, phrases, form, model, delivery]

end Stage

/-- What an audit delivers. -/
inductive Delivery where
  | summary (summary category : String)
  | scorecard (form : Int) (scores : Verdict.Scores)
deriving DecidableEq, Repr

/-- Why a job is not taken. -/
inductive Rejection where
  | noParams
  | noCall
deriving DecidableEq, Repr

/-- How the audit of a job ends. -/
inductive Outcome where
  | delivered (d : Delivery)
  | rejected (r : Rejection)
  | inHand (call : String)
  | abandoned (stage : Stage) (failure : Failure)
deriving DecidableEq, Repr

namespace Outcome

/-- Whether something was delivered. -/
def isDelivered : Outcome → Bool
  | delivered _ => true
  | _ => false

/-- The name of an outcome. -/
def label : Outcome → String
  | delivered _ => "delivered"
  | rejected _ => "rejected"
  | inHand _ => "already_processing"
  | abandoned .. => "abandoned"

/-- The outcome of an audit that was taken. -/
def ofResult : Except (Stage × Failure) Delivery → Outcome
  | .ok d => delivered d
  | .error (stage, failure) => abandoned stage failure

end Outcome

/-! ## The audit of a call -/

/-- What an audit needs. -/
structure Auditor where
  services : Services
  model : ModelSettings
  settings : AuditSettings

/-- The variable that holds the summary of a call. -/
def summaryVariable : String := "aiSummary"

/-- The variable that holds the category of a call. -/
def categoryVariable : String := "aiCategory"

/-- The variables that a summary sets: the category, the summary, and the
summary once more in the field the rule marks audited calls by, if that is
another one. -/
def summaryVariables (p : Params) (summary category : String) : List (String × String) :=
  let target := (p.target.bind Text.nonBlank).filter fun name =>
    name ≠ summaryVariable && name ≠ categoryVariable
  [(categoryVariable, category), (summaryVariable, summary)]
    ++ (target.map fun name => (name, summary)).toList

/-- The result of an audit so far. -/
abbrev Result (α : Type) := Except (Stage × Failure) α

/-- What comes after a step that succeeded; a failure is the end, at the
stage of the step. -/
def thenAt {α β : Type} (stage : Stage) (step : Session (Except Failure α))
    (next : α → Session (Result β)) : Session (Result β) :=
  step.bind fun
    | .ok a => next a
    | .error f => .done (.error (stage, f))

namespace Auditor

variable (a : Auditor)

/-- The history is searched for the transcript of a call at most `n` times,
with a delay before each search. A search that fails is no transcript. -/
def poll (call : String) : Nat → Time.Span → Session (Option Transcript)
  | 0, _ => .done none
  | n + 1, delay =>
    (CallHistory.findTranscript a.services call delay).bind fun
      | .ok (some t) => .done (some t)
      | _ => poll call n a.settings.delayBetweenPolls

/-- The number of searches for a transcript. There is always one. -/
def attempts : Nat :=
  max 1 a.settings.polls

/-- A call is to be transcribed, and its transcript is waited for. Should
the first request fail, the transcript may still be there. -/
def awaitTranscript (call : String) : Session (Except Failure Transcript) :=
  (CallHistory.createTranscript a.services call).bind fun _ =>
    (a.poll call a.attempts a.settings.delayBeforePoll).bind fun
      | some t => .done (.ok t)
      | none => .done (.error (.notReady a.attempts))

/-- The reply of the model to instructions and a question. -/
def askModel (p : Params) (system user : String) : Session (Except Failure String) :=
  (LanguageModel.complete a.model p.token system user).bind fun reply =>
    .done (reply.mapError .model)

/-- A call is scored by a form. -/
def score (p : Params) (call : String) (form : Int) (dialogue : String) :
    Session (Result Delivery) :=
  thenAt .form (CallHistory.fetchForm a.services form) fun questions =>
    thenAt .model
      (a.askModel p Instruction.scorecardSystem
        (Instruction.scorecard dialogue questions p.explains)) fun reply =>
      let scores := Verdict.Scores.read reply
      if scores.isEmpty then .done (.error (.model, .emptyReply))
      else
        thenAt .delivery (CallHistory.rate a.services call form scores) fun _ =>
          .done (.ok (.scorecard form scores))

/-- A call is summed up. -/
def sumUp (p : Params) (call : String) (dialogue : String) : Session (Result Delivery) :=
  thenAt .model
    (a.askModel p Instruction.summarySystem
      (Instruction.summary dialogue a.settings.categories p.defaultPrompt)) fun reply =>
    let found := Verdict.Summary.read reply
    if found.isEmpty then .done (.error (.model, .emptyReply))
    else
      let summary := found.summary.getD ""
      let category := found.category.getD ""
      thenAt .delivery
        (CallHistory.patch a.services call (summaryVariables p summary category)) fun _ =>
        .done (.ok (.summary summary category))

/-- The audit of a call. -/
def audit (p : Params) (call : String) : Session (Result Delivery) :=
  thenAt .transcript (a.awaitTranscript call) fun t =>
    thenAt .phrases (CallHistory.fetchPhrases a.services t.id) fun phrases =>
      let dialogue := Conversation.dialogue t.parties phrases
      match p.form? with
      | some form => a.score p call form dialogue
      | none => a.sumUp p call dialogue

/-- The audit of a call up to its outcome. -/
def conduct (p : Params) (call : String) : Session Outcome :=
  (a.audit p call).bind fun result => .done (.ofResult result)

end Auditor

/-! ## Taking a job -/

/-- Whether a job is taken: it ends at once, or its call is in hand from
now on. -/
inductive Receipt where
  | declined (o : Outcome)
  | taken (p : Params) (g : Guard)

/-- A job is looked at. -/
def receive (g : Guard) (job : Job) : Receipt :=
  match job.params with
  | none => .declined (.rejected .noParams)
  | some p =>
    if p.namesCall then
      match g.admit? p.call with
      | some g => .taken p g
      | none => .declined (.inHand p.call)
    else .declined (.rejected .noCall)

end CallAudit
