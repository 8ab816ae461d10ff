/-
CallAudit.Settings.Basic — what a worker is told at its start.

* `Endpoints` — where the services of the call history are. A template has
  a place for the identifier of a call, a transcript or a form.
* `ModelSettings` — how the language model is reached and asked.
* `AuditSettings` — how a call is audited.
* `RoundSettings` — how often and how much is enqueued, claimed and
  reaped.
* `Settings` — all of it.
-/
import CallAudit.Number.Binary
import CallAudit.Time.Instant

namespace CallAudit

open CallAudit.Number (Binary)
open CallAudit.Time (Span)

/-- Where the services of the call history are. -/
structure Endpoints where
  transcript : String
  history : String
  phrases : String
  patch : String
  form : String
  rate : String
deriving DecidableEq, Repr, Inhabited

/-- How the language model is reached and asked. -/
structure ModelSettings where
  baseUrl : String := "https://api.openai.com/v1"
  key : Option String := none
  model : String := "gpt-4o"
  temperature : Option Binary := none
  timeout : Span := .seconds 30
deriving DecidableEq, Repr, Inhabited

/-- How a call is audited. -/
structure AuditSettings where
  categories : List String := []
  delayBeforePoll : Span := .seconds 1
  delayBetweenPolls : Span := .seconds 10
  polls : Nat := 5
deriving DecidableEq, Repr, Inhabited

/-- How often and how much is enqueued, claimed and reaped. -/
structure RoundSettings where
  enqueueEvery : Span := .seconds 10
  claimEvery : Span := .seconds 1
  reapEvery : Span := .seconds 1
  batch : Int := 10
  ceiling : Int := 100
  grace : Span := .seconds 30
deriving DecidableEq, Repr, Inhabited

/-- The settings of a worker. -/
structure Settings where
  database : String
  /-- The name of the worker; one is made up if it has none. -/
  workerName : Option String
  adminAddress : Option String
  migrates : Bool
  logFilter : String
  endpoints : Endpoints
  accessToken : Option String
  timeout : Span
  model : ModelSettings
  audit : AuditSettings
  rounds : RoundSettings
  workers : Nat
  depth : Nat
deriving DecidableEq, Repr, Inhabited

end CallAudit
