/-
CallAudit.Job.Basic — jobs: one call to be audited under one rule.

* `Progress` — how far a job is: queued, in progress or done.
* `Kind` — what is made of the call: a summary or the scores of a form.
* `Job` — a job that was handed out.
* `legible` — of some rows the ones that could be read.
-/
import CallAudit.Job.Params

namespace CallAudit

open CallAudit.Time (Instant)

/-! ## Tags -/

/-- How far a job is. -/
inductive Progress where
  | queued
  | inProgress
  | done
deriving DecidableEq, Repr, Inhabited

namespace Progress

/-- The number a progress is stored as. -/
def tag : Progress → Int
  | queued => 0
  | inProgress => 1
  | done => 3

/-- The progress of a number. -/
def ofTag? (n : Int) : Option Progress :=
  if n = 0 then some queued
  else if n = 1 then some inProgress
  else if n = 3 then some done
  else none

/-- The name of a progress. -/
def name : Progress → String
  | queued => "Queued"
  | inProgress => "InProgress"
  | done => "Done"

end Progress

/-- What is made of a call. -/
inductive Kind where
  | summary
  | scorecard
deriving DecidableEq, Repr, Inhabited

namespace Kind

/-- The number a kind is stored as. -/
def tag : Kind → Int
  | summary => 1
  | scorecard => 2

/-- The kind of a number. -/
def ofTag? (n : Int) : Option Kind :=
  if n = 1 then some summary
  else if n = 2 then some scorecard
  else none

/-- The name of a kind. -/
def name : Kind → String
  | summary => "Summary"
  | scorecard => "Scorecard"

/-- The kind of the jobs of a rule: a rule with a form, other than form
zero, wants its scores. -/
def ofForm (form : Option Int) : Kind :=
  if (form.filter (· ≠ 0)).isSome then scorecard else summary

end Kind

/-! ## Jobs -/

/-- A job that was handed out. Its parameters are missing if they could
not be read. -/
structure Job where
  id : Int
  rule : Int
  tag : Int
  progress : Progress
  params : Option Params
  storedAt : Instant
deriving DecidableEq, Repr, Inhabited

namespace Job

/-- The kind of a job, if its tag is known. -/
def kind? (j : Job) : Option Kind :=
  Kind.ofTag? j.tag

/-- The identifier of the call as the parameters spell it. -/
def callId? (j : Job) : Option String :=
  j.params.map (·.callId)

/-- The parameters in a payload, if they can be read. -/
def paramsOf (payload : Payload) : Option Params :=
  payload.params.toOption

end Job

/-- The rows that could be read, in their order. A row that could not
takes no other row with it. -/
def legible {ε α : Type} (rows : List (Except ε α)) : List α :=
  rows.filterMap Except.toOption

end CallAudit
