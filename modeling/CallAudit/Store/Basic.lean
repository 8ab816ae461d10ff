/-
CallAudit.Store.Basic — what is stored: rules, calls, recordings and jobs.

* `RuleEntry`, `Call`, `Recording`, `Row` — the entries.
* `Store` — all of them. Rules and jobs are numbered from one on, and no
  number is given twice.
* `RuleEntry.resumeAt` — where a rule resumes: at its watermark once it has
  one, at its start before.
* `addRule`, `addCall`, `addJob` — new entries. Times are kept to the
  microsecond.
-/
import CallAudit.Job.Params
import CallAudit.Json.Stored
import CallAudit.Rule

namespace CallAudit

open CallAudit.Json (Stored)
open CallAudit.Time (Instant)

/-! ## Entries -/

/-- A rule as it is stored. -/
structure RuleEntry where
  id : Int
  domain : Int
  name : String
  enabled : Bool
  direction : Option String
  /-- The token of its language profile. -/
  token : Option String
  /-- The properties of its cognitive profile. -/
  cognitive : Option Stored
  /-- Where it starts. -/
  start : Instant
  minDuration : Int
  target : Option String
  defaultPrompt : Option String
  saveExplanation : Bool
  scorecard : Option Int
  /-- The newest of its calls whose jobs are done and gone. -/
  watermark : Option Instant
deriving Repr, Inhabited

/-- A call that is over. -/
structure Call where
  id : String
  domain : Int
  parent : Option String
  storedAt : Option Instant
  direction : Option String
  talkSeconds : Int
  payload : Option Stored
deriving Repr, Inhabited

/-- A recording of a call. -/
structure Recording where
  id : Int
  domain : Int
  call : String
deriving DecidableEq, Repr, Inhabited

/-- A job as it is stored. Its tag and its state are numbers that need not
stand for anything, and its parameters may be any value that can be stored,
whether or not it can be read. -/
structure Row where
  id : Int
  rule : Int
  tag : Int
  state : Int
  params : Stored
  storedAt : Instant
deriving Repr, Inhabited

/-- What is stored. -/
structure Store where
  rules : List RuleEntry := []
  calls : List Call := []
  recordings : List Recording := []
  jobs : List Row := []
  /-- The number of the next job. -/
  nextJob : Int := 1
deriving Repr, Inhabited

/-! ## Rules -/

namespace RuleEntry

/-- Where a rule resumes. -/
def resumeAt (r : RuleEntry) : Instant :=
  r.watermark.getD r.start

/-- The key of the cognitive profile. -/
def cognitiveKey (r : RuleEntry) : Option String :=
  r.cognitive.bind (Stored.memberText "key")

/-- A rule with the number of its jobs, as the enqueuer sees it. -/
def view (r : RuleEntry) (active : Int) : Rule :=
  { id := r.id, domain := r.domain, name := r.name, direction := r.direction
    minDuration := r.minDuration, resumeAt := r.resumeAt, target := r.target
    defaultPrompt := r.defaultPrompt, saveExplanation := r.saveExplanation
    scorecard := r.scorecard, token := r.token, cognitiveKey := r.cognitiveKey, active }

end RuleEntry

/-! ## New entries -/

namespace Store

/-- A new rule. Its number is the next one. -/
def addRule (s : Store) (r : RuleEntry) : Store × Int :=
  let id : Int := s.rules.length + 1
  let r := { r with id, start := r.start.stored, watermark := r.watermark.map Instant.stored }
  ({ s with rules := s.rules ++ [r] }, id)

/-- A rule is enabled or disabled. -/
def enableRule (s : Store) (id : Int) (enabled : Bool) : Store :=
  { s with rules := s.rules.map fun r => if r.id = id then { r with enabled } else r }

/-- A new call. -/
def addCall (s : Store) (c : Call) : Store :=
  { s with calls := s.calls ++ [{ c with storedAt := c.storedAt.map Instant.stored }] }

/-- A new recording of a call. Its number is the next one. -/
def addRecording (s : Store) (domain : Int) (call : String) : Store :=
  { s with recordings := s.recordings ++ [⟨s.recordings.length + 1, domain, call⟩] }

/-- A new job. Its number is the next one. -/
def addJob (s : Store) (rule tag state : Int) (params : Stored) (storedAt : Instant) :
    Store × Int :=
  ({ s with
      jobs := s.jobs ++ [⟨s.nextJob, rule, tag, state, params, storedAt.stored⟩]
      nextJob := s.nextJob + 1 },
    s.nextJob)

end Store

end CallAudit
