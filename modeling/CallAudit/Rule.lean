/-
CallAudit.Rule — audit rules as the enqueuer sees them.

* `Rule` — a rule with the point it resumes from and the number of its
  jobs.
* `directionFilter`, `targetField` — its filters; a blank one is none.
* `headroom` — how many jobs it may be given.
-/
import CallAudit.Text.Blank
import CallAudit.Time.Instant

namespace CallAudit

open CallAudit.Time (Instant)

/-- A rule. -/
structure Rule where
  id : Int
  domain : Int
  name : String
  direction : Option String
  minDuration : Int
  /-- The point it resumes from: its watermark, or its start if it has none
  yet. -/
  resumeAt : Instant
  target : Option String
  defaultPrompt : Option String
  saveExplanation : Bool
  scorecard : Option Int
  token : Option String
  cognitiveKey : Option String
  /-- The number of its jobs, at any stage. -/
  active : Int
deriving DecidableEq, Repr, Inhabited

namespace Rule

/-- The direction a call has to have. -/
def directionFilter (r : Rule) : Option String :=
  r.direction.bind Text.nonBlank

/-- The field that marks a call as audited already. -/
def targetField (r : Rule) : Option String :=
  r.target.bind Text.nonBlank

/-- How many more jobs the rule may have. -/
def headroom (r : Rule) (ceiling : Int) : Int :=
  max 0 (ceiling - r.active)

end Rule

end CallAudit
