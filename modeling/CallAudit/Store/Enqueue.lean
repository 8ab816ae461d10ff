/-
CallAudit.Store.Enqueue — making jobs of calls.

* `eligible` — whether a rule wants a call audited that it has no job for.
* `backlog` — the calls a rule wants, the oldest first.
* `enqueueFor` — jobs for the oldest calls a rule wants.
* `runnable` — the rules that may be given jobs.
* `enqueueAll` — jobs for all of these rules.
-/
import CallAudit.Job.Basic
import CallAudit.Store.Basic

namespace CallAudit

open CallAudit.Json (Stored)
open CallAudit.Time (Instant)

namespace Store

/-! ## The calls a rule wants -/

/-- The recording of a call in its domain. Of several it is the first. -/
def recordingOf? (s : Store) (c : Call) : Option Int :=
  (s.recordings.find? fun f => f.domain = c.domain && f.call = c.id).map (·.id)

/-- Whether a rule has a job for a call, whatever its state. -/
def hasJob (s : Store) (rule : Int) (call : String) : Bool :=
  s.jobs.any fun j => j.rule = rule && j.params.memberText "call_id" = some call

/-- Whether a call has a field. A field that is null is there. -/
def hasField (c : Call) (name : String) : Bool :=
  (c.payload.bind (Stored.get? name)).isSome

/-- Whether a call passes the filters of a rule that do not change: domain,
no parent, duration, direction and target field. -/
def passes (r : Rule) (c : Call) : Bool :=
  c.domain = r.domain && c.parent.isNone && r.minDuration < c.talkSeconds
    && (r.directionFilter.all fun d => c.direction = some d)
    && (r.targetField.all fun name => !hasField c name)

/-- A call a rule wants audited, with its recording. -/
structure Wanted where
  call : Call
  storedAt : Instant
  recording : Int

/-- A call, if a rule wants it audited: it passes the filters, was stored
after the point where the rule resumes, has a recording, and the rule has
no job for it. -/
def wanted? (s : Store) (r : Rule) (c : Call) : Option Wanted := do
  let storedAt ← c.storedAt
  let recording ← s.recordingOf? c
  if passes r c && r.resumeAt < storedAt && !s.hasJob r.id c.id then
    some ⟨c, storedAt, recording⟩
  else none

/-- Whether a rule wants a call audited. -/
def eligible (s : Store) (r : Rule) (c : Call) : Bool :=
  (s.wanted? r c).isSome

/-- The calls a rule wants audited, the oldest first. -/
def backlog (s : Store) (r : Rule) : List Wanted :=
  (s.calls.filterMap (s.wanted? r)).mergeSort fun a b => a.storedAt ≤ b.storedAt

/-! ## Jobs for a rule -/

/-- The parameters of a job as they are stored. -/
def paramsFor (r : Rule) (w : Wanted) (position : Int) : Stored :=
  .objectOf
    [("call_id", .string w.call.id),
     ("file_id", .int w.recording),
     ("stored_at", .string w.storedAt.offsetText),
     ("position", .int position),
     ("from", .string r.resumeAt.offsetText),
     ("min_call_duration", .int r.minDuration),
     ("call_direction", .ofOption .string r.directionFilter),
     ("token", .ofOption .string r.token),
     ("cognitive_key", .ofOption .string r.cognitiveKey),
     ("default_prompt", .ofOption .string r.defaultPrompt),
     ("save_explanation", .bool r.saveExplanation),
     ("variable", .ofOption .string r.targetField),
     ("scorecard", .ofOption .int r.scorecard)]

/-- Jobs for calls, numbered from `id` on; their positions are counted from
`position` on. -/
def rowsFor (r : Rule) (id position : Int) : List Wanted → List Row
  | [] => []
  | w :: rest =>
    { id, rule := r.id, tag := (Kind.ofForm r.scorecard).tag, state := Progress.queued.tag
      params := paramsFor r w position, storedAt := w.storedAt }
      :: rowsFor r (id + 1) (position + 1) rest

/-- The calls that are made jobs of: the oldest a rule wants, up to a
limit. -/
def chosen (s : Store) (r : Rule) (limit : Int) : List Wanted :=
  (s.backlog r).take limit.toNat

/-- Jobs for the oldest calls a rule wants, up to a limit, and their
number. -/
def enqueueFor (s : Store) (r : Rule) (limit : Int) : Store × Nat :=
  let rows := rowsFor r s.nextJob 1 (s.chosen r limit)
  ({ s with jobs := s.jobs ++ rows, nextJob := s.nextJob + rows.length }, rows.length)

/-! ## Jobs for all rules -/

/-- The number of jobs of a rule, at any state. -/
def activeOf (s : Store) (rule : Int) : Nat :=
  s.jobs.countP (·.rule = rule)

/-- The enabled rules with fewer jobs than a ceiling, the one that resumes
latest first. -/
def runnable (s : Store) (ceiling : Int) : List Rule :=
  (((s.rules.filter (·.enabled)).map fun r => r.view (s.activeOf r.id)).filter
    (·.active < ceiling)).mergeSort fun a b => b.resumeAt ≤ a.resumeAt

/-- What came of a pass over the rules. -/
structure Pass where
  rules : Nat
  inserted : Nat := 0
  failed : Nat := 0
deriving DecidableEq, Repr

/-- Every rule that may be given jobs is given as many as it has room for. -/
def enqueueAll (s : Store) (ceiling : Int) : Store × Pass :=
  let rules := s.runnable ceiling
  rules.foldl
    (fun (s, pass) r =>
      let (s, n) := s.enqueueFor r (r.headroom ceiling)
      (s, { pass with inserted := pass.inserted + n }))
    (s, { rules := rules.length })

end Store

end CallAudit
