/-
CallAudit.Gauge — what a worker tells of itself.

* `Gauge` — how many jobs, calls and workers are where.
* `Gauge.value`, `Gauge.exposition` — as JSON and in the text format of
  a metrics collector.
* `answerTo` — the answer to a request for one of the pages.
-/
import CallAudit.Admission
import CallAudit.Store.Connection
import CallAudit.Workers.Pool

namespace CallAudit

open CallAudit.Json (Value)

/-- How many jobs, calls and workers are where. -/
structure Gauge where
  callsInHand : Nat
  busy : Nat
  workers : Nat
  total : Store.Tally
  perRule : List Store.Counts
deriving DecidableEq, Repr

namespace Gauge

/-- A reading, if the store answers. -/
def read {τ : Type} (c : Connection) (g : Guard) (p : Workers.Pool τ) : Except Trouble Gauge :=
  (c.countsByRule).1.map fun perRule =>
    { callsInHand := g.size, busy := p.busy, workers := p.workers
      total := Store.Counts.total perRule, perRule }

/-- A tally as members of an object. -/
def tallyMembers (t : Store.Tally) : List (String × Value) :=
  [("queued", .int t.queued), ("in_progress", .int t.inProgress), ("done", .int t.done)]

/-- A reading as JSON, with the time at which it was taken. -/
def value (now : Time.Instant) (g : Gauge) : Value :=
  .object
    [("now_utc", .string now.zulu),
     ("in_flight_calls", .int g.callsInHand),
     ("busy_workers", .int g.busy),
     ("workers", .int g.workers),
     ("totals", .object (tallyMembers g.total)),
     ("per_rule", .array (g.perRule.map fun c =>
       .object (("rule_id", .int c.rule) :: tallyMembers c.tally)))]

/-- One number of a reading with what it stands for. -/
def series (name help : String) (n : Int) : String :=
  "# HELP " ++ name ++ " " ++ help ++ "\n# TYPE " ++ name ++ " gauge\n" ++ name ++ " "
    ++ String.ofList (Json.intText n) ++ "\n"

/-- A reading in the text format of a metrics collector. -/
def exposition (g : Gauge) : String :=
  series "call_audit_jobs_queued" "Jobs waiting to be claimed" g.total.queued
    ++ series "call_audit_jobs_in_progress" "Claimed jobs not yet done" g.total.inProgress
    ++ series "call_audit_jobs_done" "Done jobs awaiting the reaper" g.total.done
    ++ series "call_audit_calls_in_flight" "Calls being processed by this instance" g.callsInHand
    ++ series "call_audit_workers_busy" "Busy pool workers" g.busy

/-! ## Pages -/

/-- What a page holds. -/
inductive Content where
  | nothing
  | text (s : String)
  | json (v : Value)

/-- A page with its status. -/
structure Page where
  status : Nat
  content : Content

/-- The content type of a page. -/
def Content.type? : Content → Option String
  | nothing => none
  | text _ => some "text/plain; charset=utf-8"
  | json _ => some "application/json"

/-- The page of a path, if there is one. -/
def page? (now : Time.Instant) (reading : Except Trouble Gauge) (path : String) : Option Page :=
  if path = "/health" then some ⟨200, .text "ok"⟩
  else if path = "/metrics" then
    some (match reading with
      | .ok g => ⟨200, .json (g.value now)⟩
      | .error t => ⟨500, .text ("internal error: " ++ t.message)⟩)
  else if path = "/metrics/prom" then
    some (match reading with
      | .ok g => ⟨200, .text g.exposition⟩
      | .error t => ⟨500, .text ("metrics error: " ++ t.message)⟩)
  else none

/-- The answer to a request. Pages can only be looked at. -/
def answerTo (now : Time.Instant) (reading : Except Trouble Gauge) (method path : String) : Page :=
  match page? now reading path with
  | none => ⟨404, .nothing⟩
  | some page => if method = "GET" ∨ method = "HEAD" then page else ⟨405, .nothing⟩

end Gauge

end CallAudit
