/-
CallAudit.Audit.Desk — audits of many jobs that share one guard.

* `Run` — a job on its way: not yet looked at, under audit with its call
  in hand, or ended.
* `Desk` — the guard and the runs.
* `Desk.step` — one step of one run: the job is looked at, a reply comes
  in, or the audit is over and its call is released.
* `Desk.finish` — a run brought to its end.
-/
import CallAudit.Audit.Basic

namespace CallAudit

open CallAudit.Http (Session Request Reply)

/-- A job on its way. -/
inductive Run where
  | new (job : Job)
  | underway (call : String) (rest : Session Outcome)
  | ended (o : Outcome)

namespace Run

/-- How a run ended, if it has. -/
def outcome? : Run → Option Outcome
  | ended o => some o
  | _ => none

/-- The request that a run waits for a reply to. -/
def request? : Run → Option Request
  | underway _ (.ask _ r _) => some r
  | _ => none

/-- One step of a run on a guard; `reply` is the reply to the request it
waits for. A run that has ended takes no more steps. -/
def step (a : Auditor) (g : Guard) (reply : Reply) : Run → Run × Guard
  | new job =>
    match receive g job with
    | .declined o => (ended o, g)
    | .taken p g => (underway p.call (a.conduct p p.call), g)
  | underway call (.ask _ _ next) => (underway call (next reply), g)
  | underway call (.done o) => (ended o, g.release call)
  | ended o => (ended o, g)

/-- All the steps of a run, one after the other, with services that have a
state. -/
def finish {σ : Type} (a : Auditor) (serve : σ → Request → Reply × σ) (s : σ) (g : Guard) :
    Run → Run × Guard × σ
  | new job =>
    match receive g job with
    | .declined o => (ended o, g, s)
    | .taken p g =>
      let (o, s) := (a.conduct p p.call).run serve s
      (ended o, g.release p.call, s)
  | underway call rest =>
    let (o, s) := rest.run serve s
    (ended o, g.release call, s)
  | ended o => (ended o, g, s)

end Run

/-- A guard and the runs that share it. -/
structure Desk where
  guard : Guard
  runs : List Run

namespace Desk

/-- A desk with jobs that nobody has looked at. -/
def open_ (g : Guard) (jobs : List Job) : Desk :=
  ⟨g, jobs.map .new⟩

/-- One step of the run at a place. -/
def step (d : Desk) (a : Auditor) (i : Nat) (reply : Reply) : Desk :=
  match d.runs[i]? with
  | some run =>
    let (run, guard) := run.step a d.guard reply
    ⟨guard, d.runs.set i run⟩
  | none => d

/-- The run at a place brought to its end. -/
def finish {σ : Type} (d : Desk) (a : Auditor) (serve : σ → Request → Reply × σ) (s : σ)
    (i : Nat) : Desk × σ :=
  match d.runs[i]? with
  | some run =>
    let (run, guard, s) := run.finish a serve s d.guard
    (⟨guard, d.runs.set i run⟩, s)
  | none => (d, s)

end Desk

end CallAudit
