/-
CallAudit.Rounds.Shift — a worker at work on its rounds.

* `Shift` — the store, the calls in hand, the workers, and the services as
  a script plays them.
* `enqueueRound`, `reapRound` — one round of enqueueing and of reaping.
* `claimRound` — a batch of jobs is claimed and handed to the workers, and
  each worker goes on until its audit has ended or is held at the gate.
* `openGate` — the answers that were held back come through.
* `close`, `run` — the workers are sent home, and a whole shift.
-/
import CallAudit.Audit.Desk
import CallAudit.Http.Scripted
import CallAudit.Rounds.Dispatch

namespace CallAudit.Rounds

open CallAudit.Http (Scripted Session)
open CallAudit.Workers (Pool Phase)

/-! ## Services with a gate -/

/-- A conversation up to its end, or up to an answer that is held back at
the gate. What is left of it goes on from that answer. -/
def upToGate {α : Type} (isOpen : Bool) : Scripted → Session α → Session α × Bool × Scripted
  | s, .done a => (.done a, false, s)
  | s, .ask _ r next =>
    match s.arrive r with
    | none => upToGate isOpen s (next none)
    | some (route, s) =>
      let reply := Scripted.replyOf route.answer
      if route.gated && !isOpen then (next reply, true, s)
      else upToGate isOpen s (next reply)

/-! ## The shift -/

/-- A worker at work. A task of the pool is the place of a job in `jobs`. -/
structure Shift where
  connection : Connection
  auditor : Auditor
  batch : Int
  ceiling : Int
  guard : Guard := .empty
  pool : Pool Nat
  services : Scripted
  isOpen : Bool := false
  /-- The places of the runs whose answers are held back at the gate. -/
  parked : List Nat := []
  /-- The jobs that were claimed, each with its run. -/
  jobs : List (Job × Run) := []
  /-- The places of the jobs whose runs have ended. -/
  ended : List Nat := []

namespace Shift

/-- A run that has ended: its call is released, its job retired, and its
worker free. -/
def finish (s : Shift) (place : Nat) (job : Job) (o : Outcome) (call : Option String) : Shift :=
  { s with
    guard := call.elim s.guard s.guard.release
    connection := retire s.connection job.id o
    jobs := s.jobs.set place (job, .ended o)
    pool := s.pool.finish place
    ended := s.ended ++ [place] }

/-- A run under audit goes on, up to its end or to an answer that is held
back. -/
def proceed (s : Shift) (place : Nat) (job : Job) (call : String) (rest : Session Outcome) :
    Shift :=
  match upToGate s.isOpen s.services rest with
  | (.done o, false, services) => { s with services }.finish place job o (some call)
  | (rest, _, services) =>
    { s with
      services, jobs := s.jobs.set place (job, .underway call rest), parked := place :: s.parked }

/-- The job at a place is looked at when its task is started: it ends at
once, or its audit is under way. -/
def look (s : Shift) (place : Nat) : Shift :=
  match s.jobs[place]? with
  | some (job, .new _) =>
    match receive s.guard job with
    | .declined o => s.finish place job o none
    | .taken p guard =>
      let run : Run := .underway p.call (s.auditor.conduct p p.call)
      { s with guard, jobs := s.jobs.set place (job, run) }
  | _ => s

/-- The run at a place goes on if it is under way. -/
def work (s : Shift) (place : Nat) : Shift :=
  match s.jobs[place]? with
  | some (job, .underway call rest) => s.proceed place job call rest
  | _ => s

/-- The first run that can go on. -/
def ready? (s : Shift) : Option Nat :=
  s.pool.running.find? fun place => !s.parked.contains place

/-- At most `n` steps, with the tasks `rest` still to be handed over. Tasks
are started and handed over first, so that every job that finds a free
worker is looked at before a run goes on. -/
def settleFor : Nat → List Nat → Shift → Shift
  | 0, _, s => s
  | n + 1, rest, s =>
    match s.pool.accept? with
    | some (_, pool) => settleFor n rest { s with pool }
    | none =>
      match s.pool.take? with
      | some pool => settleFor n rest { s with pool }
      | none =>
        match s.pool.start? with
        | some (place, pool) => settleFor n rest ({ s with pool }.look place)
        | none =>
          match ({ pool := s.pool, rest } : Dispatch Nat).next? with
          | some d => settleFor n d.rest { s with pool := d.pool }
          | none =>
            match s.ready? with
            | some place => settleFor n rest (s.work place)
            | none => s

/-- Tasks are handed over, and everything moves that can: five steps for a
task to be handed over, and one less for each it has taken already. -/
def settle (s : Shift) (rest : List Nat) : Shift :=
  s.settleFor
    (5 * rest.length + 4 * s.pool.waiting.length + 3 * s.pool.queue.length
      + 2 * s.pool.held.toList.length + s.pool.running.length)
    rest

/-! ## Rounds -/

/-- A round of enqueueing. -/
def enqueueRound (s : Shift) : Except Trouble Store.Pass × Shift :=
  let (answer, connection) := s.connection.enqueueAll s.ceiling
  (answer, { s with connection })

/-- A round of reaping. -/
def reapRound (s : Shift) : Except Trouble (List Store.Moved) × Shift :=
  let (answer, connection) := s.connection.reap
  (answer, { s with connection })

/-- A round of claiming: the number of jobs that were handed to the
workers. -/
def claimRound (s : Shift) : Except Trouble Nat × Shift :=
  match s.connection.claim s.batch with
  | (.error t, connection) => (.error t, { s with connection })
  | (.ok claimed, connection) =>
    if s.pool.phase = .serving then
      let first := s.jobs.length
      let jobs := s.jobs ++ claimed.map fun job => (job, Run.new job)
      let places := (List.range claimed.length).map (first + ·)
      (.ok claimed.length, { s with connection, jobs }.settle places)
    else (.ok 0, { s with connection })

/-- The gate is opened: every run that is held there goes on, and so do the
tasks that were behind it. -/
def openGate (s : Shift) : Shift :=
  { s with isOpen := true, parked := [] }.settle []

/-- The workers are sent home: the answer is whether all they had was done.
Nothing that is held at the gate is done by waiting. -/
def close (s : Shift) : Bool × Shift :=
  match s.pool.shutdown with
  | (_, some answer) => (answer, s)
  | (pool, none) =>
    let s := { s with pool }.settle []
    match s.pool.drained? with
    | some pool => (true, { s with pool })
    | none =>
      match s.pool.expire? with
      | some (_, pool) => (false, { s with pool })
      | none => (false, s)

/-- Claiming and reaping until no job is queued, in at most `n` rounds. -/
def drain : Nat → Shift → Shift
  | 0, s => s
  | n + 1, s =>
    if s.connection.store.jobs.any fun j => j.state = Progress.queued.tag then
      drain n (s.claimRound.2.reapRound).2
    else (s.reapRound).2

/-- A whole shift: all jobs left over are removed, calls are enqueued once,
and what there is is worked off. -/
def run (s : Shift) : Except Trouble Unit × Shift :=
  match s.connection.discardAll with
  | (.error t, connection) => (.error t, { s with connection })
  | (.ok _, connection) =>
    let s := { s with connection }.enqueueRound.2
    let s := s.drain (s.connection.store.jobs.length + 1)
    (.ok (), s.close.2)

end Shift

end CallAudit.Rounds
