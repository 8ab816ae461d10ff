/-
CallAudit.Workers.Timeline — a pool whose tasks have known courses, on a
clock of milliseconds.

* `PoolTask`, `Course` — a task and what it does once it is started: it ends
  at once, fails at once, waits to be let through, or takes some time.
* `Timeline` — a pool with its clock and what is known of its tasks.
* `submit`, `trySubmit`, `letThrough`, `shutdown`, `advance` — what happens
  to the pool from outside. After each of them everything moves that can.
* `Timeline.settle` — submitters put their tasks into the queue and tasks
  are started until nothing more can move.
-/
import CallAudit.Workers.Pool

namespace CallAudit.Workers

/-! ## Tasks -/

/-- What a task does once it is started. -/
inductive Course where
  | instant
  | fails
  | gate
  | sleeps (ms : Nat)
deriving DecidableEq, Repr

/-- A task. Every task of a timeline has a ticket of its own. -/
structure PoolTask where
  ticket : Nat
  id : String
  course : Course
  /-- Whether nobody wants to know how it ends. -/
  detached : Bool
deriving DecidableEq, Repr

/-- How a task ended. -/
inductive Outcome where
  | completed
  | failed
  | cancelled
deriving DecidableEq, Repr

/-- The name of an outcome. -/
def Outcome.name : Outcome → String
  | completed => "Completed"
  | failed => "Panicked"
  | cancelled => "Cancelled"

/-- How far a submitter has come. -/
inductive Entry where
  | waiting
  | queued
  | refused (why : Refusal)
deriving DecidableEq, Repr

/-- A task was started, or came to its end. -/
inductive Event where
  | start (id : String)
  | finish (id : String)
deriving DecidableEq, Repr

/-- An event in words. -/
def Event.text : Event → String
  | start id => "start " ++ id
  | finish id => "end " ++ id

/-- A list of events with one more, which goes before the first one whose
text is greater. -/
def insertEvent (e : Event) : List Event → List Event
  | [] => [e]
  | d :: rest => if e.text < d.text then e :: d :: rest else d :: insertEvent e rest

/-! ## The timeline -/

/-- A pool on a clock. -/
structure Timeline where
  pool : Pool PoolTask
  now : Nat := 0
  tickets : Nat := 0
  /-- Gates that were opened before a task came to them. -/
  opened : List String := []
  /-- The tickets of sleeping tasks with the times at which they end. -/
  due : List (Nat × Nat) := []
  /-- When the grace of closing the pool is over. -/
  deadline : Option Nat := none
  /-- What happened, in its order. -/
  events : List Event := []
  /-- What became known of submitters, the newest last. -/
  entries : List (String × Entry) := []
  /-- How tasks ended, the newest last. -/
  outcomes : List (String × Outcome) := []
  /-- The answers to those who asked the pool to close; one is missing as
  long as the pool is draining. -/
  answers : List (Option Bool) := []

namespace Timeline

/-- The timeline of a new pool. -/
def create? (workers depth : Nat) : Option Timeline :=
  (Pool.create? workers depth).map fun pool => { pool := pool }

/-- A task is known to have ended. -/
def note (s : Timeline) (t : PoolTask) (o : Outcome) : Timeline :=
  if t.detached then s else { s with outcomes := s.outcomes ++ [(t.id, o)] }

/-- A running task ends. One that fails does not come to its end. -/
def finish (s : Timeline) (t : PoolTask) (o : Outcome) : Timeline :=
  let s := { s with pool := s.pool.finish t, due := s.due.filter (·.1 != t.ticket) }
  let s := if o = .completed then { s with events := s.events ++ [Event.finish t.id] } else s
  s.note t o

/-- A task was started and follows its course. -/
def follow (s : Timeline) (t : PoolTask) : Timeline :=
  let s := { s with events := s.events ++ [Event.start t.id] }
  match t.course with
  | .instant => s.finish t .completed
  | .fails => s.finish t .failed
  | .gate =>
    if s.opened.contains t.id then
      { s with opened := s.opened.erase t.id }.finish t .completed
    else s
  | .sleeps 0 => s.finish t .completed
  | .sleeps ms => { s with due := s.due ++ [(t.ticket, s.now + ms)] }

/-- The steps that a pool can still take: three for a submitter that
waits, two for a task in the queue and one for the task that is held. -/
def pending (p : Pool PoolTask) : Nat :=
  3 * p.waiting.length + 2 * p.queue.length + p.held.toList.length

/-- The next step of a pool that nobody from outside has to bring about:
a submitter puts its task into the queue, the dispatcher takes one, or the
task that is held is started. -/
def move? (s : Timeline) : Option Timeline :=
  match s.pool.accept? with
  | some (t, pool) =>
    some { s with pool := pool, entries := s.entries ++ [(t.id, Entry.queued)] }
  | none =>
    match s.pool.take? with
    | some pool => some { s with pool := pool }
    | none =>
      match s.pool.start? with
      | some (t, pool) => some ({ s with pool := pool }.follow t)
      | none => none

/-- The first who asked the pool to close is answered. -/
def reply (s : Timeline) (answer : Bool) : Timeline :=
  { s with
    deadline := none
    answers := s.answers.map fun a => some (a.getD answer) }

/-- At most `n` steps, and the answer to whoever closes the pool once all
of it is done. -/
def settleFor : Nat → Timeline → Timeline
  | 0, s => s
  | n + 1, s =>
    match s.move? with
    | some s => settleFor n s
    | none =>
      match s.pool.drained? with
      | some pool => { s with pool := pool }.reply true
      | none => s

/-- Everything moves that can. -/
def settle (s : Timeline) : Timeline :=
  settleFor (pending s.pool + 1) s

/-! ## What happens from outside -/

/-- A new task. -/
def issue (s : Timeline) (id : String) (course : Course) (detached : Bool) :
    PoolTask × Timeline :=
  (⟨s.tickets, id, course, detached⟩, { s with tickets := s.tickets + 1 })

/-- A task is given to the pool, and its submitter waits for a place. -/
def submit (s : Timeline) (id : String) (course : Course) : Timeline :=
  let (t, s) := s.issue id course false
  match s.pool.submit t with
  | .ok pool => { s with pool := pool, entries := s.entries ++ [(id, Entry.waiting)] }.settle
  | .error why => { s with entries := s.entries ++ [(id, Entry.refused why)] }

/-- A task is given to the pool if there is a place for it. -/
def trySubmit (s : Timeline) (id : String) (course : Course) (detached : Bool) :
    Except Refusal Timeline :=
  let (t, s) := s.issue id course detached
  (s.pool.trySubmit t).map fun pool => { s with pool := pool }.settle

/-- A gate is opened: the task that waits at it ends, or the next one to
come to it will. -/
def letThrough (s : Timeline) (id : String) : Timeline :=
  match s.pool.running.find? fun t => t.course = .gate && t.id = id with
  | some t => (s.finish t .completed).settle
  | none => if s.opened.contains id then s else { s with opened := id :: s.opened }

/-- The grace is over. -/
def expire (s : Timeline) : Timeline :=
  match s.pool.expire? with
  | some (given, pool) =>
    let s := given.cancelled.foldl (fun s t => s.note t .cancelled) { s with pool := pool }
    let refused := given.refused.map fun t => (t.id, Entry.refused .closed)
    { s with entries := s.entries ++ refused }.reply false
  | none => s

/-- The pool is asked to close within a grace. Without a grace there is no
time for anything to move. -/
def shutdown (s : Timeline) (grace : Nat) : Timeline :=
  match s.pool.shutdown with
  | (_, some answer) => { s with answers := s.answers ++ [some answer] }
  | (pool, none) =>
    let s := { s with pool := pool, answers := s.answers ++ [none] }
    if grace = 0 then s.expire else { s with deadline := some (s.now + grace) }.settle

/-- One millisecond. A grace that is over in it is over before any task
ends in it. What happens within a millisecond is told in the order of its
text. -/
def tick (s : Timeline) : Timeline :=
  let before := s.events
  let s := { s with now := s.now + 1, events := [] }
  let s := if s.deadline = some s.now then s.expire else s
  let rung := s.due.filter (·.2 == s.now)
  let ended := s.pool.running.filter fun t => rung.any (·.1 == t.ticket)
  let s := (ended.foldl (fun s t => s.finish t .completed) s).settle
  { s with events := before ++ s.events.foldl (fun es e => insertEvent e es) [] }

/-- Some milliseconds, one after the other. -/
def advance (s : Timeline) : Nat → Timeline
  | 0 => s
  | ms + 1 => s.tick.advance ms

/-- What has happened is told, and is not told again. -/
def told (s : Timeline) : Timeline :=
  { s with events := [] }

end Timeline

end CallAudit.Workers
