/-
CallAudit.Workers.Pool — a pool of workers behind a bounded queue.

* `Pool` — the tasks on their way through a pool: those whose submitters
  wait for room, those in the queue, the one that the dispatcher has taken
  off the queue and holds until a worker is free, and those that run.
* `create?`, `trySubmit`, `submit` — a new pool, and tasks given to it.
* `accept?`, `take?`, `start?`, `finish` — the steps of a task through it.
* `shutdown`, `drained?`, `expire?` — closing the pool: what it has is
  still worked on until all of it is done or the grace is over.
* `busy` — the workers that are not free.
-/

namespace CallAudit.Workers

/-! ## The pool -/

/-- How far a pool is on its way to being closed. -/
inductive Phase where
  /-- It takes new tasks. -/
  | serving
  /-- It takes no new tasks and works on those it has. -/
  | draining
  /-- All its tasks were done before the grace was over. -/
  | drained
  /-- The grace was over before all its tasks were done. -/
  | expired
deriving DecidableEq, Repr, Inhabited

/-- A pool of workers. A submitter that waits does so in `waiting`; a task
that was accepted is in `queue`, then held, then running. -/
structure Pool (τ : Type) where
  workers : Nat
  depth : Nat
  phase : Phase := .serving
  waiting : List τ := []
  queue : List τ := []
  held : Option τ := none
  running : List τ := []
deriving DecidableEq, Repr

/-- Why a pool does not take a task. -/
inductive Refusal where
  | saturated
  | closed
deriving DecidableEq, Repr

/-- The name of a refusal. -/
def Refusal.name : Refusal → String
  | saturated => "Saturated"
  | closed => "Closed"

/-- A refusal in words. -/
def Refusal.message : Refusal → String
  | saturated => "worker pool saturated"
  | closed => "worker pool is shut down"

/-- The most workers a pool has. -/
def maxWorkers : Nat := 10000

/-- The most places a queue can have. -/
def maxDepth : Nat := 2305843009213693951

/-- What is said of a queue with too many places. -/
def tooDeep : String :=
  "a semaphore may not have more than MAX_PERMITS permits (2305843009213693951)"

namespace Pool

variable {τ : Type}

/-- A pool of some workers, of which there is at least one and at most the
greatest number, with a queue of at least one place. There is no pool with
too long a queue. -/
def create? (workers depth : Nat) : Option (Pool τ) :=
  if maxDepth < max 1 depth then none
  else some { workers := max 1 (min workers maxWorkers), depth := max 1 depth }

/-- Whether the queue has a place. -/
def hasRoom (p : Pool τ) : Bool :=
  p.queue.length < p.depth

/-- Whether no task is left that has not been started. -/
def isDispatched (p : Pool τ) : Bool :=
  p.waiting.isEmpty && p.queue.isEmpty && p.held.isNone

/-! ## Giving tasks -/

/-- The pool with a task in its queue, if there is a place right now that
no submitter waits for. -/
def trySubmit (p : Pool τ) (t : τ) : Except Refusal (Pool τ) :=
  if p.phase ≠ .serving then .error .closed
  else if p.waiting.isEmpty && p.hasRoom then .ok { p with queue := p.queue ++ [t] }
  else .error .saturated

/-- The pool with a submitter that waits for a place for its task. -/
def submit (p : Pool τ) (t : τ) : Except Refusal (Pool τ) :=
  if p.phase ≠ .serving then .error .closed
  else .ok { p with waiting := p.waiting ++ [t] }

/-! ## Steps of a task -/

/-- The submitter that waits longest puts its task into the queue. -/
def accept? (p : Pool τ) : Option (τ × Pool τ) :=
  match p.waiting with
  | t :: rest =>
    if p.hasRoom then some (t, { p with waiting := rest, queue := p.queue ++ [t] }) else none
  | [] => none

/-- The dispatcher takes the first task off the queue. -/
def take? (p : Pool τ) : Option (Pool τ) :=
  match p.held, p.queue with
  | none, t :: rest => some { p with held := some t, queue := rest }
  | _, _ => none

/-- The task that the dispatcher holds is started. -/
def start? (p : Pool τ) : Option (τ × Pool τ) :=
  match p.held with
  | some t =>
    if p.running.length < p.workers then
      some (t, { p with held := none, running := p.running ++ [t] })
    else none
  | none => none

/-- A running task is over, and its worker is free. -/
def finish [BEq τ] (p : Pool τ) (t : τ) : Pool τ :=
  { p with running := p.running.erase t }

/-! ## Closing -/

/-- The pool after it was asked to close, and the answer if there is one at
once: a pool that was asked before answers yes. -/
def shutdown (p : Pool τ) : Pool τ × Option Bool :=
  if p.phase = .serving then ({ p with phase := .draining }, none) else (p, some true)

/-- The pool has done all it had, and the first to ask it to close is
answered yes. -/
def drained? (p : Pool τ) : Option (Pool τ) :=
  if p.phase = .draining ∧ p.isDispatched ∧ p.running.isEmpty then
    some { p with phase := .drained }
  else none

/-- What is given up when the grace is over. -/
structure Abandoned (τ : Type) where
  /-- Tasks that were accepted and are not started any more. -/
  cancelled : List τ
  /-- Tasks whose submitters were still waiting. -/
  refused : List τ

/-- The grace is over, and the first to ask the pool to close is answered
no. The running tasks go on. -/
def expire? (p : Pool τ) : Option (Abandoned τ × Pool τ) :=
  if p.phase = .draining then
    some (⟨p.held.toList ++ p.queue, p.waiting⟩,
      { p with phase := .expired, waiting := [], queue := [], held := none })
  else none

/-! ## Counting -/

/-- The workers that whoever closes the pool has got hold of: once nothing
is left to be started, all that are free. -/
def reserved (p : Pool τ) : Nat :=
  if p.phase = .draining ∧ p.isDispatched then p.workers - p.running.length else 0

/-- The workers that are not free. -/
def busy (p : Pool τ) : Nat :=
  p.running.length + p.reserved

end Pool

end CallAudit.Workers
