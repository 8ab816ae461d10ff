/-
CallAudit.Store.Lifecycle — jobs on their way from queued to gone.

* `claim` — the oldest queued jobs are put in progress and handed out.
* `Row.params?` — the parameters of a row, if they can be read.
* `Row.read`, `handOut` — rows as they come back from a statement, in any
  order, and the jobs that are made of them.
* `markDone`, `release` — a job in progress is done, or is dropped.
* `reap` — the jobs that are done are removed, and each of their rules
  resumes after the newest of them.
* `discardAll` — all jobs are removed.
* `progressOf?`, `countsByRule`, `Counts.total` — how many jobs are where.
-/
import CallAudit.Job.Basic
import CallAudit.Store.Basic

namespace CallAudit

open CallAudit.Time (Instant)

/-- The parameters of a row, if they can be read: the value first, and then
what is decoded from it. -/
def Row.params? (j : Row) : Option Params :=
  (Cell.json j.params).payload?.bind Job.paramsOf

/-- A job as it is handed out. -/
def Row.job (j : Row) (progress : Progress) : Job :=
  { id := j.id, rule := j.rule, tag := j.tag, progress
    params := j.params?, storedAt := j.storedAt }

/-- Why a row cannot be read: its state stands for nothing. -/
structure UnknownState where
  state : Int
deriving DecidableEq, Repr

/-- What is said of a row with such a state. -/
def UnknownState.message (e : UnknownState) : String :=
  "unknown job state " ++ toString e.state

/-- A row as it is read. Parameters that cannot be read are left out of the
job; a state that stands for nothing leaves no job. -/
def Row.read (j : Row) : Except UnknownState Job :=
  match Progress.ofTag? j.state with
  | some progress => .ok (j.job progress)
  | none => .error ⟨j.state⟩

namespace Store

/-! ## Handing out -/

/-- The first `n` queued rows are put in progress. The rows are in the order
of their numbers. -/
def claimRows : Nat → List Row → List Row × List Row
  | 0, rows => (rows, [])
  | _, [] => ([], [])
  | n + 1, j :: rest =>
    if j.state = Progress.queued.tag then
      let (rows, taken) := claimRows n rest
      let j := { j with state := Progress.inProgress.tag }
      (j :: rows, j :: taken)
    else
      let (rows, taken) := claimRows (n + 1) rest
      (j :: rows, taken)

/-- Up to `batch` queued jobs, but at least one, are put in progress and
handed out in the order of their numbers. -/
def claim (s : Store) (batch : Int) : Store × List Job :=
  let (rows, taken) := claimRows (max 1 batch).toNat s.jobs
  ({ s with jobs := rows }, taken.map (·.job .inProgress))

/-- The jobs of the rows that a statement gives back, in whatever order they
come. Rows that cannot be read are passed over, and the others are put in
the order of their numbers. -/
def handOut (rows : List Row) : List Job :=
  (legible (rows.map Row.read)).mergeSort fun a b => a.id ≤ b.id

/-! ## Ending -/

/-- Whether a row is of a job in progress with a number. -/
def isInProgress (id : Int) (j : Row) : Bool :=
  j.id = id && j.state = Progress.inProgress.tag

/-- A job in progress is done. The answer is whether it was in progress. -/
def markDone (s : Store) (id : Int) : Store × Bool :=
  ({ s with
      jobs := s.jobs.map fun j =>
        if isInProgress id j then { j with state := Progress.done.tag } else j },
    s.jobs.any (isInProgress id))

/-- A job in progress is dropped. The answer is whether it was in
progress. -/
def release (s : Store) (id : Int) : Store × Bool :=
  ({ s with jobs := s.jobs.filter fun j => !isInProgress id j }, s.jobs.any (isInProgress id))

/-! ## Reaping -/

/-- Whether the job of a row is done. -/
def isDone (j : Row) : Bool :=
  j.state = Progress.done.tag

/-- The latest of some instants, if there are any. -/
def latest : List Instant → Option Instant
  | [] => none
  | t :: rest => some (rest.foldl Instant.later t)

/-- How a watermark was moved. -/
structure Moved where
  rule : Int
  watermark : Instant
  reaped : Nat
deriving DecidableEq, Repr

/-- The times of the calls of a rule whose jobs are done. -/
def doneTimes (s : Store) (rule : Int) : List Instant :=
  (s.jobs.filter fun j => isDone j && j.rule = rule).map (·.storedAt)

/-- A rule after its jobs that are done were removed, and how its watermark
was moved if there were any. A watermark is never moved back. -/
def advance (s : Store) (r : RuleEntry) : RuleEntry × Option Moved :=
  let times := s.doneTimes r.id
  match latest times with
  | none => (r, none)
  | some newest =>
    let mark := (r.watermark.getD newest).later newest
    ({ r with watermark := some mark }, some ⟨r.id, mark, times.length⟩)

/-- The jobs that are done are removed, whether or not their rules are
known, and the watermarks of their rules are moved. -/
def reap (s : Store) : Store × List Moved :=
  let rules := s.rules.map s.advance
  ({ s with rules := rules.map (·.1), jobs := s.jobs.filter fun j => !isDone j },
    rules.filterMap (·.2))

/-- All jobs are removed. Their numbers are not given again. -/
def discardAll (s : Store) : Store :=
  { s with jobs := [] }

/-! ## Counting -/

/-- The progress of a job, if there is such a job and its state stands for
one. -/
def progressOf? (s : Store) (id : Int) : Option Progress :=
  (s.jobs.find? (·.id = id)).bind fun j => Progress.ofTag? j.state

/-- How many jobs are at each state. -/
structure Tally where
  queued : Int := 0
  inProgress : Int := 0
  done : Int := 0
deriving DecidableEq, Repr

/-- The jobs of one rule. -/
structure Counts where
  rule : Int
  tally : Tally
deriving DecidableEq, Repr

/-- Two tallies together. -/
def Tally.add (a b : Tally) : Tally :=
  ⟨a.queued + b.queued, a.inProgress + b.inProgress, a.done + b.done⟩

/-- The tally of all rules. -/
def Counts.total (cs : List Counts) : Tally :=
  cs.foldl (fun t c => t.add c.tally) {}

/-- A number put in order into a list that does not have it yet. -/
def insertNumber (n : Int) : List Int → List Int
  | [] => [n]
  | m :: rest =>
    if n < m then n :: m :: rest
    else if n = m then m :: rest
    else m :: insertNumber n rest

/-- The rules that have jobs, in the order of their numbers. -/
def rulesWithJobs (s : Store) : List Int :=
  s.jobs.foldl (fun rs j => insertNumber j.rule rs) []

/-- The number of jobs of a rule at a state. -/
def countAt (s : Store) (rule : Int) (p : Progress) : Int :=
  s.jobs.countP fun j => j.rule = rule && j.state = p.tag

/-- The jobs by rule, for the rules that have any. -/
def countsByRule (s : Store) : List Counts :=
  s.rulesWithJobs.map fun r =>
    ⟨r, ⟨s.countAt r .queued, s.countAt r .inProgress, s.countAt r .done⟩⟩

end Store

end CallAudit
