/-
CallAudit.Store.Connection — a store that can fail.

* `Trouble` — why a statement fails: the store cannot be reached, its
  connection was closed, or it refuses the rows.
* `Connection` — a store and what it refuses.
* The statements of the store, each as a function that gives the new
  connection beside the answer. A statement that fails changes no entry; it
  may use up a number.
-/
import CallAudit.Store.Enqueue
import CallAudit.Store.Lifecycle

namespace CallAudit

/-! ## Trouble -/

/-- Why a statement fails. -/
inductive Trouble where
  | unreachable
  | closed
  | refused
deriving DecidableEq, Repr

/-- Trouble in words. -/
def Trouble.message : Trouble → String
  | unreachable => "error communicating with database: Network is unreachable (os error 101)"
  | closed => "attempted to acquire a connection on a closed pool"
  | refused => "injected fault"

/-- A store behind a connection. -/
structure Connection where
  store : Store := {}
  closed : Bool := false
  /-- The rules whose jobs cannot be inserted. -/
  noInsert : List Int := []
  /-- The rules whose jobs in progress cannot be changed or removed. -/
  noRetire : List Int := []

namespace Connection

/-- A connection to a store, if that can be reached. -/
def connect (isReachable : Bool) (s : Store) : Except Trouble Connection :=
  if isReachable then .ok { store := s } else .error .unreachable

/-- What a statement answers, and the connection after it. -/
abbrev Answer (α : Type) := Except Trouble α × Connection

/-- A statement that only a closed connection keeps from being carried
out. -/
def carry {α : Type} (c : Connection) (statement : Store → Store × α) : Answer α :=
  if c.closed then (.error .closed, c)
  else
    let (store, a) := statement c.store
    (.ok a, { c with store := store })

/-- A statement that reads. -/
def ask {α : Type} (c : Connection) (read : Store → α) : Answer α :=
  c.carry fun s => (s, read s)

/-! ## Statements -/

/-- The rules that may be given jobs. -/
def runnable (c : Connection) (ceiling : Int) : Answer (List Rule) :=
  c.ask fun s => s.runnable ceiling

/-- Jobs for the oldest calls a rule wants. Where there is no room for any
the store is not asked. If the first job is refused, none is inserted, and
its number is used up. -/
def enqueueFor (c : Connection) (r : Rule) (limit : Int) : Answer Nat :=
  if limit ≤ 0 then (.ok 0, c)
  else if c.closed then (.error .closed, c)
  else if c.noInsert.contains r.id && !(c.store.chosen r limit).isEmpty then
    (.error .refused, { c with store := { c.store with nextJob := c.store.nextJob + 1 } })
  else c.carry fun s => s.enqueueFor r limit

/-- Jobs for all rules that may be given any. A rule that fails is counted
and passed over. -/
def enqueueAll (c : Connection) (ceiling : Int) : Answer Store.Pass :=
  match c.runnable ceiling with
  | (.error t, c) => (.error t, c)
  | (.ok rules, c) =>
    let (pass, c) := rules.foldl
      (fun (pass, c) r =>
        match c.enqueueFor r (r.headroom ceiling) with
        | (.ok n, c) => ({ pass with inserted := pass.inserted + n }, c)
        | (.error _, c) => ({ pass with failed := pass.failed + 1 }, c))
      (({ rules := rules.length } : Store.Pass), c)
    (.ok pass, c)

/-- Queued jobs are put in progress and handed out. -/
def claim (c : Connection) (batch : Int) : Answer (List Job) :=
  c.carry fun s => s.claim batch

/-- Whether a job is in progress and its row cannot be changed. -/
def isKept (c : Connection) (id : Int) : Bool :=
  c.store.jobs.any fun j => Store.isInProgress id j && c.noRetire.contains j.rule

/-- A job in progress is done. -/
def markDone (c : Connection) (id : Int) : Answer Bool :=
  if !c.closed && c.isKept id then (.error .refused, c) else c.carry fun s => s.markDone id

/-- A job in progress is dropped. -/
def release (c : Connection) (id : Int) : Answer Bool :=
  if !c.closed && c.isKept id then (.error .refused, c) else c.carry fun s => s.release id

/-- The jobs that are done are removed and the watermarks moved. -/
def reap (c : Connection) : Answer (List Store.Moved) :=
  c.carry fun s => s.reap

/-- All jobs are removed. -/
def discardAll (c : Connection) : Answer Unit :=
  c.carry fun s => (s.discardAll, ())

/-- The progress of a job. -/
def progressOf? (c : Connection) (id : Int) : Answer (Option Progress) :=
  c.ask fun s => s.progressOf? id

/-- The jobs by rule. -/
def countsByRule (c : Connection) : Answer (List Store.Counts) :=
  c.ask fun s => s.countsByRule

end Connection

end CallAudit
