/-
CallAudit.Rounds.Dispatch — handing claimed jobs to the workers.

* `handOver` — a task is given to a pool: at once if there is room, and
  otherwise by waiting for it.
* `Dispatch` — tasks that are handed over one after the other, the next one
  when the one before is in the queue.
* `retire` — what becomes of a job when its audit has ended.
-/
import CallAudit.Audit.Basic
import CallAudit.Store.Connection
import CallAudit.Workers.Pool

namespace CallAudit.Rounds

open CallAudit.Workers (Pool Refusal)

/-- A pool with one more task, which is put into its queue or, if that has
no place, waits for one. -/
def handOver {τ : Type} (p : Pool τ) (t : τ) : Except Refusal (Pool τ) :=
  match p.trySubmit t with
  | .error .saturated => p.submit t
  | other => other

/-- Tasks on their way to a pool. -/
structure Dispatch (τ : Type) where
  pool : Pool τ
  /-- The tasks still to be handed over. -/
  rest : List τ
  /-- The tasks that were handed over. -/
  handed : List τ := []

/-- The next task is handed over, unless the one before still waits. If the
pool takes none any more, the rest stays where it is. -/
def Dispatch.next? {τ : Type} (d : Dispatch τ) : Option (Dispatch τ) :=
  match d.rest with
  | [] => none
  | t :: rest =>
    if d.pool.waiting.isEmpty then
      match handOver d.pool t with
      | .ok pool => some ⟨pool, rest, d.handed ++ [t]⟩
      | .error _ => some { d with rest := [] }
    else none

/-- A job whose audit has ended: delivered or rejected it is done, while its
call is in other hands it is dropped, so that the call can be enqueued
again, and abandoned it stays in progress. Trouble with the store changes
nothing. -/
def retire (c : Connection) (job : Int) : Outcome → Connection
  | .delivered _ | .rejected _ => (c.markDone job).2
  | .inHand _ => (c.release job).2
  | .abandoned .. => c

end CallAudit.Rounds
