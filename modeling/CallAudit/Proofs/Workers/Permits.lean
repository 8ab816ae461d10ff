/-
CallAudit.Proofs.Workers.Permits — the permits behind the number of busy
workers.

A pool has a permit for each worker. The dispatcher starts a task with a
permit that is free, the task gives it back when it ends, and the number of
busy workers is told by the permits that are not free. A dispatcher that
waits for a permit is not handed one: that it takes a free permit is the
start of the task it holds. Whoever closes the
pool asks for all permits once nothing is left to be started, and while it
waits for the last of them it has those that were free and gets the others
as they are given back.

* `Metered` — a pool with its permits. Here the permits decide what can be
  done: a task is started if a permit is free, and the pool is drained when
  the closer has got all of them.
* `Turn`, `Metered.step`, `run` — the moves of the pool, and the closer who
  begins to gather permits.
* `Balanced` — every permit is free, gathered, or with a task that runs.
* `busy_exact` — what is told of busy workers, and when it is not the number
  of tasks that run.
* `gathered_not_busy` — a pool that is being closed and tells two busy
  workers where one task runs.
-/
import CallAudit.Proofs.Workers.Safety

namespace CallAudit.Workers

/-- A pool with its permits. -/
structure Metered (τ : Type) where
  journal : Journal τ
  /-- The permits that nobody has. -/
  free : Nat
  /-- The permits of whoever closes the pool, from when it asks for them. -/
  gathered : Option Nat := none
deriving DecidableEq, Repr

/-- What can happen to a pool with its permits. -/
inductive Turn (τ : Type) where
  | move (m : Move τ)
  /-- Whoever closes the pool asks for all permits, and gets those that are
  free. -/
  | gather
deriving DecidableEq, Repr

namespace Metered

variable {τ : Type}

/-- A new pool, whose permits are all free. -/
def start (p : Pool τ) : Metered τ where
  journal := { pool := p }
  free := p.workers

/-- The workers that are not free. -/
def busy (c : Metered τ) : Nat :=
  c.journal.pool.workers - c.free

/-- A permit is given back. Whoever closes the pool and gathers permits gets
it; otherwise it is free, also for a dispatcher that holds a task and waits
for a permit, which takes it as it starts the task. -/
def giveBack (c : Metered τ) : Metered τ :=
  match c.gathered with
  | some n => { c with gathered := some (n + 1) }
  | none => { c with free := c.free + 1 }

variable [DecidableEq τ]

/-- One turn. What is not possible changes nothing. -/
def step (c : Metered τ) : Turn τ → Metered τ
  | .gather =>
    if c.journal.pool.phase = .draining ∧ c.journal.pool.isDispatched ∧ c.gathered = none then
      { c with free := 0, gathered := some c.free }
    else c
  | .move .start =>
    if c.journal.pool.held.isSome ∧ 0 < c.free then
      { c with journal := c.journal.step .start, free := c.free - 1 }
    else c
  | .move (.finish t fails) =>
    if t ∈ c.journal.pool.running then
      { c with journal := c.journal.step (.finish t fails) }.giveBack
    else c
  | .move .drain =>
    -- the permits are given back as soon as the closer has them all
    if c.gathered = some c.journal.pool.workers then
      { journal := c.journal.step .drain, free := c.journal.pool.workers }
    else c
  | .move .expire =>
    { journal := c.journal.step .expire, free := c.free + c.gathered.getD 0 }
  | .move m => { c with journal := c.journal.step m }

/-- Turns one after the other. -/
def run (c : Metered τ) (turns : List (Turn τ)) : Metered τ :=
  turns.foldl step c

end Metered

/-! ## Moves that take and give no permits -/

variable {τ : Type} [DecidableEq τ]

/-- Moves before a task is started, and asking the pool to close. -/
def Move.IsQuiet : Move τ → Prop
  | trySubmit _ | submit _ | accept _ | take | shutdown => True
  | start | finish .. | drain | expire => False

/-- They start and end nothing, and a pool that is being closed and has
nothing left to be started stays so. -/
theorem Journal.step_quiet (j : Journal τ) {m : Move τ} (quiet : m.IsQuiet) :
    (j.step m).pool.running = j.pool.running
      ∧ (j.pool.phase = .draining ∧ j.pool.isDispatched = true →
          (j.step m).pool.phase = .draining ∧ (j.step m).pool.isDispatched = true) := by
  have hleft : j.pool.isDispatched = true → j.pool.waiting = [] ∧ j.pool.queue = [] := by
    intro h
    simp only [Pool.isDispatched, Bool.and_eq_true, List.isEmpty_iff] at h
    exact h.1
  have hopen : j.pool.phase = .serving → ¬ j.pool.phase = .draining := by
    intro hserving hdraining
    rw [hserving] at hdraining
    cases hdraining
  cases m with
  | trySubmit t =>
    simp only [step]
    split
    · exact ⟨rfl, id⟩
    · cases hpool : j.pool.trySubmit t with
      | error why => exact ⟨rfl, id⟩
      | ok pool =>
        obtain ⟨hserving, -, -, rfl⟩ := Pool.trySubmit_eq_ok hpool
        exact ⟨rfl, fun h => absurd h.1 (hopen hserving)⟩
  | submit t =>
    simp only [step]
    split
    · exact ⟨rfl, id⟩
    · cases hpool : j.pool.submit t with
      | error why => exact ⟨rfl, id⟩
      | ok pool =>
        obtain ⟨hserving, rfl⟩ := Pool.submit_eq_ok hpool
        exact ⟨rfl, fun h => absurd h.1 (hopen hserving)⟩
  | accept place =>
    simp only [step]
    cases hpool : (j.pool.favour place).accept? with
    | none => exact ⟨rfl, id⟩
    | some next =>
      obtain ⟨t, pool⟩ := next
      obtain ⟨rest, hwaiting, -, rfl⟩ := Pool.accept?_eq_some hpool
      refine ⟨rfl, fun h => ?_⟩
      have hperm := Pool.favour_perm j.pool place
      rw [hwaiting, (hleft h.2).1] at hperm
      exact absurd hperm.eq_nil (List.cons_ne_nil t rest)
  | take =>
    simp only [step]
    cases hpool : j.pool.take? with
    | none => exact ⟨rfl, id⟩
    | some pool =>
      obtain ⟨t, rest, -, hqueue, rfl⟩ := Pool.take?_eq_some hpool
      refine ⟨rfl, fun h => ?_⟩
      rw [(hleft h.2).2] at hqueue
      cases hqueue
  | shutdown =>
    simp only [step, Pool.shutdown]
    split
    · rename_i hserving
      exact ⟨rfl, fun h => absurd h.1 (hopen hserving)⟩
    · exact ⟨rfl, id⟩
  | _ => exact quiet.elim

namespace Metered

/-! ## The balance of the permits -/

/-- Every permit of a pool of `n` workers is free, gathered by whoever closes
the pool, or with a task that runs. None is free while they are gathered,
and they are only once nothing is left to be started. -/
structure Balanced (n : Nat) (c : Metered τ) : Prop where
  sound : c.journal.Sound n
  total : c.free + c.gathered.getD 0 + c.journal.pool.running.length = n
  gathers : c.gathered.isSome = true →
    (c.journal.pool.phase = .draining ∧ c.journal.pool.isDispatched = true) ∧ c.free = 0

namespace Balanced

variable {n : Nat} {c : Metered τ}

omit [DecidableEq τ] in
theorem start {workers depth : Nat} {p : Pool τ} (made : Pool.create? workers depth = some p) :
    (Metered.start p).Balanced (max 1 (min workers maxWorkers)) := by
  have sound := Journal.Sound.start made
  obtain rfl := Pool.create?_eq_some made
  exact ⟨sound, rfl, fun h => absurd h Bool.false_ne_true⟩

theorem gather (h : c.Balanced n) : (c.step .gather).Balanced n := by
  have htotal := h.total
  simp only [step]
  split
  · rename_i hready
    rw [hready.2.2, Option.getD_none] at htotal
    refine ⟨h.sound, ?_, fun _ => ⟨⟨hready.1, hready.2.1⟩, rfl⟩⟩
    simp only [Option.getD_some]
    omega
  · exact h

theorem begun (h : c.Balanced n) : (c.step (.move .start)).Balanced n := by
  have htotal := h.total
  simp only [step]
  split
  · rename_i hready
    obtain ⟨t, hheld⟩ := Option.isSome_iff_exists.mp hready.1
    -- nothing is gathered as long as a task is still to be started
    have hnone : c.gathered = none := by
      by_contra hsome
      have hdone := (h.gathers (Option.isSome_iff_ne_none.mpr hsome)).1.2
      simp [Pool.isDispatched, hheld] at hdone
    rw [hnone, Option.getD_none] at htotal
    have hfree : c.journal.pool.running.length < c.journal.pool.workers := by
      rw [h.sound.workers]
      omega
    have hstep : c.journal.step .start
        = { c.journal with
            pool := { c.journal.pool with held := none, running := c.journal.pool.running ++ [t] }
            started := c.journal.started ++ [t] } := by
      simp only [Journal.step, Pool.start?, hheld, hfree, if_true]
    refine ⟨h.sound.change (c.journal.step_change .start), ?_, ?_⟩
    · simp only [hstep, hnone, Option.getD_none, List.length_append, List.length_singleton]
      omega
    · rw [hnone]
      exact fun h => absurd h Bool.false_ne_true
  · exact h

theorem finished (h : c.Balanced n) (t : τ) (fails : Bool) :
    (c.step (.move (.finish t fails))).Balanced n := by
  have htotal := h.total
  have hsound := h.sound.change (c.journal.step_change (.finish t fails))
  simp only [step]
  split
  · rename_i hruns
    have hlen : (c.journal.pool.running.erase t).length + 1 = c.journal.pool.running.length :=
      List.length_erase_add_one hruns
    have hstep : (c.journal.step (.finish t fails)).pool = c.journal.pool.finish t := by
      simp only [Journal.step, hruns, if_true]
    cases hgathered : c.gathered with
    | none =>
      rw [hgathered, Option.getD_none] at htotal
      simp only [giveBack]
      refine ⟨hsound, ?_, fun h => absurd h Bool.false_ne_true⟩
      simp only [hstep, Pool.finish, Option.getD_none]
      omega
    | some m =>
      obtain ⟨hclosing, hfree⟩ := h.gathers (by rw [hgathered]; rfl)
      rw [hgathered, Option.getD_some] at htotal
      simp only [giveBack]
      refine ⟨hsound, ?_, fun _ => ⟨?_, hfree⟩⟩
      · simp only [hstep, Pool.finish, Option.getD_some]
        omega
      · rw [hstep]
        exact hclosing
  · exact h

theorem drained (h : c.Balanced n) : (c.step (.move .drain)).Balanced n := by
  have htotal := h.total
  have hworkers := h.sound.workers
  simp only [step]
  split
  · rename_i hall
    obtain ⟨⟨hphase, hleft⟩, -⟩ := h.gathers (by rw [hall]; rfl)
    rw [hall, Option.getD_some, hworkers] at htotal
    have hrunning : c.journal.pool.running = [] := List.length_eq_zero_iff.mp (by omega)
    have hstep : (c.journal.step .drain).pool = { c.journal.pool with phase := .drained } := by
      simp only [Journal.step, Pool.drained?, hphase, hleft, hrunning, List.isEmpty_nil, and_self,
        if_true, Journal.reply]
    refine ⟨h.sound.change (c.journal.step_change .drain), ?_, fun h =>
      absurd h Bool.false_ne_true⟩
    simp only [hstep, hrunning, hworkers, Option.getD_none, List.length_nil, Nat.add_zero]
  · exact h

theorem expired (h : c.Balanced n) : (c.step (.move .expire)).Balanced n := by
  have htotal := h.total
  have hrunning : (c.journal.step .expire).pool.running = c.journal.pool.running := by
    simp only [Journal.step]
    cases hpool : c.journal.pool.expire? with
    | none => rfl
    | some next =>
      obtain ⟨left, pool⟩ := next
      obtain ⟨-, -, rfl⟩ := Pool.expire?_eq_some hpool
      rfl
  simp only [step]
  refine ⟨h.sound.change (c.journal.step_change .expire), ?_, fun h =>
    absurd h Bool.false_ne_true⟩
  rw [hrunning, Option.getD_none]
  omega

theorem quiet (h : c.Balanced n) {m : Move τ} (hquiet : m.IsQuiet) :
    Balanced n { c with journal := c.journal.step m } := by
  obtain ⟨hrunning, hclosing⟩ := c.journal.step_quiet hquiet
  refine ⟨h.sound.change (c.journal.step_change m), ?_, fun hsome => ?_⟩
  · rw [hrunning]
    exact h.total
  · obtain ⟨hphase, hfree⟩ := h.gathers hsome
    exact ⟨hclosing hphase, hfree⟩

/-- Every turn keeps the balance. -/
theorem step (h : c.Balanced n) (turn : Turn τ) : (c.step turn).Balanced n := by
  cases turn with
  | gather => exact h.gather
  | move m =>
    cases m with
    | start => exact h.begun
    | finish t fails => exact h.finished t fails
    | drain => exact h.drained
    | expire => exact h.expired
    | _ => exact h.quiet trivial

theorem run (h : c.Balanced n) (turns : List (Turn τ)) : (c.run turns).Balanced n :=
  List.foldlRecOn turns Metered.step h fun _ h turn _ => h.step turn

omit [DecidableEq τ] in
/-- What is told of busy workers counts the tasks that run and the permits
that are gathered. -/
theorem busy (h : c.Balanced n) :
    c.busy = c.journal.pool.running.length + c.gathered.getD 0 := by
  have htotal := h.total
  rw [Metered.busy, h.sound.workers]
  omega

end Balanced

/-- The permits only keep moves from being made. -/
theorem step_move (c : Metered τ) (m : Move τ) :
    (c.step (.move m)).journal = c.journal
      ∨ (c.step (.move m)).journal = c.journal.step m := by
  cases m with
  | start =>
    simp only [step]
    split
    · exact Or.inr rfl
    · exact Or.inl rfl
  | finish t fails =>
    simp only [step]
    split
    · refine Or.inr ?_
      unfold giveBack
      split <;> rfl
    · exact Or.inl rfl
  | drain =>
    simp only [step]
    split
    · exact Or.inr rfl
    · exact Or.inl rfl
  | _ => exact Or.inr rfl

/-- The journal is that of the moves that were made. -/
theorem exists_moves (c : Metered τ) (turns : List (Turn τ)) :
    ∃ moves, (c.run turns).journal = c.journal.run moves := by
  induction turns generalizing c with
  | nil => exact ⟨[], rfl⟩
  | cons turn turns ih =>
    obtain ⟨moves, hmoves⟩ := ih (c.step turn)
    have hsame : (c.step turn).journal = c.journal ∨
        ∃ m, (c.step turn).journal = c.journal.step m := by
      cases turn with
      | gather =>
        refine Or.inl ?_
        simp only [step]
        split <;> rfl
      | move m => exact (c.step_move m).imp_right fun h => ⟨m, h⟩
    rcases hsame with hsame | ⟨m, hm⟩
    · exact ⟨moves, hmoves.trans (by rw [hsame])⟩
    · exact ⟨m :: moves, hmoves.trans (by rw [hm]; rfl)⟩

/-- **Busy workers.** Whatever happens to a pool, what is told of its busy
workers is the number of tasks that run together with the permits that
whoever closes the pool has gathered. It is the number of tasks that run
except while the closer waits for the last of them with permits that nobody
works with: nothing is left to be started, some worker has nothing to do, and
all workers are told to be busy. Where the closer asks for the permits as
soon as nothing is left to be started, it is the `busy` of the pool. -/
theorem busy_exact {workers depth : Nat} {p : Pool τ}
    (made : Pool.create? workers depth = some p) (turns : List (Turn τ)) :
    let c := (start p).run turns
    let running := c.journal.pool.running.length
    c.busy = running + c.gathered.getD 0
      ∧ (c.busy = running ↔ c.gathered = none ∨ running = c.journal.pool.workers)
      ∧ (c.gathered.isSome = true → c.journal.pool.phase = .draining
          ∧ c.journal.pool.isDispatched = true ∧ c.busy = c.journal.pool.workers)
      ∧ ((c.gathered.isSome = true ↔
            c.journal.pool.phase = .draining ∧ c.journal.pool.isDispatched = true) →
          c.busy = c.journal.pool.busy)
      ∧ ∃ moves, c.journal = ({ pool := p } : Journal τ).run moves := by
  intro c running
  have h : c.Balanced (max 1 (min workers maxWorkers)) := (Balanced.start made).run turns
  have htotal := h.total
  have hworkers := h.sound.workers
  have hbusy := h.busy
  have hall : c.gathered.isSome = true → c.busy = c.journal.pool.workers := by
    intro hsome
    have hfree := (h.gathers hsome).2
    rw [busy, hfree, Nat.sub_zero]
  refine ⟨hbusy, ?_, fun hsome => ?_, fun hprompt => ?_, exists_moves (start p) turns⟩
  · cases hgathered : c.gathered with
    | none =>
      rw [hgathered] at hbusy
      exact iff_of_true hbusy (Or.inl rfl)
    | some m =>
      rw [hall (by rw [hgathered]; rfl)]
      simp only [reduceCtorEq, false_or]
      exact eq_comm
  · obtain ⟨⟨hphase, hleft⟩, -⟩ := h.gathers hsome
    exact ⟨hphase, hleft, hall hsome⟩
  · by_cases hsome : c.gathered.isSome = true
    · have hreserved : c.journal.pool.reserved
          = c.journal.pool.workers - c.journal.pool.running.length :=
        if_pos (hprompt.mp hsome)
      rw [hall hsome, Pool.busy, hreserved]
      omega
    · have hnone : c.gathered = none := by simpa using hsome
      have hreserved : c.journal.pool.reserved = 0 :=
        if_neg fun hready => hsome (hprompt.mpr hready)
      rw [hbusy, hnone, Pool.busy, hreserved]
      rfl

/-- Two workers and a queue of one place. -/
def twoWorkers : Pool Nat := { workers := 2, depth := 1 }

/-- A task runs, and the pool is given up with it: while the closer waits,
both workers are told to be busy, and afterwards one. -/
theorem busy_exact_given_up :
    let turns : List (Turn Nat) := [.move (.trySubmit 7), .move .take, .move .start,
      .move .shutdown, .gather]
    ((start twoWorkers).run turns).busy = 2
      ∧ ((start twoWorkers).run (turns ++ [.move .expire])).busy = 1 := by
  intro turns
  have made : Pool.create? 2 1 = some twoWorkers := rfl
  obtain ⟨-, -, hall, -⟩ := busy_exact made turns
  obtain ⟨-, hrunning, -⟩ := busy_exact made (turns ++ [.move .expire])
  exact ⟨(hall (by decide)).2.2, hrunning.mpr (Or.inl (by decide))⟩

/-- One task runs, and both workers are told to be busy. -/
theorem gathered_not_busy :
    let c := (start twoWorkers).run [.move (.trySubmit 0), .move .take, .move .start,
      .move .shutdown, .gather]
    Pool.create? 2 1 = some twoWorkers ∧ c.journal.answers = [none]
      ∧ c.journal.pool.running = [0] ∧ c.busy = 2 ∧ c.journal.pool.busy = 2 := by
  decide

end Metered

end CallAudit.Workers
