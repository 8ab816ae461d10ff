/-
CallAudit.Proofs.Workers.Capacity — how many accepted tasks a pool can have
that are still to be started.

An accepted task waits in the queue or is held by the dispatcher, which takes
a task off the queue before a worker is free for it. So there is one place
more than the queue has.

* `Journal.pending` — the accepted tasks that are still to be started, told
  by the notes alone. `Sound.pending_eq` says where in the pool they are.
* `Journal.unstarted` — with them those that were given up when the pool was
  closed: all accepted tasks that were not started.
* `Fits` — what else holds at every moment: the queue keeps to its depth.
  `length_abandoned_le` says how many tasks can be given up.
* `run_offers` — tasks that are offered to a new pool one after the other
  fill its workers, then the hands of the dispatcher, then the queue.
* `pending_le` — the bound, when it goes beyond the queue, and that every
  pool reaches it.
* `beyond_the_queue` — two tasks that wait behind the only worker of a pool
  with a queue of one place.
-/
import CallAudit.Proofs.Workers.Safety
import Mathlib.Data.List.Induction

namespace CallAudit.Workers

namespace Journal

variable {τ : Type} [DecidableEq τ]

/-- The accepted tasks that are still to be started. -/
def pending (j : Journal τ) : List τ :=
  j.accepted.filter fun t => t ∉ j.started ∧ t ∉ j.abandoned

/-- The accepted tasks that were not started: those that are still to be, and
those that were given up. -/
def unstarted (j : Journal τ) : List τ :=
  j.accepted.filter fun t => t ∉ j.started

theorem Sound.unstarted_eq {n : Nat} {j : Journal τ} (h : j.Sound n) :
    j.unstarted = (j.pool.held.toList ++ j.pool.queue) ++ j.abandoned := by
  have hnodup := h.nodup_accepted
  rw [h.order] at hnodup
  rw [unstarted, h.order, (filter_not_mem_parts hnodup).1, List.append_assoc]

/-- Those that are still to be started are the one that the dispatcher holds,
and those in the queue. -/
theorem Sound.pending_eq {n : Nat} {j : Journal τ} (h : j.Sound n) :
    j.pending = j.pool.held.toList ++ j.pool.queue := by
  have hpending : j.pending = j.unstarted.filter fun t => t ∉ j.abandoned := by
    simp [pending, unstarted, List.filter_filter, Bool.and_comm]
  have hnodup : j.unstarted.Nodup := h.nodup_accepted.filter _
  rw [h.unstarted_eq] at hpending hnodup
  rw [hpending, (filter_not_mem_parts hnodup).2]

omit [DecidableEq τ] in
/-- Once tasks are given up, none is left that is still to be started. -/
theorem Sound.idle_of_abandoned {n : Nat} {j : Journal τ} (h : j.Sound n)
    (hgone : j.abandoned ≠ []) : j.pool.held = none ∧ j.pool.queue = [] := by
  have hexpired : j.pool.phase = .expired := by
    by_contra hne
    exact hgone (h.given_up hne)
  obtain ⟨-, hqueue, hheld⟩ := h.closed (Or.inr hexpired)
  exact ⟨hheld, hqueue⟩

/-! ## The queue -/

/-- The queue of a pool has `d` places, and no more tasks than that. -/
structure Fits (d : Nat) (j : Journal τ) : Prop where
  depth : j.pool.depth = d
  queue : j.pool.queue.length ≤ d

namespace Fits

variable {d : Nat} {j j' : Journal τ}

omit [DecidableEq τ] in
theorem start {workers depth : Nat} {p : Pool τ} (made : Pool.create? workers depth = some p) :
    ({ pool := p } : Journal τ).Fits (max 1 depth) := by
  obtain rfl := Pool.create?_eq_some made
  exact ⟨rfl, Nat.zero_le _⟩

theorem change (h : j.Fits d) (hc : j.Change j') : j'.Fits d := by
  have hdepth := h.depth
  have hlen := h.queue
  cases hc with
  | queued t _ _ _ hroom =>
    refine ⟨hdepth, ?_⟩
    simp only [List.length_append, List.length_singleton]
    omega
  | accepted t rest _ hroom =>
    refine ⟨hdepth, ?_⟩
    simp only [List.length_append, List.length_singleton]
    omega
  | taken t rest _ hqueue =>
    rw [hqueue, List.length_cons] at hlen
    exact ⟨hdepth, Nat.le_of_succ_le hlen⟩
  | expired => exact ⟨hdepth, Nat.zero_le _⟩
  | _ => exact ⟨hdepth, hlen⟩

theorem run (h : j.Fits d) (moves : List (Move τ)) : (j.run moves).Fits d :=
  run_induction (fun _ _ h hc => h.change hc) h moves

end Fits

/-! ## Tasks that are given up -/

/-- No more tasks are given up than the queue and the dispatcher can hold:
that happens once, and the pool takes no tasks any more. -/
theorem length_abandoned_le {n d : Nat} {j : Journal τ} (h : j.Sound n) (hfits : j.Fits d)
    (hlen : j.abandoned.length ≤ d + 1) (moves : List (Move τ)) :
    (j.run moves).abandoned.length ≤ d + 1 := by
  refine (run_induction (motive := fun k => k.Sound n ∧ k.Fits d ∧ k.abandoned.length ≤ d + 1)
    ?_ ⟨h, hfits, hlen⟩ moves).2.2
  rintro k k' ⟨hsound, hfits, hlen⟩ hc
  refine ⟨hsound.change hc, hfits.change hc, ?_⟩
  cases hc with
  | expired hdraining =>
    have hnone := hsound.abandoned_eq_nil (Or.inr (Or.inr hdraining))
    have hheld : k.pool.held.toList.length ≤ 1 := Option.length_toList_le
    have hqueue := hfits.queue
    show (k.abandoned ++ (k.pool.held.toList ++ k.pool.queue)).length ≤ d + 1
    rw [hnone, List.nil_append, List.length_append]
    omega
  | _ => exact hlen

/-! ## A pool that is filled -/

/-- Tasks are offered one after the other, and each goes on as far as it
can. -/
def offers (ts : List τ) : List (Move τ) :=
  ts.flatMap fun t => [.trySubmit t, .take, .start]

/-- A pool with some tasks: the first of them run, one is held, and the
others are in the queue. -/
def filled (p : Pool τ) (ts : List τ) : Journal τ where
  pool := { p with
    queue := ts.drop (p.workers + 1), held := ts[p.workers]?, running := ts.take p.workers }
  given := ts
  accepted := ts
  started := ts.take p.workers

/-- One task more fills the next place. -/
theorem filled_concat {p : Pool τ} (serving : p.phase = .serving) (idle : p.waiting = [])
    (positive : 0 < p.depth) {ts : List τ} {t : τ} (fresh : t ∉ ts)
    (room : ts.length < p.workers + 1 + p.depth) :
    (filled p ts).run [.trySubmit t, .take, .start] = filled p (ts ++ [t]) := by
  have hroom : decide ((ts.drop (p.workers + 1)).length < p.depth) = true :=
    decide_eq_true (by rw [List.length_drop]; omega)
  have hgiven : (filled p ts).step (.trySubmit t)
      = { filled p ts with
          pool := { (filled p ts).pool with queue := ts.drop (p.workers + 1) ++ [t] }
          given := ts ++ [t], accepted := ts ++ [t] } := by
    simp only [step, filled, fresh, if_false, Pool.trySubmit, Pool.hasRoom, serving, idle, hroom,
      ne_eq, not_true, List.isEmpty_nil, Bool.and_true, if_true]
  simp only [run, List.foldl_cons, List.foldl_nil, hgiven]
  rcases Nat.lt_trichotomy ts.length p.workers with hlt | heq | hgt
  · -- a worker is free, and the task goes through to it
    have hlen : (ts ++ [t]).length ≤ p.workers := by
      rw [List.length_append, List.length_singleton]
      omega
    have hqueue : ts.drop (p.workers + 1) = [] := List.drop_eq_nil_of_le (by omega)
    have hheld : ts[p.workers]? = none := List.getElem?_eq_none (by omega)
    have hrunning : ts.take p.workers = ts := List.take_of_length_le (by omega)
    simp only [step, filled, Pool.take?, Pool.start?, hqueue, hheld, hrunning, List.nil_append,
      hlt, if_true, List.take_of_length_le hlen, List.getElem?_eq_none hlen,
      List.drop_eq_nil_of_le (Nat.le_succ_of_le hlen)]
  · -- all workers are busy, and the dispatcher holds the task
    have hqueue : ts.drop (p.workers + 1) = [] := List.drop_eq_nil_of_le (by omega)
    have hheld : ts[p.workers]? = none := List.getElem?_eq_none (by omega)
    have hrunning : ts.take p.workers = ts := List.take_of_length_le (by omega)
    have hafter : (ts ++ [t]).drop (p.workers + 1) = [] :=
      List.drop_eq_nil_of_le (by rw [List.length_append, List.length_singleton]; omega)
    have hnext : (ts ++ [t])[p.workers]? = some t := by
      rw [← heq, List.getElem?_concat_length]
    have hfirst : (ts ++ [t]).take p.workers = ts := by
      rw [← heq, List.take_left]
    simp only [step, filled, Pool.take?, Pool.start?, hqueue, hheld, hrunning, List.nil_append,
      heq, Nat.lt_irrefl, if_false, hafter, hnext, hfirst]
  · -- the dispatcher holds another, and the task stays in the queue
    have hrunning : ¬ (ts.take p.workers).length < p.workers := by
      rw [List.length_take]
      omega
    have hheld : (ts ++ [t])[p.workers]? = ts[p.workers]? := List.getElem?_append_left hgt
    rw [List.getElem?_eq_getElem hgt] at hheld
    simp only [step, filled, Pool.take?, Pool.start?, List.getElem?_eq_getElem hgt, hrunning,
      if_false, hheld, List.take_append_of_le_length (Nat.le_of_lt hgt),
      List.drop_append_of_le_length hgt]

/-- Tasks fill a new pool in the order they are offered. -/
theorem run_offers {workers depth : Nat} (positive : 0 < depth) (ts : List τ) :
    ts.Nodup → ts.length ≤ workers + 1 + depth →
      ({ pool := { workers, depth } } : Journal τ).run (offers ts)
        = filled { workers, depth } ts := by
  induction ts using List.reverseRecOn with
  | nil =>
    intro _ _
    simp [offers, run, filled]
  | append_singleton ts t ih =>
    intro hnodup hlen
    obtain ⟨hnodup, -, hfresh⟩ := List.nodup_append.mp hnodup
    rw [List.length_append, List.length_singleton] at hlen
    have hsplit : offers (ts ++ [t]) = offers ts ++ [.trySubmit t, .take, .start] := by
      simp [offers]
    have hnew : t ∉ ts := fun ht => hfresh t ht t (List.mem_singleton_self t) rfl
    have hlast : ts.length < workers + 1 + depth := by omega
    rw [hsplit, run, List.foldl_append]
    exact (congrArg (fun j => List.foldl step j _) (ih hnodup (by omega))).trans
      (filled_concat rfl rfl positive hnew hlast)

/-- **Behind the workers.** However tasks are given to a pool, started and
ended, the accepted ones that are still to be started are the one that the
dispatcher holds and those in the queue: one more than the queue has places
at most, and more than it has places exactly while the dispatcher holds a
task and the queue is full. The bound is the same if the tasks are counted
that were given up when the pool was closed. Every pool gets there: if tasks
are offered to a new one, it takes one for each worker, one more, and one for
each place of the queue, before the next is refused. -/
theorem pending_le {workers depth : Nat} {p : Pool τ}
    (made : Pool.create? workers depth = some p) (moves : List (Move τ)) :
    let j := ({ pool := p } : Journal τ).run moves
    j.pending = j.pool.held.toList ++ j.pool.queue
      ∧ j.pending.length ≤ max 1 depth + 1
      ∧ j.unstarted.length ≤ max 1 depth + 1
      ∧ (max 1 depth < j.pending.length ↔
          j.pool.held.isSome = true ∧ j.pool.queue.length = max 1 depth)
      ∧ ∀ ts : List τ, ts.Nodup →
          ts.length = max 1 (min workers 10000) + 1 + max 1 depth →
            let k := ({ pool := p } : Journal τ).run (offers ts)
            k.accepted = ts ∧ k.started = ts.take (max 1 (min workers 10000))
              ∧ k.pending.length = max 1 depth + 1
              ∧ ∀ t, t ∉ ts → t ∈ (k.step (.trySubmit t)).refused := by
  intro j
  have h : j.Sound _ := (Sound.start made).run moves
  have hfits : j.Fits (max 1 depth) := (Fits.start made).run moves
  have hpending := h.pending_eq
  have hlen : j.pending.length = j.pool.held.toList.length + j.pool.queue.length := by
    rw [hpending, List.length_append]
  have hheld : j.pool.held.toList.length ≤ 1 := Option.length_toList_le
  have hqueue := hfits.queue
  refine ⟨hpending, ?_, ?_, ?_, fun ts hnodup hts => ?_⟩
  · omega
  · rw [h.unstarted_eq]
    by_cases hgone : j.abandoned = []
    · rw [hgone, List.append_nil, List.length_append]
      omega
    · obtain ⟨hidle, hempty⟩ := h.idle_of_abandoned hgone
      rw [hidle, hempty]
      exact length_abandoned_le (Sound.start made) (Fits.start made) (Nat.zero_le _) moves
  · rw [hlen]
    cases j.pool.held <;> simp only [Option.toList_none, Option.toList_some, List.length_nil,
      List.length_singleton, Option.isSome_none, Option.isSome_some, Bool.false_eq_true,
      false_and, true_and, iff_false] <;> omega
  · intro k
    have hsound : k.Sound _ := (Sound.start made).run (offers ts)
    have hplace : 0 < max 1 depth := by omega
    obtain rfl := Pool.create?_eq_some made
    have hfilled : k = filled _ ts := run_offers hplace ts hnodup (Nat.le_of_eq hts)
    have hfull : (ts.drop (max 1 (min workers maxWorkers) + 1)).length = max 1 depth := by
      rw [List.length_drop, hts, maxWorkers]
      omega
    have hlast : max 1 (min workers maxWorkers) < ts.length := by
      rw [hts, maxWorkers]
      omega
    refine ⟨congrArg Journal.accepted hfilled, congrArg Journal.started hfilled, ?_, ?_⟩
    · rw [hsound.pending_eq, List.length_append, hfilled]
      simp only [filled, hfull, List.getElem?_eq_getElem hlast, Option.toList_some,
        List.length_singleton]
      omega
    · intro t ht
      rw [hfilled]
      simp [step, filled, ht, Pool.trySubmit, Pool.hasRoom, hfull]

/-- A pool that was asked for without a queue has one of one place. Three
tasks go into it, of which the first runs, and a fourth does not. -/
theorem pending_le_full :
    let j := ({ pool := soleWorker } : Journal Nat).run (offers [7, 8, 9])
    j.accepted = [7, 8, 9] ∧ j.started = [7] ∧ j.pending.length = 2
      ∧ 5 ∈ (j.step (.trySubmit 5)).refused := by
  obtain ⟨-, -, -, -, hfull⟩ := pending_le (rfl : Pool.create? 0 0 = some soleWorker) []
  obtain ⟨haccepted, hstarted, hpending, hrefused⟩ := hfull [7, 8, 9] (by decide) rfl
  exact ⟨haccepted, hstarted, hpending, hrefused 5 (by decide)⟩

/-- Two accepted tasks wait behind the only worker, and the queue has one
place. -/
theorem beyond_the_queue :
    let j := ({ pool := soleWorker } : Journal Nat).run (offers [0, 1, 2])
    Pool.create? 1 1 = some soleWorker ∧ j.accepted = [0, 1, 2] ∧ j.started = [0]
      ∧ j.pending = [1, 2] ∧ ¬ j.pending.length ≤ max 1 1 := by
  decide

end Journal

end CallAudit.Workers
