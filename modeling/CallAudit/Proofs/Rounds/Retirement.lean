/-
CallAudit.Proofs.Rounds.Retirement — which jobs a worker retires as done.

* `Task`, `Pipeline` — a store with everything that has happened to it, and
  the jobs that were handed out, each with its run and the exchanges the run
  has made.
* `Turn`, `Pipeline.of` — the statements of the store and the steps of all
  runs in any order. A run may find any guard and any replies; a statement
  may fail, and a run may never be started or never be heard of again.
* `Task.Told` — what the exchanges of a run are: those of an audit, as far
  as the run has come. A job that was not taken has none.
* `Accounted` — the invariant, which ties the rows to the tasks. A row that
  is not queued has a task, a row that is done or reaped one whose run
  delivered something or was rejected, and a task that nobody retired and
  nothing discarded has a row in progress.
* `Change`, `HandOut` — what a turn may do to a pipeline without breaking
  this. Handing out jobs is the second, and all other turns are the first.
* `done_only_if_delivered` — what it is for: no job is done, and no
  watermark moved, without a delivery or a rejection.
-/
import CallAudit.Proofs.Audit.Exclusion
import CallAudit.Proofs.Audit.Protocol
import CallAudit.Proofs.Store.Books
import CallAudit.Rounds.Dispatch

namespace CallAudit

open CallAudit.Http (Exchange Reply Session)
open CallAudit.Time (Instant)

namespace Rounds

open Store

/-! ## Tasks -/

/-- What is asked of the store for a job whose audit has ended. -/
def retirement (job : Int) : Outcome → Option Operation
  | .delivered _ | .rejected _ => some (.markDone job)
  | .inHand _ => some (.release job)
  | .abandoned .. => none

/-- Retiring a job is this operation. -/
theorem retire_eq (c : Connection) (job : Int) (o : Outcome) :
    retire c job o = (retirement job o).elim c c.perform := by
  cases o <;> rfl

/-- A job that was handed out, with its run. -/
structure Task where
  job : Job
  run : Run
  /-- The exchanges of the run so far. -/
  log : List Exchange := []
  /-- What the store answered when the job was retired. -/
  answer : Option (Except Trouble Bool) := none
  /-- Whether all jobs were removed since the job was handed out. -/
  isDiscarded : Bool := false

namespace Task

/-- The task of a row that is handed out. -/
def begun (j : Row) : Task :=
  { job := j.job .inProgress, run := .new (j.job .inProgress) }

/-- One step of the run of a task. -/
def work (t : Task) (a : Auditor) (g : Guard) (reply : Reply) : Task :=
  { t with
    run := (t.run.step a g reply).1
    log := t.log ++ (t.run.request?.map fun r => (r, reply)).toList }

/-- What is to be asked of the store for a task, once. -/
def due? (t : Task) : Option Operation :=
  match t.answer, t.run with
  | none, .ended o => retirement t.job.id o
  | _, _ => none

theorem due?_eq_some {t : Task} {op : Operation} (h : t.due? = some op) :
    t.answer = none ∧ ∃ o, t.run = .ended o ∧ retirement t.job.id o = some op := by
  unfold due? at h
  split at h
  · rename_i o hanswer hrun
    exact ⟨hanswer, o, hrun, h⟩
  · cases h

/-- The store has done what was asked of it when the job was retired. -/
def IsRetired (t : Task) : Prop :=
  ∃ b, t.answer = some (.ok b)

/-- The run delivered something or was rejected. -/
def Earned (t : Task) : Prop :=
  (∃ d, t.run = .ended (.delivered d)) ∨ ∃ r, t.run = .ended (.rejected r)

/-- The job was removed without having been done. -/
def Gone (t : Task) : Prop :=
  t.isDiscarded = true ∨ (t.IsRetired ∧ ∃ call, t.run = .ended (.inHand call))

/-- The run delivered something, and its last request was the delivery,
which succeeded; or it was rejected, and made no request. -/
def Fulfilled (t : Task) : Prop :=
  (∃ d, t.run = .ended (.delivered d) ∧ ∃ a p e x, t.job.params = some p
    ∧ t.log.getLast? = some x ∧ (e = .patch ∨ e = .rate) ∧ Errand.Asks a p e x.1
    ∧ x.2.any (·.isSuccess) = true) ∨
  (∃ r, t.run = .ended (.rejected r) ∧ t.log = [])

theorem Earned.not_inHand {t : Task} (h : t.Earned) (call : String) :
    t.run ≠ .ended (.inHand call) := by
  rcases h with ⟨d, hrun⟩ | ⟨r, hrun⟩ <;> simp [hrun]

/-! ## What the exchanges of a task are -/

/-- The exchanges of a task are those of an audit of its job, as far as the
run has come. -/
def Told (t : Task) : Prop :=
  match t.run with
  | .new job => job = t.job ∧ t.log = []
  | .underway _ rest => ∃ (a : Auditor) (p : Params), t.job.params = some p
      ∧ ∀ more o, rest.Goes more o → (a.conduct p p.call).Goes (t.log ++ more) o
  | .ended o => (t.log = [] ∧ ((∃ r, o = .rejected r) ∨ ∃ call, o = .inHand call)) ∨
      ∃ (a : Auditor) (p : Params), t.job.params = some p ∧ (a.conduct p p.call).Goes t.log o

/-- A job is declined as rejected or as already in hand. -/
theorem receive_declined {g : Guard} {job : Job} {o : Outcome}
    (declined : receive g job = .declined o) :
    (∃ r, o = .rejected r) ∨ ∃ call, o = .inHand call := by
  unfold receive at declined
  split at declined
  · cases declined
    exact Or.inl ⟨_, rfl⟩
  · split at declined
    · split at declined <;> cases declined
      exact Or.inr ⟨_, rfl⟩
    · cases declined
      exact Or.inl ⟨_, rfl⟩

/-- A step of the run goes on with what it has told. -/
theorem Told.work {t : Task} (h : t.Told) (a : Auditor) (g : Guard) (reply : Reply) :
    (t.work a g reply).Told := by
  obtain ⟨job, run, log, answer, isDiscarded⟩ := t
  cases run with
  | new job =>
    obtain ⟨rfl, rfl⟩ := h
    simp only [Task.work, Run.step]
    cases hrec : receive g job with
    | declined o => exact Or.inl ⟨rfl, receive_declined hrec⟩
    | taken p g' => exact ⟨a, p, (receive_taken hrec).1, fun more o hgoes => hgoes⟩
  | underway call rest =>
    obtain ⟨b, p, hparams, hgoes⟩ := h
    cases rest with
    | done o => exact Or.inr ⟨b, p, hparams, hgoes [] o ⟨rfl, rfl⟩⟩
    | ask delay r next =>
      refine ⟨b, p, hparams, fun more o hmore => ?_⟩
      simp only [Task.work, Run.request?, Option.map_some, Option.toList_some, List.append_assoc]
      exact hgoes ((r, reply) :: more) o ⟨reply, more, rfl, hmore⟩
  | ended o =>
    simp only [Told, Task.work, Run.step, Run.request?, Option.map_none, Option.toList_none,
      List.append_nil]
    exact h

/-- What an audit ends with. -/
theorem goes_conduct {a : Auditor} {p : Params} {log : List Exchange} {o : Outcome}
    (h : (a.conduct p p.call).Goes log o) :
    ∃ result, (a.audit p p.call).Goes log result ∧ o = .ofResult result := by
  obtain ⟨before, result, after, rfl, haudit, rfl, rfl⟩ := Session.goes_bind.mp h
  rw [List.append_nil]
  exact ⟨result, haudit, rfl⟩

/-- An audit that delivers something ends with a delivery that succeeded. -/
theorem delivery_last {a : Auditor} {p : Params} {log : List Exchange} {d : Delivery}
    (h : (a.audit p p.call).Goes log (.ok d)) :
    ∃ e x, log.getLast? = some x ∧ (e = .patch ∨ e = .rate) ∧ Errand.Asks a p e x.1
      ∧ x.2.any (·.isSuccess) = true := by
  obtain ⟨create, polls, found, after, rfl, -, -, ⟨-, -, hresult⟩ | ⟨-, made, rfl, hwalk⟩⟩ :=
    audit_cases h
  · cases hresult
  · obtain ⟨x, hlast, hkind, hasks, hsuccess⟩ := hwalk.delivered
    refine ⟨x.1, x.2, ?_, hkind, hasks, hsuccess⟩
    rw [List.getLast?_append, List.getLast?_map, hlast]
    rfl

theorem Earned.fulfilled {t : Task} (h : t.Earned) (told : t.Told) : t.Fulfilled := by
  rcases h with ⟨d, hrun⟩ | ⟨r, hrun⟩
  · simp only [Told, hrun, reduceCtorEq, exists_false, or_self, and_false, false_or] at told
    obtain ⟨a, p, hparams, hgoes⟩ := told
    obtain ⟨result, haudit, ho⟩ := goes_conduct hgoes
    cases result with
    | error f => cases ho
    | ok d' =>
      obtain ⟨e, x, hx⟩ := delivery_last haudit
      exact Or.inl ⟨d, hrun, a, p, e, x, hparams, hx⟩
  · simp only [Told, hrun] at told
    rcases told with ⟨hlog, -⟩ | ⟨a, p, -, hgoes⟩
    · exact Or.inr ⟨r, hrun, hlog⟩
    · -- a run that was taken does not end as rejected
      obtain ⟨result, -, ho⟩ := goes_conduct hgoes
      cases result <;> cases ho

end Task

/-! ## Turns -/

/-- A store with its history, and the jobs that were handed out. -/
structure Pipeline where
  chronicle : Chronicle
  tasks : List Task := []

/-- What happens next: a statement of the store, a step of a run, a job is
retired whose run has ended, or statements begin to fail or to succeed
again. -/
inductive Turn where
  | enqueueAll (ceiling : Int)
  | claim (batch : Int)
  | work (job : Int) (auditor : Auditor) (guard : Guard) (reply : Reply)
  | retire (job : Int)
  | reap
  | discardAll
  | trouble (closed : Bool) (noInsert noRetire : List Int)

/-- What a connection answers when a job is retired. -/
def answerTo (c : Connection) : Operation → Except Trouble Bool
  | .markDone job => (c.markDone job).1
  | .release job => (c.release job).1
  | _ => .ok false

namespace Pipeline

abbrev store (x : Pipeline) : Store :=
  x.chronicle.store

/-- The rows that were removed by reaping. -/
abbrev reaped (x : Pipeline) : List Row :=
  x.chronicle.reaped

/-- The pipeline after an operation and a change of its tasks. -/
def after (x : Pipeline) (op : Operation) (f : Task → Task) : Pipeline :=
  ⟨x.chronicle.next op, x.tasks.map f⟩

/-- The task of one job is changed. -/
def only (job : Int) (f : Task → Task) (t : Task) : Task :=
  if t.job.id = job then f t else t

theorem only_eq {β : Type} (part : Task → β) {job : Int} {f : Task → Task}
    (h : ∀ t, part (f t) = part t) (t : Task) : part (only job f t) = part t := by
  unfold only
  split
  · exact h t
  · rfl

/-- The pipeline after one more turn. -/
def step (x : Pipeline) : Turn → Pipeline
  | .enqueueAll ceiling => x.after (.enqueueAll ceiling) id
  | .claim batch =>
    let jobs := (x.chronicle.connection.claim batch).1.toOption.getD []
    ⟨x.chronicle.next (.claim batch), x.tasks ++ jobs.map fun job => { job, run := .new job }⟩
  | .work job a g reply => { x with tasks := x.tasks.map (only job (·.work a g reply)) }
  | .retire job =>
    match (x.tasks.find? (·.job.id = job)).bind Task.due? with
    | some op =>
      x.after op (only job fun t => { t with answer := some (answerTo x.chronicle.connection op) })
    | none => x
  | .reap => x.after .reap id
  | .discardAll =>
    let done := x.chronicle.connection.discardAll.1.toOption.isSome
    x.after .discardAll fun t => { t with isDiscarded := t.isDiscarded || done }
  | .trouble closed noInsert noRetire => x.after (.trouble closed noInsert noRetire) id

/-- The pipeline after some turns. -/
def of (c : Connection) (turns : List Turn) : Pipeline :=
  turns.foldl step { chronicle := { connection := c } }

/-! ## The invariant -/

/-- What holds after any turns from the store `s₀` on. -/
structure Accounted (s₀ : Store) (x : Pipeline) : Prop where
  books : Books s₀ x.reaped x.store
  told : ∀ t ∈ x.tasks, t.Told
  answered : ∀ t ∈ x.tasks, t.answer ≠ none →
    ∃ o, t.run = .ended o ∧ (retirement t.job.id o).isSome = true
  ids : (x.tasks.map (·.job.id)).Nodup
  below : ∀ t ∈ x.tasks, t.job.id < x.store.nextJob
  queued : ∀ j ∈ x.store.jobs, j.state = Progress.queued.tag → ∀ t ∈ x.tasks, t.job.id ≠ j.id
  claimed : ∀ j ∈ x.store.jobs, j.state ≠ Progress.queued.tag →
    (j.state = Progress.inProgress.tag ∨ isDone j = true)
      ∧ ∃ t ∈ x.tasks, t.job = j.job .inProgress
  done : ∀ j, j ∈ x.store.jobs ∧ isDone j = true ∨ j ∈ x.reaped →
    ∃ t ∈ x.tasks, t.job = j.job .inProgress ∧ t.Earned
  kept : ∀ t ∈ x.tasks, t.isDiscarded = false → ¬ t.IsRetired →
    ∃ j ∈ x.store.jobs, j.id = t.job.id ∧ j.state = Progress.inProgress.tag
  gone : ∀ t ∈ x.tasks, t.Gone → ∀ j ∈ x.store.jobs, j.id ≠ t.job.id

/-- A turn that hands nothing out. Rows may leave; those that are there were
there, or are new and queued, or were in progress and are done now, for a
task that has earned it. A task that could rely on its row still can. -/
structure Change (s₀ : Store) (x y : Pipeline) (f : Task → Task) : Prop where
  books : Books s₀ y.reaped y.store
  next : x.store.nextJob ≤ y.store.nextJob
  tasks : y.tasks = x.tasks.map f
  job : ∀ t, (f t).job = t.job
  told : ∀ t ∈ x.tasks, (f t).Told
  answered : ∀ t ∈ x.tasks, (f t).answer ≠ none →
    ∃ o, (f t).run = .ended o ∧ (retirement t.job.id o).isSome = true
  earned : ∀ t ∈ x.tasks, t.Earned → (f t).Earned
  back : ∀ j ∈ y.store.jobs, j ∈ x.store.jobs ∨
    (j.state = Progress.queued.tag ∧ x.store.nextJob ≤ j.id) ∨
    (isDone j = true ∧ (∃ k ∈ x.store.jobs, k.bare = j.bare ∧ k.state ≠ Progress.queued.tag)
      ∧ ∀ t ∈ x.tasks, t.job.id = j.id → (f t).Earned)
  reaped : ∀ j ∈ y.reaped, j ∈ x.reaped ∨ (j ∈ x.store.jobs ∧ isDone j = true)
  kept : ∀ t ∈ x.tasks, (f t).isDiscarded = false → ¬ (f t).IsRetired →
    t.isDiscarded = false ∧ ¬ t.IsRetired ∧ ∀ j ∈ x.store.jobs, j.id = t.job.id →
      j.state = Progress.inProgress.tag → j ∈ y.store.jobs
  gone : ∀ t ∈ x.tasks, (f t).Gone → t.Gone ∨ ∀ j ∈ y.store.jobs, j.id ≠ t.job.id

/-- A turn that hands out jobs. Their rows were queued and are in progress
now, and all others are as they were. -/
structure HandOut (s₀ : Store) (x y : Pipeline) (taken : List Row) : Prop where
  books : Books s₀ y.reaped y.store
  next : y.store.nextJob = x.store.nextJob
  tasks : y.tasks = x.tasks ++ taken.map Task.begun
  ids : (taken.map (·.id)).Nodup
  present : ∀ k ∈ taken, k ∈ y.store.jobs ∧ k.state = Progress.inProgress.tag
  before : ∀ k ∈ taken, ∃ i ∈ x.store.jobs, i.state = Progress.queued.tag ∧ i.id = k.id
  back : ∀ j ∈ y.store.jobs, j ∈ x.store.jobs ∨ j ∈ taken
  forth : ∀ j ∈ x.store.jobs, j.state ≠ Progress.queued.tag → j ∈ y.store.jobs
  reaped : ∀ j ∈ y.reaped, j ∈ x.reaped ∨ (j ∈ x.store.jobs ∧ isDone j = true)

namespace Accounted

variable {s₀ : Store} {x : Pipeline}

theorem start {c : Connection} (keys : c.store.Keyed) (empty : c.store.jobs = []) :
    Accounted c.store { chronicle := { connection := c } } where
  books := .start keys empty
  told := by simp
  answered := by simp
  ids := by simp
  below := by simp
  queued := by simp
  claimed := fun j hj => absurd (empty ▸ hj : j ∈ []) List.not_mem_nil
  done := fun j hj => absurd (empty ▸ hj.resolve_right List.not_mem_nil).1 List.not_mem_nil
  kept := by simp
  gone := by simp

/-- Two tasks of one job are the same. -/
theorem task_eq (h : Accounted s₀ x) {t u : Task} (ht : t ∈ x.tasks) (hu : u ∈ x.tasks)
    (hid : t.job.id = u.job.id) : t = u :=
  List.inj_on_of_nodup_map h.ids ht hu hid

theorem change (h : Accounted s₀ x) {y : Pipeline} {f : Task → Task} (c : Change s₀ x y f) :
    Accounted s₀ y := by
  have mem : ∀ u, u ∈ y.tasks ↔ ∃ t ∈ x.tasks, f t = u := by
    intro u
    rw [c.tasks, List.mem_map]
  -- a task of before is still there, with the same job
  have earns : ∀ {t j}, t ∈ x.tasks → t.job = Row.job j .inProgress → (f t).Earned →
      ∃ u ∈ y.tasks, u.job = j.job .inProgress ∧ u.Earned := fun {t j} ht hjob hearned =>
    ⟨f t, (mem _).mpr ⟨t, ht, rfl⟩, (c.job t).trans hjob, hearned⟩
  refine
    { books := c.books, told := ?_, answered := ?_, ids := ?_, below := ?_, queued := ?_
      claimed := ?_, done := ?_, kept := ?_, gone := ?_ }
  · intro u hu
    obtain ⟨t, ht, rfl⟩ := (mem u).mp hu
    exact c.told t ht
  · intro u hu
    obtain ⟨t, ht, rfl⟩ := (mem u).mp hu
    rw [c.job]
    exact c.answered t ht
  · have hjobs : y.tasks.map (·.job.id) = x.tasks.map (·.job.id) := by
      rw [c.tasks, List.map_map]
      exact List.map_congr_left fun t _ => by simp [c.job]
    rw [hjobs]
    exact h.ids
  · intro u hu
    obtain ⟨t, ht, rfl⟩ := (mem u).mp hu
    rw [c.job]
    exact Int.lt_of_lt_of_le (h.below t ht) c.next
  · intro j hj hstate u hu
    obtain ⟨t, ht, rfl⟩ := (mem u).mp hu
    rw [c.job]
    rcases c.back j hj with hj | ⟨-, hid⟩ | ⟨hdone, -⟩
    · exact h.queued j hj hstate t ht
    · have := h.below t ht
      omega
    · simp [isDone, hstate, Progress.tag] at hdone
  · intro j hj hstate
    rcases c.back j hj with hj | ⟨hqueued, -⟩ | ⟨hdone, ⟨k, hk, hkj, hne⟩, -⟩
    · obtain ⟨hstates, t, ht, hjob⟩ := h.claimed j hj hstate
      exact ⟨hstates, f t, (mem _).mpr ⟨t, ht, rfl⟩, (c.job t).trans hjob⟩
    · exact absurd hqueued hstate
    · obtain ⟨-, t, ht, hjob⟩ := h.claimed k hk hne
      rw [Row.job_eq_of_bare hkj] at hjob
      exact ⟨Or.inr hdone, f t, (mem _).mpr ⟨t, ht, rfl⟩, (c.job t).trans hjob⟩
  · have olds : ∀ j, j ∈ x.store.jobs ∧ isDone j = true ∨ j ∈ x.reaped →
        ∃ u ∈ y.tasks, u.job = j.job .inProgress ∧ u.Earned := by
      intro j hj
      obtain ⟨t, ht, hjob, hearned⟩ := h.done j hj
      exact earns ht hjob (c.earned t ht hearned)
    rintro j (⟨hj, hdone⟩ | hj)
    · rcases c.back j hj with hj | ⟨hqueued, -⟩ | ⟨-, ⟨k, hk, hkj, hne⟩, hearned⟩
      · exact olds j (Or.inl ⟨hj, hdone⟩)
      · simp [isDone, hqueued, Progress.tag] at hdone
      · obtain ⟨-, t, ht, hjob⟩ := h.claimed k hk hne
        rw [Row.job_eq_of_bare hkj] at hjob
        exact earns ht hjob (hearned t ht (by rw [hjob]; rfl))
    · rcases c.reaped j hj with hj | hj
      · exact olds j (Or.inr hj)
      · exact olds j (Or.inl hj)
  · intro u hu hdiscarded hretired
    obtain ⟨t, ht, rfl⟩ := (mem u).mp hu
    obtain ⟨hd, hr, hrow⟩ := c.kept t ht hdiscarded hretired
    obtain ⟨j, hj, hid, hstate⟩ := h.kept t ht hd hr
    exact ⟨j, hrow j hj hid hstate, by rw [hid, c.job], hstate⟩
  · intro u hu hgone j hj
    obtain ⟨t, ht, rfl⟩ := (mem u).mp hu
    rw [c.job]
    rcases c.gone t ht hgone with hgone | hnone
    · rcases c.back j hj with hj | ⟨-, hid⟩ | ⟨-, ⟨k, hk, hkj, -⟩, -⟩
      · exact h.gone t ht hgone j hj
      · have := h.below t ht
        omega
      · rw [← Row.id_eq_of_bare hkj]
        exact h.gone t ht hgone k hk
    · exact hnone j hj

/-- A turn that leaves the tasks alone: rows may leave if they are not in
progress, and new ones may be queued. -/
theorem after_id (keys : s₀.Keyed) (h : Accounted s₀ x) {op : Operation} {s : Store}
    (hs : (x.chronicle.connection.perform op).store = s) (next : x.store.nextJob ≤ s.nextJob)
    (back : ∀ j ∈ s.jobs, j ∈ x.store.jobs ∨
      (j.state = Progress.queued.tag ∧ x.store.nextJob ≤ j.id))
    (forth : ∀ j ∈ x.store.jobs, j.state = Progress.inProgress.tag → j ∈ s.jobs) :
    Accounted s₀ (x.after op id) := by
  subst hs
  exact h.change
    { books := Chronicle.books_next keys h.books op
      next := next
      tasks := rfl
      job := fun _ => rfl
      told := h.told
      answered := h.answered
      earned := fun _ _ hearned => hearned
      back := fun j hj => (back j hj).imp_right Or.inl
      reaped := fun j hj => Chronicle.mem_reaped_next h.books.ids hj
      kept := fun t _ hd hr => ⟨hd, hr, fun j hj _ hstate => forth j hj hstate⟩
      gone := fun t _ hgone => Or.inl hgone }

theorem enqueueAll (keys : s₀.Keyed) (h : Accounted s₀ x) (ceiling : Int) :
    Accounted s₀ (x.step (.enqueueAll ceiling)) := by
  obtain ⟨hnext, hkept, hback⟩ := (x.chronicle.connection.enqueueAll_enqueued ceiling).mem_jobs
  exact h.after_id keys rfl hnext hback fun j hj _ => hkept j hj

theorem trouble (keys : s₀.Keyed) (h : Accounted s₀ x) (closed : Bool)
    (noInsert noRetire : List Int) : Accounted s₀ (x.step (.trouble closed noInsert noRetire)) :=
  h.after_id keys rfl (Int.le_refl _) (fun _ hj => Or.inl hj) fun _ hj _ => hj

theorem reap (keys : s₀.Keyed) (h : Accounted s₀ x) : Accounted s₀ (x.step .reap) := by
  rcases x.chronicle.connection.carry_store Store.reap with hs | hs
  · exact h.after_id keys hs (Int.le_refl _) (fun _ hj => Or.inl hj) fun _ hj _ => hj
  · refine h.after_id keys hs (Int.le_refl _) (fun j hj => Or.inl (List.mem_filter.mp hj).1) ?_
    intro j hj hstate
    refine List.mem_filter.mpr ⟨hj, ?_⟩
    rw [isDone, hstate]
    rfl

theorem discardAll (keys : s₀.Keyed) (h : Accounted s₀ x) : Accounted s₀ (x.step .discardAll) := by
  have books := Chronicle.books_next keys h.books .discardAll
  have reaped : ∀ j ∈ (x.chronicle.next .discardAll).reaped, j ∈ x.reaped
      ∨ (j ∈ x.store.jobs ∧ isDone j = true) := fun j => Chronicle.mem_reaped_next h.books.ids
  rcases x.chronicle.connection.carry_cases (fun s => (s.discardAll, ())) with
    ⟨hanswer, hs⟩ | ⟨t, hanswer, hs⟩
  · have hjobs : (x.step .discardAll).store.jobs = [] := congrArg Store.jobs hs
    refine h.change
      { books := books, next := ?_, tasks := rfl, job := fun _ => rfl, told := h.told
        answered := h.answered, earned := fun _ _ hearned => hearned, back := ?_
        reaped := reaped, kept := ?_, gone := ?_ }
    · exact Int.le_of_eq (congrArg Store.nextJob hs).symm
    · simp [hjobs]
    · intro t ht hd
      simp [Connection.discardAll, hanswer, Except.toOption] at hd
    · exact fun t ht _ => Or.inr (by simp [hjobs])
  · have hsame : ∀ t : Task, { t with isDiscarded := t.isDiscarded ||
        x.chronicle.connection.discardAll.1.toOption.isSome } = t := by
      intro t
      simp [Connection.discardAll, hanswer, Except.toOption]
    have hafter : x.step .discardAll = x.after .discardAll id := by
      simp only [step, hsame]
      rfl
    rw [hafter]
    exact h.after_id keys hs (Int.le_refl _) (fun _ hj => Or.inl hj) fun _ hj _ => hj

/-- A step of a run touches the run and its exchanges. A run that has ended
stays as it is. -/
theorem work (h : Accounted s₀ x) (job : Int) (a : Auditor) (g : Guard) (reply : Reply) :
    Accounted s₀ (x.step (.work job a g reply)) := by
  let f := only job (·.work a g reply)
  have hjob : ∀ t, (f t).job = t.job := only_eq Task.job fun _ => rfl
  have hdiscarded : ∀ t, (f t).isDiscarded = t.isDiscarded := only_eq Task.isDiscarded fun _ => rfl
  have hanswer : ∀ t, (f t).answer = t.answer := only_eq Task.answer fun _ => rfl
  have hended : ∀ t o, t.run = .ended o → (f t).run = .ended o := fun t o hrun => by
    simp only [f, only]
    split
    · simp only [Task.work, hrun]
      rfl
    · exact hrun
  refine h.change
    { books := h.books, next := Int.le_refl _, tasks := rfl, job := hjob
      told := ?_, answered := ?_, earned := ?_, back := fun _ hj => Or.inl hj
      reaped := fun _ hj => Or.inl hj, kept := ?_, gone := ?_ }
  · intro t ht
    simp only [only]
    split
    · exact (h.told t ht).work a g reply
    · exact h.told t ht
  · intro t ht hans
    rw [hanswer] at hans
    obtain ⟨o, hrun, hret⟩ := h.answered t ht hans
    exact ⟨o, hended t o hrun, hret⟩
  · rintro t - (⟨d, hrun⟩ | ⟨r, hrun⟩)
    · exact Or.inl ⟨d, hended t _ hrun⟩
    · exact Or.inr ⟨r, hended t _ hrun⟩
  · intro t ht hd hr
    rw [hdiscarded] at hd
    rw [Task.IsRetired, hanswer] at hr
    exact ⟨hd, hr, fun j hj _ _ => hj⟩
  · rintro t ht (hd | ⟨⟨b, hb⟩, call, hrun⟩)
    · rw [hdiscarded] at hd
      exact Or.inl (Or.inl hd)
    · rw [hanswer] at hb
      obtain ⟨o, ho, -⟩ := h.answered t ht (by rw [hb]; exact Option.some_ne_none _)
      rw [hended t o ho] at hrun
      exact Or.inl (Or.inr ⟨⟨b, hb⟩, call, ho.trans hrun⟩)

/-- A job is retired whose run has ended, and its task notes the answer. -/
theorem retired (keys : s₀.Keyed) (h : Accounted s₀ x) {t : Task} (ht : t ∈ x.tasks)
    {op : Operation} (due : t.due? = some op) {answer : Except Trouble Bool} {s : Store}
    (hs : (x.chronicle.connection.perform op).store = s) (next : x.store.nextJob ≤ s.nextJob)
    (back : ∀ j ∈ s.jobs, j ∈ x.store.jobs ∨
      (t.Earned ∧ isDone j = true ∧ ∃ k ∈ x.store.jobs, k.bare = j.bare
        ∧ isInProgress t.job.id k = true))
    (forth : ∀ j ∈ x.store.jobs, isInProgress t.job.id j = false → j ∈ s.jobs)
    (fails : (∀ b, answer ≠ .ok b) → s = x.store)
    (gone : ∀ b, answer = .ok b → (∃ call, t.run = .ended (.inHand call)) →
      ∀ j ∈ s.jobs, j.id ≠ t.job.id) :
    Accounted s₀ (x.after op (only t.job.id fun t => { t with answer := some answer })) := by
  subst hs
  obtain ⟨hnone, o, hrun, hret⟩ := Task.due?_eq_some due
  let f := only t.job.id fun t => { t with answer := some answer }
  have hjob : ∀ u, (f u).job = u.job := only_eq Task.job fun _ => rfl
  have hrun' : ∀ u, (f u).run = u.run := only_eq Task.run fun _ => rfl
  have hlog : ∀ u, (f u).log = u.log := only_eq Task.log fun _ => rfl
  have hdiscarded : ∀ u, (f u).isDiscarded = u.isDiscarded := only_eq Task.isDiscarded fun _ => rfl
  -- a task is either this one, and has the answer, or is not touched
  have hcases : ∀ u ∈ x.tasks, (u = t ∧ (f u).answer = some answer) ∨
      (u.job.id ≠ t.job.id ∧ (f u).answer = u.answer) := by
    intro u hu
    by_cases hid : u.job.id = t.job.id
    · exact Or.inl ⟨h.task_eq hu ht hid, by simp only [f, only, hid, if_true]⟩
    · exact Or.inr ⟨hid, by simp only [f, only, hid, if_false]⟩
  refine h.change
    { books := Chronicle.books_next keys h.books op, next := next, tasks := rfl, job := hjob
      told := ?_, answered := ?_, earned := ?_, back := ?_
      reaped := fun j hj => Chronicle.mem_reaped_next h.books.ids hj, kept := ?_, gone := ?_ }
  · intro u hu
    have htold := h.told u hu
    rw [Task.Told] at htold ⊢
    rw [hjob, hrun', hlog]
    exact htold
  · intro u hu hans
    rw [hrun']
    rcases hcases u hu with ⟨rfl, -⟩ | ⟨-, hu'⟩
    · exact ⟨o, hrun, by rw [hret]; rfl⟩
    · exact h.answered u hu (hu' ▸ hans)
  · intro u hu hearned
    rw [Task.Earned, hrun']
    exact hearned
  · intro j hj
    rcases back j hj with hj | ⟨hearned, hdone, k, hk, hkj, hprog⟩
    · exact Or.inl hj
    · simp only [isInProgress, Bool.and_eq_true, decide_eq_true_eq] at hprog
      refine Or.inr (Or.inr ⟨hdone, ⟨k, hk, hkj, by rw [hprog.2]; decide⟩, ?_⟩)
      intro u hu hid
      have hut : u = t := h.task_eq hu ht (hid.trans ((Row.id_eq_of_bare hkj).symm.trans hprog.1))
      rw [Task.Earned, hrun', hut]
      exact hearned
  · intro u hu hd hr
    rw [hdiscarded] at hd
    rcases hcases u hu with ⟨rfl, hans⟩ | ⟨hid, hans⟩
    · -- the statement has failed
      rw [Task.IsRetired, hans] at hr
      have hstore := fails fun b hb => hr ⟨b, congrArg some hb⟩
      refine ⟨hd, ?_, fun j hj _ _ => ?_⟩
      · rintro ⟨b, hb⟩
        rw [hnone] at hb
        cases hb
      · show j ∈ (x.chronicle.connection.perform op).store.jobs
        rw [hstore]
        exact hj
    · rw [Task.IsRetired, hans] at hr
      refine ⟨hd, hr, fun j hj hj' _ => forth j hj ?_⟩
      simp [isInProgress, hj', hid]
  · rintro u hu (hd | ⟨⟨b, hb⟩, call, hcall⟩)
    · rw [hdiscarded] at hd
      exact Or.inl (Or.inl hd)
    · rw [hrun'] at hcall
      rcases hcases u hu with ⟨rfl, hans⟩ | ⟨-, hans⟩
      · rw [hans, Option.some.injEq] at hb
        exact Or.inr (gone b hb ⟨call, hcall⟩)
      · exact Or.inl (Or.inr ⟨⟨b, hans ▸ hb⟩, call, hcall⟩)

/-- The store has failed, and its rows are as they were. -/
theorem refused (keys : s₀.Keyed) (h : Accounted s₀ x) {t : Task} (ht : t ∈ x.tasks)
    {op : Operation} (due : t.due? = some op)
    (hs : (x.chronicle.connection.perform op).store = x.store) (e : Trouble) :
    Accounted s₀ (x.after op (only t.job.id fun t => { t with answer := some (.error e) })) := by
  refine h.retired keys ht due hs (Int.le_refl _) (fun _ hj => Or.inl hj) (fun _ hj _ => hj)
    (fun _ => rfl) ?_
  intro b hb
  cases hb

theorem markDone (keys : s₀.Keyed) (h : Accounted s₀ x) {t : Task} (ht : t ∈ x.tasks)
    (due : t.due? = some (.markDone t.job.id)) (hearned : t.Earned) :
    Accounted s₀ (x.after (.markDone t.job.id) (only t.job.id fun u =>
      { u with answer := some (x.chronicle.connection.markDone t.job.id).1 })) := by
  rcases x.chronicle.connection.markDone_cases t.job.id with ⟨hok, hs⟩ | ⟨e, herror, hs⟩
  · rw [hok]
    refine h.retired keys ht due hs (Int.le_refl _) ?_ ?_ ?_ ?_
    · intro j hj
      obtain ⟨k, hk, rfl⟩ := List.mem_map.mp hj
      split
      · rename_i hprog
        exact Or.inr ⟨hearned, rfl, k, hk, rfl, hprog⟩
      · exact Or.inl hk
    · intro j hj hprog
      exact List.mem_map.mpr ⟨j, hj, by simp [hprog]⟩
    · exact fun hnot => absurd rfl (hnot _)
    · rintro - - ⟨call, hcall⟩
      exact absurd hcall (hearned.not_inHand call)
  · rw [herror]
    exact h.refused keys ht due hs e

/-- A row of a job whose call is in other hands is in progress, since the
job is neither queued nor done. -/
theorem isInProgress_of_inHand (h : Accounted s₀ x) {t : Task} (ht : t ∈ x.tasks) {call : String}
    (hrun : t.run = .ended (.inHand call)) {j : Row} (hj : j ∈ x.store.jobs)
    (hid : j.id = t.job.id) : isInProgress t.job.id j = true := by
  have hne : j.state ≠ Progress.queued.tag := fun hq => h.queued j hj hq t ht hid.symm
  rcases (h.claimed j hj hne).1 with hprog | hdone
  · simp [isInProgress, hid, hprog]
  · obtain ⟨u, hu, hjob, hearned⟩ := h.done j (Or.inl ⟨hj, hdone⟩)
    have hut : u = t := h.task_eq hu ht (by rw [hjob]; exact hid)
    exact absurd hrun (hut ▸ hearned.not_inHand call)

theorem release (keys : s₀.Keyed) (h : Accounted s₀ x) {t : Task} (ht : t ∈ x.tasks)
    (due : t.due? = some (.release t.job.id)) {call : String}
    (hrun : t.run = .ended (.inHand call)) :
    Accounted s₀ (x.after (.release t.job.id) (only t.job.id fun u =>
      { u with answer := some (x.chronicle.connection.release t.job.id).1 })) := by
  rcases x.chronicle.connection.release_cases t.job.id with ⟨hok, hs⟩ | ⟨e, herror, hs⟩
  · rw [hok]
    refine h.retired keys ht due hs (Int.le_refl _)
      (fun j hj => Or.inl (List.mem_filter.mp hj).1) ?_ ?_ ?_
    · intro j hj hprog
      exact List.mem_filter.mpr ⟨hj, by simp [hprog]⟩
    · exact fun hnot => absurd rfl (hnot _)
    · intro _ _ _ j hj hid
      obtain ⟨hj, hleft⟩ := List.mem_filter.mp hj
      rw [h.isInProgress_of_inHand ht hrun hj hid] at hleft
      cases hleft
  · rw [herror]
    exact h.refused keys ht due hs e

theorem retire (keys : s₀.Keyed) (h : Accounted s₀ x) (job : Int) :
    Accounted s₀ (x.step (.retire job)) := by
  simp only [Pipeline.step]
  cases hfind : (x.tasks.find? (·.job.id = job)).bind Task.due? with
  | none => exact h
  | some op =>
    obtain ⟨t, hfound, due⟩ := Option.bind_eq_some_iff.mp hfind
    have ht := List.mem_of_find?_eq_some hfound
    obtain rfl : t.job.id = job := by simpa using List.find?_some hfound
    -- the statement goes by how the run ended
    obtain ⟨-, o, hrun, hret⟩ := Task.due?_eq_some due
    cases o with
    | delivered d =>
      cases hret
      exact h.markDone keys ht due (Or.inl ⟨d, hrun⟩)
    | rejected r =>
      cases hret
      exact h.markDone keys ht due (Or.inr ⟨r, hrun⟩)
    | inHand call =>
      cases hret
      exact h.release keys ht due hrun
    | abandoned stage f => cases hret

/-- Jobs that are handed out get tasks of their own. -/
theorem handOut (h : Accounted s₀ x) {y : Pipeline} {taken : List Row}
    (c : HandOut s₀ x y taken) : Accounted s₀ y := by
  have mem : ∀ u, u ∈ y.tasks ↔ u ∈ x.tasks ∨ ∃ k ∈ taken, Task.begun k = u := by
    intro u
    rw [c.tasks, List.mem_append, List.mem_map]
  refine
    { books := c.books, told := ?_, answered := ?_, ids := ?_, below := ?_, queued := ?_
      claimed := ?_, done := ?_, kept := ?_, gone := ?_ }
  · intro u hu
    rcases (mem u).mp hu with hu | ⟨k, hk, rfl⟩
    · exact h.told u hu
    · exact ⟨rfl, rfl⟩
  · intro u hu hans
    rcases (mem u).mp hu with hu | ⟨k, hk, rfl⟩
    · exact h.answered u hu hans
    · exact absurd rfl hans
  · rw [c.tasks, List.map_append, List.map_map]
    refine List.nodup_append.mpr ⟨h.ids, c.ids, ?_⟩
    intro a ha b hb
    obtain ⟨t, ht, rfl⟩ := List.mem_map.mp ha
    obtain ⟨k, hk, rfl⟩ := List.mem_map.mp hb
    obtain ⟨i, hi, hqueued, hid⟩ := c.before k hk
    exact fun heq => h.queued i hi hqueued t ht (heq.trans hid.symm)
  · intro u hu
    rw [c.next]
    rcases (mem u).mp hu with hu | ⟨k, hk, rfl⟩
    · exact h.below u hu
    · obtain ⟨i, hi, -, hid⟩ := c.before k hk
      have hlt := h.books.below i hi
      rw [hid] at hlt
      exact hlt
  · intro j hj hqueued u hu
    rcases c.back j hj with hold | hnew
    · rcases (mem u).mp hu with hu | ⟨k, hk, rfl⟩
      · exact h.queued j hold hqueued u hu
      · obtain ⟨hrow, hstate⟩ := c.present k hk
        rintro (hid : k.id = j.id)
        have hkj : k = j := List.inj_on_of_nodup_map c.books.ids hrow hj hid
        rw [← hkj, hstate] at hqueued
        cases hqueued
    · rw [(c.present j hnew).2] at hqueued
      cases hqueued
  · intro j hj hne
    rcases c.back j hj with hold | hnew
    · obtain ⟨hstates, t, ht, hjob⟩ := h.claimed j hold hne
      exact ⟨hstates, t, (mem t).mpr (Or.inl ht), hjob⟩
    · exact ⟨Or.inl (c.present j hnew).2, _, (mem _).mpr (Or.inr ⟨j, hnew, rfl⟩), rfl⟩
  · intro j hj
    have hj : j ∈ x.store.jobs ∧ isDone j = true ∨ j ∈ x.reaped := by
      rcases hj with ⟨hj, hdone⟩ | hj
      · rcases c.back j hj with hold | hnew
        · exact Or.inl ⟨hold, hdone⟩
        · rw [isDone, (c.present j hnew).2] at hdone
          cases hdone
      · exact (c.reaped j hj).symm
    obtain ⟨t, ht, hjob⟩ := h.done j hj
    exact ⟨t, (mem t).mpr (Or.inl ht), hjob⟩
  · intro u hu hd hr
    rcases (mem u).mp hu with hu | ⟨k, hk, rfl⟩
    · obtain ⟨j, hj, hid, hstate⟩ := h.kept u hu hd hr
      exact ⟨j, c.forth j hj (by rw [hstate]; decide), hid, hstate⟩
    · exact ⟨k, (c.present k hk).1, rfl, (c.present k hk).2⟩
  · intro u hu hgone j hj
    rcases (mem u).mp hu with hu | ⟨k, hk, rfl⟩
    · rcases c.back j hj with hold | hnew
      · exact h.gone u hu hgone j hold
      · obtain ⟨i, hi, -, hid⟩ := c.before j hnew
        exact hid ▸ h.gone u hu hgone i hi
    · rcases hgone with hd | ⟨⟨b, hb⟩, -⟩
      · cases hd
      · cases hb

theorem claim (keys : s₀.Keyed) (h : Accounted s₀ x) (batch : Int) :
    Accounted s₀ (x.step (.claim batch)) := by
  rcases x.chronicle.connection.carry_cases (fun s => s.claim batch) with
    ⟨hanswer, hs⟩ | ⟨e, hanswer, hs⟩
  · have hjobs : (x.step (.claim batch)).store.jobs
        = (claimRows (max 1 batch).toNat x.store.jobs).1 := congrArg Store.jobs hs
    let taken := (claimRows (max 1 batch).toNat x.store.jobs).2
    have handed : HandOut s₀ x (x.step (.claim batch)) taken := by
      refine
        { books := Chronicle.books_next keys h.books (.claim batch), next := ?_, tasks := ?_
          ids := ?_, present := ?_, before := ?_, back := ?_, forth := ?_
          reaped := fun j hj => Chronicle.mem_reaped_next h.books.ids hj }
      · exact (congrArg Store.nextJob hs).trans rfl
      · simp only [Pipeline.step, Connection.claim, hanswer]
        exact congrArg (x.tasks ++ ·) (List.map_map ..)
      · exact (claimRows_snd_sublist _ x.store.jobs).nodup h.books.ids
      · intro k hk
        obtain ⟨hrow, hstate, -⟩ := mem_claimRows_snd _ _ k hk
        exact ⟨hjobs ▸ hrow, hstate⟩
      · intro k hk
        obtain ⟨-, -, i, hi, hqueued, hik⟩ := mem_claimRows_snd _ _ k hk
        exact ⟨i, hi, hqueued, Row.id_eq_of_bare hik⟩
      · exact fun j hj => mem_or_of_mem_claimRows _ _ j (hjobs ▸ hj)
      · exact fun j hj hne => hjobs ▸ mem_claimRows_of_ne _ _ j hj hne
    exact h.handOut handed
  · have hafter : x.step (.claim batch) = x.after (.claim batch) id := by
      simp only [Pipeline.step, Connection.claim, hanswer, after, Except.toOption,
        Option.getD_none, List.map_nil, List.append_nil, List.map_id]
    rw [hafter]
    exact h.after_id keys hs (Int.le_refl _) (fun _ hj => Or.inl hj) fun _ hj _ => hj

/-- Every turn keeps the invariant. -/
theorem step (keys : s₀.Keyed) (h : Accounted s₀ x) : ∀ turn : Turn, Accounted s₀ (x.step turn)
  | .enqueueAll ceiling => h.enqueueAll keys ceiling
  | .claim batch => h.claim keys batch
  | .work job a g reply => h.work job a g reply
  | .retire job => h.retire keys job
  | .reap => h.reap keys
  | .discardAll => h.discardAll keys
  | .trouble closed noInsert noRetire => h.trouble keys closed noInsert noRetire

end Accounted

theorem accounted_of {c : Connection} (keys : c.store.Keyed) (empty : c.store.jobs = [])
    (turns : List Turn) : Accounted c.store (of c turns) :=
  List.foldlRecOn turns step (.start keys empty) fun _ h turn _ => h.step keys turn

/-! ## What is retired as done -/

/-- **No job is done without a delivery.** From an empty jobs table on, after
any turns:

* a row that is done has a task whose run delivered something, by a last
  request that succeeded, or was rejected without a request;
* the row of a job whose audit was abandoned is in progress, until all jobs
  are removed, and is gone then;
* the row of a job whose call was in other hands never was among the reaped,
  and is gone once the store has answered that it was dropped;
* a watermark is that of the start, or the time that the call of a job with
  such a delivery or rejection was stored at. -/
theorem done_only_if_delivered {c : Connection} (keys : c.store.Keyed)
    (empty : c.store.jobs = []) (turns : List Turn) :
    let x := of c turns
    (∀ j ∈ x.store.jobs, isDone j = true →
      ∃ t ∈ x.tasks, t.job = j.job .inProgress ∧ t.Fulfilled) ∧
    (∀ t ∈ x.tasks, ∀ stage f, t.run = .ended (.abandoned stage f) →
      if t.isDiscarded then ∀ j ∈ x.store.jobs, j.id ≠ t.job.id
      else ∃ j ∈ x.store.jobs, j.id = t.job.id ∧ j.state = Progress.inProgress.tag) ∧
    (∀ t ∈ x.tasks, ∀ call, t.run = .ended (.inHand call) →
      (∀ j ∈ x.reaped, j.id ≠ t.job.id) ∧
      (t.IsRetired → ∀ j ∈ x.store.jobs, j.id ≠ t.job.id)) ∧
    (∀ d ∈ x.store.rules, ∃ e ∈ c.store.rules, e.id = d.id ∧ (d.watermark = e.watermark ∨
      ∃ j ∈ x.reaped, ∃ t ∈ x.tasks, t.job = j.job .inProgress ∧ t.Fulfilled
        ∧ ∃ call ∈ c.store.calls, j.subject = (d.id, some call.id)
          ∧ call.storedAt = d.watermark ∧ (d.watermark).isSome = true)) := by
  intro x
  have h : Accounted c.store x := accounted_of keys empty turns
  refine ⟨?_, ?_, ?_, ?_⟩
  · intro j hj hdone
    obtain ⟨t, ht, hjob, hearned⟩ := h.done j (Or.inl ⟨hj, hdone⟩)
    exact ⟨t, ht, hjob, hearned.fulfilled (h.told t ht)⟩
  · intro t ht stage f hrun
    split
    · rename_i hd
      exact h.gone t ht (Or.inl hd)
    · rename_i hd
      refine h.kept t ht (by simpa using hd) ?_
      rintro ⟨b, hb⟩
      -- nothing is asked of the store for an audit that was abandoned
      obtain ⟨o, ho, hret⟩ := h.answered t ht (by rw [hb]; exact Option.some_ne_none _)
      cases hrun.symm.trans ho
      cases hret
  · intro t ht call hrun
    refine ⟨?_, fun hr => h.gone t ht (Or.inr ⟨hr, call, hrun⟩)⟩
    intro j hj hid
    obtain ⟨u, hu, hjob, hearned⟩ := h.done j (Or.inr hj)
    have hut : u = t := h.task_eq hu ht (by rw [hjob]; exact hid)
    exact hearned.not_inHand call (hut ▸ hrun)
  · intro d hd
    obtain ⟨e, he, w, rfl, hw⟩ := h.books.entry hd
    refine ⟨e, he, rfl, ?_⟩
    rcases hw.source with hsame | ⟨j, hj, hrule, hw⟩
    · exact Or.inl hsame
    · obtain ⟨t, ht, hjob, hearned⟩ := h.done j (Or.inr hj)
      obtain ⟨d, call, hseeks, -, hsub⟩ := (h.books.gone j hj).1
      have hde : d = e :=
        keys.rule_eq hseeks.rule he ((congrArg Prod.fst hsub).symm.trans hrule)
      refine Or.inr ⟨j, hj, t, ht, hjob, hearned.fulfilled (h.told t ht), call, hseeks.call,
        hde ▸ hsub, ?_, ?_⟩
      · exact hseeks.stored.trans hw.symm
      · rw [RuleEntry.marked, hw]
        rfl

/-- The only call is summed up, and its job retired. -/
def delivering : List Turn :=
  let answered (body : String) : Turn := .work 1 obligedAuditor .empty (some ⟨200, body⟩)
  [.enqueueAll 5, .claim 1, answered "", answered "",
    answered "\x7b\"items\":[\x7b\"transcripts\":[\x7b\"id\":\"t\"\x7d]\x7d]\x7d",
    answered "\x7b\x7d",
    answered "\x7b\"choices\":[\x7b\"message\":\x7b\"content\":\"Summary: fine\"\x7d\x7d]\x7d",
    answered "", answered "", .retire 1]

/-- Its row is done, and the last request of its run was the delivery. -/
theorem done_only_if_delivered_summary :
    ∃ j ∈ (of { store := oneCall } delivering).store.jobs, isDone j = true
      ∧ ∃ t ∈ (of { store := oneCall } delivering).tasks, t.job = j.job .inProgress
        ∧ t.Fulfilled := by
  obtain ⟨j, hj, hdone⟩ : ∃ j ∈ (of { store := oneCall } delivering).store.jobs,
      isDone j = true := by decide +kernel
  exact ⟨j, hj, hdone,
    (done_only_if_delivered (c := { store := oneCall }) oneCall_keyed rfl delivering).1 j hj hdone⟩

end Pipeline

end Rounds

end CallAudit
