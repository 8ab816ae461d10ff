/-
CallAudit.Proofs.Workers.Replay — a pool on a clock goes one of the ways a
pool can go.

A timeline settles after everything that happens to it, in an order of its
own, and its tasks keep to their courses. Its journal is kept along with it,
move by move, so what holds of every journal holds on the clock.

* `Retold` — a journal tells what a timeline has come to: the same pool and
  the same answers, and of each task that somebody wants to know of the same
  outcome.
* `Retold.finish`, `Replays.settle`, `Replays.tick` — what a timeline does,
  as moves.
* `Act`, `replayed` — whatever is done to a timeline from outside.
-/
import CallAudit.Proofs.Workers.Safety

namespace CallAudit.Workers

/-- Whether an outcome of a task is noted: how it ended, or that it was given
up. -/
def Journal.Tells (j : Journal PoolTask) (t : PoolTask) (o : Outcome) : Prop :=
  (t, o) ∈ j.ended ∨ (o = .cancelled ∧ t ∈ j.abandoned)

/-- The outcomes that are noted of tasks are those that are told of accepted
ones. -/
theorem Journal.Sound.tells_iff {n : Nat} {j : Journal PoolTask} (h : j.Sound n) {t : PoolTask}
    {o : Outcome} :
    j.Tells t o ↔ t ∈ j.accepted ∧ j.handle? t = some o := by
  constructor
  · intro htold
    have haccepted : t ∈ j.accepted := by
      rcases htold with hx | ⟨-, hgone⟩
      · have hends : t ∈ j.ended.map (·.1) := List.mem_map_of_mem (f := (·.1)) hx
        have hstarted := h.underway.mem_iff.mp (List.mem_append_right j.pool.running hends)
        exact h.started_prefix.subset hstarted
      · rw [h.order]
        simp [hgone]
    exact ⟨haccepted, (h.handle?_eq_some haccepted).mpr htold⟩
  · rintro ⟨haccepted, htold⟩
    exact (h.handle?_eq_some haccepted).mp htold

/-- A pool in which the first submitter that waits comes before all others is
the pool itself. -/
theorem Pool.favour_zero {τ : Type} (p : Pool τ) : p.favour 0 = p := by
  obtain ⟨workers, depth, phase, waiting, queue, held, running⟩ := p
  cases waiting <;> rfl

namespace Timeline

/-! ## Two accounts of one pool -/

/-- A journal of a pool of `n` workers tells what a timeline has come to. -/
structure Retold (n : Nat) (s : Timeline) (j : Journal PoolTask) : Prop where
  sound : j.Sound n
  pool : j.pool = s.pool
  answers : j.answers = s.answers
  /-- The next ticket is new. -/
  fresh : ∀ t ∈ j.given, t.ticket < s.tickets
  outcomes : ∀ id o, (id, o) ∈ s.outcomes ↔ ∃ t, t.id = id ∧ t.detached = false ∧ j.Tells t o

/-- A timeline came about by moves of a pool. -/
def Replays (n : Nat) (start : Journal PoolTask) (s : Timeline) : Prop :=
  ∃ moves, Retold n s (start.run moves)

variable {n : Nat} {start j : Journal PoolTask} {s s' : Timeline}

/-- What else changes of a timeline the journal does not tell. -/
theorem Retold.congr (h : Retold n s j) (hpool : s'.pool = s.pool)
    (hanswers : s'.answers = s.answers) (htickets : s'.tickets = s.tickets)
    (houtcomes : s'.outcomes = s.outcomes) : Retold n s' j where
  sound := h.sound
  pool := h.pool.trans hpool.symm
  answers := h.answers.trans hanswers.symm
  fresh := fun t ht => htickets ▸ h.fresh t ht
  outcomes := fun id o => houtcomes ▸ h.outcomes id o

theorem Replays.congr (h : Replays n start s) (hpool : s'.pool = s.pool)
    (hanswers : s'.answers = s.answers) (htickets : s'.tickets = s.tickets)
    (houtcomes : s'.outcomes = s.outcomes) : Replays n start s' := by
  obtain ⟨moves, hr⟩ := h
  exact ⟨moves, hr.congr hpool hanswers htickets houtcomes⟩

/-- One move more. -/
theorem Replays.step (h : Replays n start s) (m : Move PoolTask)
    (hstep : ∀ j, Retold n s j → Retold n s' (j.step m)) : Replays n start s' := by
  obtain ⟨moves, hr⟩ := h
  refine ⟨moves ++ [m], ?_⟩
  rw [Journal.run, List.foldl_append]
  exact hstep _ hr

/-- A task goes on its way. -/
theorem Retold.goes_on (h : Retold n s j) {m : Move PoolTask} {pool : Pool PoolTask}
    {accepted started : List PoolTask}
    (hstep : j.step m = { j with pool := pool, accepted := accepted, started := started }) :
    Retold n { s with pool := pool } (j.step m) where
  sound := h.sound.change (j.step_change m)
  pool := congrArg Journal.pool hstep
  answers := (congrArg Journal.answers hstep).trans h.answers
  fresh := by
    rw [hstep]
    exact h.fresh
  outcomes := by
    rw [hstep]
    exact h.outcomes

/-- A new task is given to the pool. -/
theorem Retold.given (h : Retold n s j) {m : Move PoolTask} {t : PoolTask} {pool : Pool PoolTask}
    {accepted refused : List PoolTask} (ht : t.ticket = s.tickets)
    (hstep : j.step m
      = { j with pool := pool, given := j.given ++ [t], accepted := accepted, refused := refused }) :
    Retold n { s with pool := pool, tickets := s.tickets + 1 } (j.step m) where
  sound := h.sound.change (j.step_change m)
  pool := congrArg Journal.pool hstep
  answers := (congrArg Journal.answers hstep).trans h.answers
  fresh := by
    rw [hstep]
    intro u hu
    simp only
    rcases List.mem_append.mp hu with hu | hu
    · have := h.fresh u hu
      omega
    · rw [List.mem_singleton.mp hu]
      omega
  outcomes := by
    rw [hstep]
    exact h.outcomes

theorem Retold.not_given (h : Retold n s j) {t : PoolTask} (ht : t.ticket = s.tickets) :
    t ∉ j.given := fun hgiven => by
  have := h.fresh t hgiven
  omega

/-- Where both accounts have the same new outcomes beside the old ones, they
still agree. -/
theorem Retold.tells_more (h : Retold n s j) {j' : Journal PoolTask}
    {new : PoolTask → Outcome → Prop}
    (hs : ∀ id o, (id, o) ∈ s'.outcomes ↔
      (id, o) ∈ s.outcomes ∨ ∃ t, t.id = id ∧ t.detached = false ∧ new t o)
    (hj : ∀ t o, j'.Tells t o ↔ j.Tells t o ∨ new t o) (id : String) (o : Outcome) :
    (id, o) ∈ s'.outcomes ↔ ∃ t, t.id = id ∧ t.detached = false ∧ j'.Tells t o := by
  rw [hs, h.outcomes, ← exists_or]
  simp only [hj, and_or_left]

/-! ## The end of a task -/

theorem note_fields (s : Timeline) (t : PoolTask) (o : Outcome) :
    (s.note t o).pool = s.pool ∧ (s.note t o).answers = s.answers
      ∧ (s.note t o).tickets = s.tickets := by
  unfold note
  split <;> exact ⟨rfl, rfl, rfl⟩

/-- An outcome is told to whoever wants to know of it. -/
theorem mem_note {s : Timeline} {t : PoolTask} {o u : Outcome} {id : String} :
    (id, u) ∈ (s.note t o).outcomes ↔
      (id, u) ∈ s.outcomes ∨ ∃ v, v.id = id ∧ v.detached = false ∧ v = t ∧ u = o := by
  unfold note
  cases hdetached : t.detached <;> simp [hdetached, eq_comm]

theorem finish_fields (s : Timeline) (t : PoolTask) (o : Outcome) :
    (s.finish t o).pool = s.pool.finish t ∧ (s.finish t o).answers = s.answers
      ∧ (s.finish t o).tickets = s.tickets := by
  unfold finish
  refine ⟨(note_fields _ t o).1.trans ?_, (note_fields _ t o).2.1.trans ?_,
    (note_fields _ t o).2.2.trans ?_⟩ <;> split <;> rfl

theorem mem_finish {s : Timeline} {t : PoolTask} {o u : Outcome} {id : String} :
    (id, u) ∈ (s.finish t o).outcomes ↔
      (id, u) ∈ s.outcomes ∨ ∃ v, v.id = id ∧ v.detached = false ∧ v = t ∧ u = o := by
  unfold finish
  rw [mem_note]
  split <;> rfl

/-- A running task ends. -/
theorem Retold.finish (h : Retold n s j) {t : PoolTask} (hruns : t ∈ s.pool.running)
    (fails : Bool) :
    Retold n (s.finish t (Journal.ending fails)) (j.step (.finish t fails)) := by
  have hthere : t ∈ j.pool.running := h.pool ▸ hruns
  obtain ⟨hpool, hanswers, htickets⟩ := s.finish_fields t (Journal.ending fails)
  have hstep : j.step (.finish t fails)
      = { j with pool := j.pool.finish t, ended := j.ended ++ [(t, Journal.ending fails)] } := by
    simp only [Journal.step, hthere, if_true]
  refine ⟨h.sound.change (j.step_change _), ?_, ?_, ?_, h.tells_more (fun _ _ => mem_finish) ?_⟩
  · rw [hstep, hpool, ← h.pool]
  · rw [hstep, hanswers]
    exact h.answers
  · rw [hstep, htickets]
    exact h.fresh
  · intro u o
    rw [hstep]
    simp only [Journal.Tells, List.mem_append, List.mem_singleton, Prod.mk.injEq]
    exact or_right_comm

theorem Replays.finish (h : Replays n start s) {t : PoolTask} (hruns : t ∈ s.pool.running)
    (fails : Bool) : Replays n start (s.finish t (Journal.ending fails)) :=
  h.step (.finish t fails) fun _ hr => hr.finish hruns fails

/-- A task that runs follows its course. -/
theorem Replays.follow (h : Replays n start s) {t : PoolTask} (hruns : t ∈ s.pool.running) :
    Replays n start (s.follow t) := by
  have hnoted : Replays n start { s with events := s.events ++ [Event.start t.id] } :=
    h.congr rfl rfl rfl rfl
  cases hcourse : t.course with
  | instant =>
    simp only [Timeline.follow, hcourse]
    exact hnoted.finish hruns false
  | fails =>
    simp only [Timeline.follow, hcourse]
    exact hnoted.finish hruns true
  | gate =>
    simp only [Timeline.follow, hcourse]
    split
    · have hopened : Replays n start
          { s with opened := s.opened.erase t.id, events := s.events ++ [Event.start t.id] } :=
        h.congr rfl rfl rfl rfl
      exact hopened.finish hruns false
    · exact hnoted
  | sleeps ms =>
    cases ms with
    | zero =>
      simp only [Timeline.follow, hcourse]
      exact hnoted.finish hruns false
    | succ ms =>
      simp only [Timeline.follow, hcourse]
      exact hnoted.congr rfl rfl rfl rfl

/-! ## Settling -/

/-- The next step of a pool that nobody from outside brings about is a move,
and what a task that was started does at once is another. -/
theorem Replays.move (h : Replays n start s) (hmove : s.move? = some s') :
    Replays n start s' := by
  unfold move? at hmove
  split at hmove
  · rename_i t pool haccept
    cases hmove
    have haccepted : Replays n start { s with pool := pool } := h.step (.accept 0) fun j hr =>
      hr.goes_on (by simp only [Journal.step, Pool.favour_zero, hr.pool, haccept]; rfl)
    exact haccepted.congr rfl rfl rfl rfl
  · split at hmove
    · rename_i pool htake
      cases hmove
      exact h.step .take fun j hr =>
        hr.goes_on (by simp only [Journal.step, hr.pool, htake]; rfl)
    · split at hmove
      · rename_i t pool hstart
        cases hmove
        have hstarted : Replays n start { s with pool := pool } := h.step .start fun j hr =>
          hr.goes_on (by simp only [Journal.step, hr.pool, hstart]; rfl)
        refine hstarted.follow ?_
        obtain ⟨-, -, rfl⟩ := Pool.start?_eq_some hstart
        simp
      · cases hmove

theorem Replays.settleFor : ∀ (fuel : Nat) {s : Timeline}, Replays n start s →
    Replays n start (settleFor fuel s)
  | 0, _, h => h
  | fuel + 1, s, h => by
    rw [Timeline.settleFor]
    split
    · rename_i hmove
      exact settleFor fuel (h.move hmove)
    · split
      · rename_i pool hdrained
        refine h.step .drain fun j hr => ?_
        have hstep : j.step .drain = { j with pool := pool }.reply true := by
          simp only [Journal.step, hr.pool, hdrained]
        have hsound := hr.sound.change (j.step_change .drain)
        rw [hstep] at hsound ⊢
        exact ⟨hsound, rfl, congrArg (List.map _) hr.answers, hr.fresh, hr.outcomes⟩
      · exact h

theorem Replays.settle (h : Replays n start s) : Replays n start s.settle :=
  h.settleFor _

/-! ## From outside -/

theorem Replays.submit (h : Replays n start s) (id : String) (course : Course) :
    Replays n start (s.submit id course) := by
  unfold Timeline.submit
  simp only [issue]
  generalize ht : (⟨s.tickets, id, course, false⟩ : PoolTask) = t
  have hticket : t.ticket = s.tickets := by rw [← ht]
  split
  · rename_i pool hpool
    have hgiven : Replays n start { s with pool := pool, tickets := s.tickets + 1 } :=
      h.step (.submit t) fun j hr => hr.given hticket (by
        simp only [Journal.step, hr.not_given hticket, if_false, hr.pool, hpool]; rfl)
    exact Replays.settle (hgiven.congr rfl rfl rfl rfl)
  · rename_i why hpool
    have hgiven : Replays n start { s with tickets := s.tickets + 1 } :=
      h.step (.submit t) fun j hr => by
        have hstep : j.step (.submit t) = { j with
            pool := s.pool, given := j.given ++ [t], refused := j.refused ++ [t] } := by
          simp only [Journal.step, hr.not_given hticket, if_false, hr.pool, hpool]
        exact hr.given hticket hstep
    exact hgiven.congr rfl rfl rfl rfl

theorem Replays.trySubmit (h : Replays n start s) {id : String} {course : Course}
    {detached : Bool} (hs : s.trySubmit id course detached = .ok s') : Replays n start s' := by
  unfold Timeline.trySubmit at hs
  simp only [issue] at hs
  generalize ht : (⟨s.tickets, id, course, detached⟩ : PoolTask) = t at hs
  have hticket : t.ticket = s.tickets := by rw [← ht]
  cases hpool : s.pool.trySubmit t with
  | error why => rw [hpool] at hs; cases hs
  | ok pool =>
    rw [hpool] at hs
    cases hs
    exact Replays.settle (h.step (.trySubmit t) fun j hr => hr.given hticket (by
      simp only [Journal.step, hr.not_given hticket, if_false, hr.pool, hpool]; rfl))

theorem Replays.letThrough (h : Replays n start s) (id : String) :
    Replays n start (s.letThrough id) := by
  unfold Timeline.letThrough
  split
  · rename_i t hfound
    exact (h.finish (List.mem_of_find?_eq_some hfound) false).settle
  · split
    · exact h
    · exact h.congr rfl rfl rfl rfl

/-- Tasks are told to be cancelled. -/
theorem cancel_fields (s : Timeline) (ts : List PoolTask) :
    let s' := ts.foldl (fun s t => s.note t .cancelled) s
    s'.pool = s.pool ∧ s'.answers = s.answers ∧ s'.tickets = s.tickets
      ∧ ∀ id o, (id, o) ∈ s'.outcomes ↔ (id, o) ∈ s.outcomes
        ∨ ∃ t, t.id = id ∧ t.detached = false ∧ t ∈ ts ∧ o = .cancelled := by
  induction ts generalizing s with
  | nil => simp
  | cons t ts ih =>
    obtain ⟨hpool, hanswers, htickets, houtcomes⟩ := ih (s.note t .cancelled)
    obtain ⟨hpool', hanswers', htickets'⟩ := s.note_fields t .cancelled
    refine ⟨hpool.trans hpool', hanswers.trans hanswers', htickets.trans htickets', fun id o => ?_⟩
    rw [List.foldl_cons, houtcomes, mem_note, or_assoc, ← exists_or]
    simp only [List.mem_cons, or_and_right, and_or_left]

theorem Replays.expire (h : Replays n start s) : Replays n start s.expire := by
  unfold Timeline.expire
  split
  · rename_i left pool hexpire
    obtain ⟨hpool, hanswers, htickets, houtcomes⟩ :=
      cancel_fields { s with pool := pool } left.cancelled
    refine h.step .expire fun j hr => ?_
    have hstep : j.step .expire = { j with
        pool := pool, abandoned := j.abandoned ++ left.cancelled
        refused := j.refused ++ left.refused }.reply false := by
      simp only [Journal.step, hr.pool, hexpire]
    have hsound := hr.sound.change (j.step_change .expire)
    rw [hstep] at hsound ⊢
    refine ⟨hsound, hpool.symm, ?_, ?_, hr.tells_more houtcomes fun t o => ?_⟩
    · simp only [Journal.reply, Timeline.reply, hanswers, hr.answers]
    · simp only [Journal.reply, Timeline.reply, htickets]
      exact hr.fresh
    · simp only [Journal.reply, Journal.Tells, List.mem_append, and_or_left, or_assoc]
      rw [and_comm (a := t ∈ left.cancelled)]
  · exact h

/-- Somebody asks the pool to close. -/
theorem Replays.asked (h : Replays n start s) {pool : Pool PoolTask} {answer : Option Bool}
    (hasked : s.pool.shutdown = (pool, answer)) :
    Replays n start { s with pool := pool, answers := s.answers ++ [answer] } := by
  refine h.step .shutdown fun j hr => ?_
  have hstep : j.step .shutdown = { j with pool := pool, answers := j.answers ++ [answer] } := by
    simp only [Journal.step, hr.pool, hasked]
  have hsound := hr.sound.change (j.step_change .shutdown)
  rw [hstep] at hsound ⊢
  exact ⟨hsound, rfl, congrArg (· ++ [answer]) hr.answers, hr.fresh, hr.outcomes⟩

theorem Replays.shutdown (h : Replays n start s) (grace : Nat) :
    Replays n start (s.shutdown grace) := by
  unfold Timeline.shutdown
  split
  · rename_i pool answer hasked
    have hsame : pool = s.pool := by
      unfold Pool.shutdown at hasked
      split at hasked
      · cases hasked
      · exact (congrArg Prod.fst hasked).symm
    exact (h.asked hasked).congr hsame.symm rfl rfl rfl
  · rename_i pool hasked
    have hclosing := h.asked hasked
    simp only
    split
    · exact hclosing.expire
    · exact Replays.settle (hclosing.congr rfl rfl rfl rfl)

/-- Tasks that run end in the same millisecond. -/
theorem Replays.finish_all : ∀ {s : Timeline} (ts : List PoolTask), Replays n start s →
    ts.Nodup → (∀ t ∈ ts, t ∈ s.pool.running) →
      Replays n start (ts.foldl (fun s t => s.finish t .completed) s)
  | _, [], h, _, _ => h
  | s, t :: ts, h, hnodup, hruns => by
    obtain ⟨hnot, hnodup⟩ := List.nodup_cons.mp hnodup
    refine finish_all ts (h.finish (hruns t List.mem_cons_self) false) hnodup fun u hu => ?_
    have hne : u ≠ t := fun hsame => hnot (hsame ▸ hu)
    rw [(s.finish_fields t _).1]
    exact (List.mem_erase_of_ne hne).mpr (hruns u (List.mem_cons_of_mem t hu))

theorem Replays.nodup_running (h : Replays n start s) : s.pool.running.Nodup := by
  obtain ⟨moves, hr⟩ := h
  rw [← hr.pool]
  exact List.nodup_iff_count_le_one.mpr fun t => by
    have hle := hr.sound.count_le t
    have := hr.sound.count_accepted t
    omega

theorem Replays.tick (h : Replays n start s) : Replays n start s.tick := by
  unfold Timeline.tick
  simp only
  have hnow : Replays n start { s with now := s.now + 1, events := [] } :=
    h.congr rfl rfl rfl rfl
  have hgrace : Replays n start
      (if s.deadline = some (s.now + 1) then { s with now := s.now + 1, events := [] }.expire
        else { s with now := s.now + 1, events := [] }) := by
    split
    · exact hnow.expire
    · exact hnow
  generalize (if s.deadline = some (s.now + 1) then { s with now := s.now + 1, events := [] }.expire
    else { s with now := s.now + 1, events := [] }) = s' at hgrace
  have hended : ∀ rung : PoolTask → Bool, Replays n start
      ((s'.pool.running.filter rung).foldl (fun s t => s.finish t .completed) s') := fun rung =>
    hgrace.finish_all _ (List.filter_sublist.nodup hgrace.nodup_running)
      fun t ht => (List.mem_filter.mp ht).1
  exact (hended _).settle.congr rfl rfl rfl rfl

theorem Replays.advance : ∀ {s : Timeline} (ms : Nat), Replays n start s →
    Replays n start (s.advance ms)
  | _, 0, h => h
  | _, ms + 1, h => advance ms h.tick

/-- What is done to a timeline from outside. -/
inductive Act where
  | submit (id : String) (course : Course)
  | trySubmit (id : String) (course : Course) (detached : Bool)
  | letThrough (id : String)
  | shutdown (grace : Nat)
  | advance (ms : Nat)
  | told
deriving Repr

/-- A timeline after something was done to it. A task that is refused
leaves it as it is. -/
def perform (s : Timeline) : Act → Timeline
  | .submit id course => s.submit id course
  | .trySubmit id course detached => (s.trySubmit id course detached).toOption.getD s
  | .letThrough id => s.letThrough id
  | .shutdown grace => s.shutdown grace
  | .advance ms => s.advance ms
  | .told => s.told

theorem Replays.perform (h : Replays n start s) (act : Act) : Replays n start (s.perform act) := by
  cases act with
  | submit id course => exact h.submit id course
  | trySubmit id course detached =>
    simp only [Timeline.perform]
    cases hs : s.trySubmit id course detached with
    | error why => exact h
    | ok s' => exact h.trySubmit hs
  | letThrough id => exact h.letThrough id
  | shutdown grace => exact h.shutdown grace
  | advance ms => exact h.advance ms
  | told => exact h.congr rfl rfl rfl rfl

/-- **A pool on a clock.** Whatever is done to a new timeline, some moves of
its pool lead to the same pool and the same answers, and the outcomes that
became known are those that are then told of the tasks that somebody wants to
know of. -/
theorem replayed {workers depth : Nat} {s : Timeline}
    (made : Timeline.create? workers depth = some s) (acts : List Act) :
    ∃ moves, let j := ({ pool := s.pool } : Journal PoolTask).run moves
      j.pool = (acts.foldl perform s).pool ∧ j.answers = (acts.foldl perform s).answers
        ∧ ∀ id o, (id, o) ∈ (acts.foldl perform s).outcomes ↔
          ∃ t ∈ j.accepted, t.id = id ∧ t.detached = false ∧ j.handle? t = some o := by
  obtain ⟨pool, hpool, rfl⟩ := Option.map_eq_some_iff.mp made
  have hstart : Replays (max 1 (min workers maxWorkers)) { pool := pool } { pool := pool } :=
    ⟨[], Journal.Sound.start hpool, rfl, rfl, by simp [Journal.run], by
      simp [Journal.run, Journal.Tells]⟩
  obtain ⟨moves, hr⟩ := List.foldlRecOn acts perform hstart fun s h act _ => h.perform act
  refine ⟨moves, hr.pool, hr.answers, fun id o => ?_⟩
  rw [hr.outcomes]
  simp only [hr.sound.tells_iff]
  constructor
  · rintro ⟨t, hid, hwanted, haccepted, htold⟩
    exact ⟨t, haccepted, hid, hwanted, htold⟩
  · rintro ⟨t, haccepted, hid, hwanted, htold⟩
    exact ⟨t, hid, hwanted, haccepted, htold⟩

end Timeline

end CallAudit.Workers
