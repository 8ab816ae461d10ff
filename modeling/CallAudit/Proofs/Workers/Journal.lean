/-
CallAudit.Proofs.Workers.Journal — a pool and everything that can happen to
it, in any order.

A pool knows its tasks only while they are on their way. The journal notes
beside it what became of them, and the pool reads nothing of the notes.

* `Move` — what submitters, the dispatcher, running tasks and those who
  close the pool can do. Which submitter of those that wait comes next is
  left open.
* `Journal.step`, `run` — one move and many. A move that is not possible
  changes nothing.
* `Change` — what a move can make of a journal. `step_change` is the only
  proof that looks into the steps; all others go by the cases of `Change`.
* `Sound` — what the notes have to do with the pool: every task that was
  given waits, was accepted or was refused; the accepted ones are those that
  were started, then those still to be started, then those given up; and a
  task that was started runs or has ended.
-/
import CallAudit.Workers.Timeline
import Mathlib.Data.List.Nodup
import Mathlib.Data.List.Perm.Basic

namespace CallAudit.Workers

/-! ## The steps of a pool -/

namespace Pool

variable {τ : Type} {p p' : Pool τ} {t : τ}

/-- A pool with one of the submitters that wait before all others. -/
def favour (p : Pool τ) (place : Nat) : Pool τ :=
  { p with waiting := p.waiting[place]?.toList ++ p.waiting.eraseIdx place }

theorem favour_perm (p : Pool τ) (place : Nat) : (p.favour place).waiting.Perm p.waiting := by
  simp only [favour]
  by_cases h : place < p.waiting.length
  · rw [List.getElem?_eq_getElem h]
    exact List.getElem_cons_eraseIdx_perm h
  · rw [List.getElem?_eq_none (by omega), List.eraseIdx_of_length_le (by omega)]
    exact List.Perm.refl _

theorem create?_eq_some {workers depth : Nat} (h : create? workers depth = some p) :
    p = { workers := max 1 (min workers maxWorkers), depth := max 1 depth } := by
  unfold create? at h
  split at h
  · cases h
  · exact (Option.some.inj h).symm

theorem trySubmit_eq_ok (h : p.trySubmit t = .ok p') :
    p.phase = .serving ∧ p.waiting = [] ∧ p.queue.length < p.depth
      ∧ p' = { p with queue := p.queue ++ [t] } := by
  unfold trySubmit at h
  split at h
  · cases h
  · rename_i hserving
    split at h
    · rename_i hroom
      cases h
      simp only [hasRoom, Bool.and_eq_true, List.isEmpty_iff, decide_eq_true_eq] at hroom
      exact ⟨not_not.mp hserving, hroom.1, hroom.2, rfl⟩
    · cases h

theorem submit_eq_ok (h : p.submit t = .ok p') :
    p.phase = .serving ∧ p' = { p with waiting := p.waiting ++ [t] } := by
  unfold submit at h
  split at h
  · cases h
  · rename_i hserving
    cases h
    exact ⟨not_not.mp hserving, rfl⟩

theorem accept?_eq_some (h : p.accept? = some (t, p')) :
    ∃ rest, p.waiting = t :: rest ∧ p.queue.length < p.depth
      ∧ p' = { p with waiting := rest, queue := p.queue ++ [t] } := by
  unfold accept? at h
  split at h
  · rename_i hwaiting
    split at h
    · rename_i hroom
      cases h
      exact ⟨_, hwaiting, of_decide_eq_true hroom, rfl⟩
    · cases h
  · cases h

theorem take?_eq_some (h : p.take? = some p') :
    ∃ t rest, p.held = none ∧ p.queue = t :: rest
      ∧ p' = { p with held := some t, queue := rest } := by
  unfold take? at h
  split at h
  · rename_i hheld hqueue
    cases h
    exact ⟨_, _, hheld, hqueue, rfl⟩
  · cases h

theorem start?_eq_some (h : p.start? = some (t, p')) :
    p.held = some t ∧ p.running.length < p.workers
      ∧ p' = { p with held := none, running := p.running ++ [t] } := by
  unfold start? at h
  split at h
  · rename_i hheld
    split at h
    · rename_i hfree
      cases h
      exact ⟨hheld, hfree, rfl⟩
    · cases h
  · cases h

/-- A task that is held is started as soon as a worker is free. -/
theorem start?_isSome (hheld : p.held.isSome = true) (hfree : p.running.length < p.workers) :
    p.start?.isSome = true := by
  obtain ⟨t, ht⟩ := Option.isSome_iff_exists.mp hheld
  simp [start?, ht, hfree]

theorem drained?_eq_some (h : p.drained? = some p') :
    p.phase = .draining ∧ p.waiting = [] ∧ p.queue = [] ∧ p.held = none ∧ p.running = []
      ∧ p' = { p with phase := .drained } := by
  unfold drained? at h
  split at h
  · rename_i hall
    cases h
    simp only [isDispatched, Bool.and_eq_true, List.isEmpty_iff,
      Option.isNone_iff_eq_none] at hall
    exact ⟨hall.1, hall.2.1.1.1, hall.2.1.1.2, hall.2.1.2, hall.2.2, rfl⟩
  · cases h

theorem expire?_eq_some {left : Abandoned τ} (h : p.expire? = some (left, p')) :
    p.phase = .draining ∧ left = ⟨p.held.toList ++ p.queue, p.waiting⟩
      ∧ p' = { p with phase := .expired, waiting := [], queue := [], held := none } := by
  unfold expire? at h
  split at h
  · rename_i hphase
    cases h
    exact ⟨hphase, rfl, rfl⟩
  · cases h

end Pool

/-! ## Moves -/

variable {τ : Type} [DecidableEq τ]

/-- What can happen to a pool. -/
inductive Move (τ : Type) where
  | trySubmit (t : τ)
  | submit (t : τ)
  /-- The submitter at a place among those that wait puts its task into the
  queue. -/
  | accept (place : Nat)
  | take
  | start
  /-- A running task comes to its end, or fails. -/
  | finish (t : τ) (fails : Bool)
  | shutdown
  /-- Whoever closes the pool finds all its tasks done. -/
  | drain
  /-- The grace is over. -/
  | expire
deriving DecidableEq, Repr

/-- A pool with what has happened to it. -/
structure Journal (τ : Type) where
  pool : Pool τ
  /-- The tasks that were given to the pool. -/
  given : List τ := []
  /-- The tasks that got into the queue, in the order they did. -/
  accepted : List τ := []
  /-- The tasks whose submitters were told no. -/
  refused : List τ := []
  /-- The tasks that were started, in the order they were. -/
  started : List τ := []
  /-- How tasks that were started have ended. -/
  ended : List (τ × Outcome) := []
  /-- The accepted tasks that were given up when the grace was over. -/
  abandoned : List τ := []
  /-- The answers to those who asked the pool to close; one is missing as
  long as the pool is draining. -/
  answers : List (Option Bool) := []
deriving DecidableEq, Repr

namespace Journal

/-- How a task that has run ended. -/
def ending (fails : Bool) : Outcome :=
  if fails then .failed else .completed

/-- Whoever waits for an answer is answered. -/
def reply {τ : Type} (j : Journal τ) (answer : Bool) : Journal τ :=
  { j with answers := j.answers.map fun a => some (a.getD answer) }

/-- One move. A task is given to the pool once only. -/
def step (j : Journal τ) : Move τ → Journal τ
  | .trySubmit t =>
    if t ∈ j.given then j
    else
      match j.pool.trySubmit t with
      | .ok pool => { j with pool, given := j.given ++ [t], accepted := j.accepted ++ [t] }
      | .error _ => { j with given := j.given ++ [t], refused := j.refused ++ [t] }
  | .submit t =>
    if t ∈ j.given then j
    else
      match j.pool.submit t with
      | .ok pool => { j with pool, given := j.given ++ [t] }
      | .error _ => { j with given := j.given ++ [t], refused := j.refused ++ [t] }
  | .accept place =>
    match (j.pool.favour place).accept? with
    | some (t, pool) => { j with pool, accepted := j.accepted ++ [t] }
    | none => j
  | .take =>
    match j.pool.take? with
    | some pool => { j with pool }
    | none => j
  | .start =>
    match j.pool.start? with
    | some (t, pool) => { j with pool, started := j.started ++ [t] }
    | none => j
  | .finish t fails =>
    if t ∈ j.pool.running then
      { j with pool := j.pool.finish t, ended := j.ended ++ [(t, ending fails)] }
    else j
  | .shutdown =>
    let (pool, answer) := j.pool.shutdown
    { j with pool, answers := j.answers ++ [answer] }
  | .drain =>
    match j.pool.drained? with
    | some pool => { j with pool }.reply true
    | none => j
  | .expire =>
    match j.pool.expire? with
    | some (left, pool) =>
      { j with
        pool, abandoned := j.abandoned ++ left.cancelled
        refused := j.refused ++ left.refused }.reply false
    | none => j

/-- Moves one after the other. -/
def run (j : Journal τ) (moves : List (Move τ)) : Journal τ :=
  moves.foldl step j

/-! ## What a move can do -/

/-- What a move can make of a journal. -/
inductive Change (j : Journal τ) : Journal τ → Prop where
  | nothing : Change j j
  | refused (t : τ) : t ∉ j.given →
      Change j { j with given := j.given ++ [t], refused := j.refused ++ [t] }
  | queued (t : τ) : t ∉ j.given → j.pool.phase = .serving → j.pool.waiting = [] →
      j.pool.queue.length < j.pool.depth →
      Change j { j with
        pool := { j.pool with queue := j.pool.queue ++ [t] }
        given := j.given ++ [t], accepted := j.accepted ++ [t] }
  | waits (t : τ) : t ∉ j.given → j.pool.phase = .serving →
      Change j { j with
        pool := { j.pool with waiting := j.pool.waiting ++ [t] }, given := j.given ++ [t] }
  | accepted (t : τ) (rest : List τ) : (t :: rest).Perm j.pool.waiting →
      j.pool.queue.length < j.pool.depth →
      Change j { j with
        pool := { j.pool with waiting := rest, queue := j.pool.queue ++ [t] }
        accepted := j.accepted ++ [t] }
  | taken (t : τ) (rest : List τ) : j.pool.held = none → j.pool.queue = t :: rest →
      Change j { j with pool := { j.pool with held := some t, queue := rest } }
  | started (t : τ) : j.pool.held = some t → j.pool.running.length < j.pool.workers →
      Change j { j with
        pool := { j.pool with held := none, running := j.pool.running ++ [t] }
        started := j.started ++ [t] }
  | ended (t : τ) (fails : Bool) : t ∈ j.pool.running →
      Change j { j with
        pool := { j.pool with running := j.pool.running.erase t }
        ended := j.ended ++ [(t, ending fails)] }
  | closing : j.pool.phase = .serving →
      Change j { j with
        pool := { j.pool with phase := .draining }, answers := j.answers ++ [none] }
  | askedAgain : j.pool.phase ≠ .serving →
      Change j { j with answers := j.answers ++ [some true] }
  | drained : j.pool.phase = .draining → j.pool.waiting = [] → j.pool.queue = [] →
      j.pool.held = none → j.pool.running = [] →
      Change j ({ j with pool := { j.pool with phase := .drained } }.reply true)
  | expired : j.pool.phase = .draining →
      Change j ({ j with
        pool := { j.pool with phase := .expired, waiting := [], queue := [], held := none }
        abandoned := j.abandoned ++ (j.pool.held.toList ++ j.pool.queue)
        refused := j.refused ++ j.pool.waiting }.reply false)

/-- Every move does what it can do. -/
theorem step_change (j : Journal τ) (m : Move τ) : j.Change (j.step m) := by
  cases m with
  | trySubmit t =>
    simp only [step]
    split
    · exact .nothing
    · rename_i hfresh
      cases hpool : j.pool.trySubmit t with
      | error why => exact .refused t hfresh
      | ok pool =>
        obtain ⟨hserving, hwaiting, hroom, rfl⟩ := Pool.trySubmit_eq_ok hpool
        exact .queued t hfresh hserving hwaiting hroom
  | submit t =>
    simp only [step]
    split
    · exact .nothing
    · rename_i hfresh
      cases hpool : j.pool.submit t with
      | error why => exact .refused t hfresh
      | ok pool =>
        obtain ⟨hserving, rfl⟩ := Pool.submit_eq_ok hpool
        exact .waits t hfresh hserving
  | accept place =>
    simp only [step]
    cases hpool : (j.pool.favour place).accept? with
    | none => exact .nothing
    | some next =>
      obtain ⟨t, pool⟩ := next
      obtain ⟨rest, hwaiting, hroom, rfl⟩ := Pool.accept?_eq_some hpool
      exact .accepted t rest (hwaiting ▸ Pool.favour_perm j.pool place) hroom
  | take =>
    simp only [step]
    cases hpool : j.pool.take? with
    | none => exact .nothing
    | some pool =>
      obtain ⟨t, rest, hheld, hqueue, rfl⟩ := Pool.take?_eq_some hpool
      exact .taken t rest hheld hqueue
  | start =>
    simp only [step]
    cases hpool : j.pool.start? with
    | none => exact .nothing
    | some next =>
      obtain ⟨t, pool⟩ := next
      obtain ⟨hheld, hfree, rfl⟩ := Pool.start?_eq_some hpool
      exact .started t hheld hfree
  | finish t fails =>
    simp only [step]
    split
    · rename_i hruns
      exact .ended t fails hruns
    · exact .nothing
  | shutdown =>
    simp only [step, Pool.shutdown]
    split
    · rename_i hserving
      exact .closing hserving
    · rename_i hserving
      exact .askedAgain hserving
  | drain =>
    simp only [step]
    cases hpool : j.pool.drained? with
    | none => exact .nothing
    | some pool =>
      obtain ⟨hphase, hwaiting, hqueue, hheld, hrunning, rfl⟩ := Pool.drained?_eq_some hpool
      exact .drained hphase hwaiting hqueue hheld hrunning
  | expire =>
    simp only [step]
    cases hpool : j.pool.expire? with
    | none => exact .nothing
    | some next =>
      obtain ⟨left, pool⟩ := next
      obtain ⟨hphase, rfl, rfl⟩ := Pool.expire?_eq_some hpool
      exact .expired hphase

/-- What was noted stays noted. -/
theorem Change.notes_prefix {j j' : Journal τ} (hc : j.Change j') :
    j.accepted <+: j'.accepted ∧ j.ended <+: j'.ended ∧ j.abandoned <+: j'.abandoned := by
  cases hc <;> refine ⟨?_, ?_, ?_⟩ <;>
    first
    | exact List.prefix_refl _
    | exact List.prefix_append _ _

/-- What holds at first and is kept by every change holds after any moves. -/
theorem run_induction {motive : Journal τ → Prop}
    (change : ∀ j j', motive j → j.Change j' → motive j') {j : Journal τ} (h : motive j)
    (moves : List (Move τ)) : motive (j.run moves) :=
  List.foldlRecOn moves step h fun j h m _ => change j (j.step m) h (j.step_change m)

theorem run_notes_prefix (j : Journal τ) (moves : List (Move τ)) :
    j.accepted <+: (j.run moves).accepted ∧ j.ended <+: (j.run moves).ended
      ∧ j.abandoned <+: (j.run moves).abandoned := by
  refine run_induction (motive := fun k => j.accepted <+: k.accepted ∧ j.ended <+: k.ended
    ∧ j.abandoned <+: k.abandoned) ?_ ⟨List.prefix_refl _, List.prefix_refl _, List.prefix_refl _⟩
    moves
  rintro k k' ⟨haccepted, hended, habandoned⟩ hc
  obtain ⟨haccepted', hended', habandoned'⟩ := hc.notes_prefix
  exact ⟨haccepted.trans haccepted', hended.trans hended', habandoned.trans habandoned'⟩

/-! ## What the notes have to do with the pool -/

/-- What holds of a pool of `n` workers and its notes at every moment. -/
structure Sound (n : Nat) (j : Journal τ) : Prop where
  workers : j.pool.workers = n
  /-- No task is given twice. -/
  distinct : j.given.Nodup
  /-- Every task that was given waits, was accepted or was refused. -/
  given : (j.pool.waiting ++ (j.accepted ++ j.refused)).Perm j.given
  /-- The accepted tasks in their order. -/
  order : j.accepted = j.started ++ (j.pool.held.toList ++ (j.pool.queue ++ j.abandoned))
  /-- Every task that was started runs or has ended. -/
  underway : (j.pool.running ++ j.ended.map (·.1)).Perm j.started
  bound : j.pool.running.length ≤ n
  /-- No task that has run is told to be cancelled. -/
  ran : ∀ x ∈ j.ended, x.2 ≠ .cancelled
  /-- Only when the grace is over are tasks given up. -/
  given_up : j.pool.phase ≠ .expired → j.abandoned = []
  /-- A pool that has been closed has nothing left to be started. -/
  closed : j.pool.phase = .drained ∨ j.pool.phase = .expired →
    j.pool.waiting = [] ∧ j.pool.queue = [] ∧ j.pool.held = none
  done : j.pool.phase = .drained → j.pool.running = []

namespace Sound

variable {n : Nat} {j j' : Journal τ}

omit [DecidableEq τ] in
theorem start {workers depth : Nat} {p : Pool τ} (made : Pool.create? workers depth = some p) :
    ({ pool := p } : Journal τ).Sound (max 1 (min workers maxWorkers)) := by
  obtain rfl := Pool.create?_eq_some made
  constructor <;> simp

omit [DecidableEq τ] in
/-- No task is given up as long as submitters wait or the pool is not
closed. -/
theorem abandoned_eq_nil (h : j.Sound n)
    (hleft : j.pool.waiting ≠ [] ∨ j.pool.phase = .serving ∨ j.pool.phase = .draining) :
    j.abandoned = [] := by
  refine h.given_up fun hexpired => ?_
  rcases hleft with hleft | hleft | hleft
  · exact hleft (h.closed (Or.inr hexpired)).1
  · rw [hleft] at hexpired; cases hexpired
  · rw [hleft] at hexpired; cases hexpired

/-! ### Tasks that come in -/

omit [DecidableEq τ] in
theorem nodup_given (h : j.Sound n) {t : τ} (hfresh : t ∉ j.given) : (j.given ++ [t]).Nodup := by
  simpa using h.distinct.concat hfresh

/-- The places of tasks that were given, counted one by one. -/
theorem count_given (h : j.Sound n) (t : τ) :
    j.pool.waiting.count t + (j.accepted.count t + j.refused.count t) = j.given.count t := by
  have hgiven := List.perm_iff_count.mp h.given t
  simpa only [List.count_append] using hgiven

omit [DecidableEq τ] in
/-- A task that gets into the queue is the last of the accepted ones. -/
theorem order_queued (h : j.Sound n) (hnone : j.abandoned = []) (t : τ) :
    j.accepted ++ [t] = j.started
      ++ (j.pool.held.toList ++ ((j.pool.queue ++ [t]) ++ j.abandoned)) := by
  have horder := h.order
  rw [hnone, List.append_nil] at horder
  rw [horder, hnone, List.append_nil]
  simp only [List.append_assoc]

theorem refused (h : j.Sound n) {t : τ} (hfresh : t ∉ j.given) :
    Sound n { j with given := j.given ++ [t], refused := j.refused ++ [t] } :=
  { h with
    distinct := h.nodup_given hfresh
    given := List.perm_iff_count.mpr fun a => by
      have := h.count_given a
      simp only [List.count_append]
      omega }

theorem queued (h : j.Sound n) {t : τ} (hfresh : t ∉ j.given)
    (hserving : j.pool.phase = .serving) :
    Sound n { j with
      pool := { j.pool with queue := j.pool.queue ++ [t] }
      given := j.given ++ [t], accepted := j.accepted ++ [t] } :=
  { h with
    distinct := h.nodup_given hfresh
    given := List.perm_iff_count.mpr fun a => by
      have := h.count_given a
      simp only [List.count_append]
      omega
    order := h.order_queued (h.abandoned_eq_nil (Or.inr (Or.inl hserving))) t
    closed := by simp [hserving] }

theorem waits (h : j.Sound n) {t : τ} (hfresh : t ∉ j.given)
    (hserving : j.pool.phase = .serving) :
    Sound n { j with
      pool := { j.pool with waiting := j.pool.waiting ++ [t] }, given := j.given ++ [t] } :=
  { h with
    distinct := h.nodup_given hfresh
    given := List.perm_iff_count.mpr fun a => by
      have := h.count_given a
      simp only [List.count_append]
      omega
    closed := by simp [hserving] }

theorem accepted (h : j.Sound n) {t : τ} {rest : List τ} (hperm : (t :: rest).Perm j.pool.waiting) :
    Sound n { j with
      pool := { j.pool with waiting := rest, queue := j.pool.queue ++ [t] }
      accepted := j.accepted ++ [t] } := by
  have hsome : j.pool.waiting ≠ [] := fun hnil =>
    List.cons_ne_nil t rest (List.Perm.eq_nil (hnil ▸ hperm))
  exact { h with
    given := List.perm_iff_count.mpr fun a => by
      have := h.count_given a
      have := List.perm_iff_count.mp hperm a
      rw [← List.singleton_append, List.count_append] at this
      simp only [List.count_append]
      omega
    order := h.order_queued (h.abandoned_eq_nil (Or.inl hsome)) t
    closed := fun hclosed => absurd (h.closed hclosed).1 hsome }

/-! ### Tasks on their way -/

omit [DecidableEq τ] in
/-- As long as a task is still to be started the pool is not closed. -/
theorem not_closed (h : j.Sound n) (hleft : j.pool.queue ≠ [] ∨ j.pool.held ≠ none) :
    ¬ (j.pool.phase = .drained ∨ j.pool.phase = .expired) := by
  intro hclosed
  obtain ⟨-, hqueue, hheld⟩ := h.closed hclosed
  exact hleft.elim (fun hne => hne hqueue) fun hne => hne hheld

omit [DecidableEq τ] in
theorem taken (h : j.Sound n) {t : τ} {rest : List τ} (hheld : j.pool.held = none)
    (hqueue : j.pool.queue = t :: rest) :
    Sound n { j with pool := { j.pool with held := some t, queue := rest } } :=
  { h with
    order := by
      rw [h.order, hheld, hqueue]
      rfl
    closed := fun hclosed => absurd hclosed (h.not_closed (Or.inl (by simp [hqueue]))) }

theorem started (h : j.Sound n) {t : τ} (hheld : j.pool.held = some t)
    (hfree : j.pool.running.length < j.pool.workers) :
    Sound n { j with
      pool := { j.pool with held := none, running := j.pool.running ++ [t] }
      started := j.started ++ [t] } := by
  have hnot := h.not_closed (Or.inr (by simp [hheld]))
  exact { h with
    order := by
      rw [h.order, hheld]
      simp
    underway := List.perm_iff_count.mpr fun a => by
      have := List.perm_iff_count.mp h.underway a
      simp only [List.count_append] at this ⊢
      omega
    bound := by
      have := h.workers
      simp only [List.length_append, List.length_singleton]
      omega
    closed := fun hclosed => absurd hclosed hnot
    done := fun hdrained => absurd (Or.inl hdrained) hnot }

theorem ended (h : j.Sound n) {t : τ} (hruns : t ∈ j.pool.running) (fails : Bool) :
    Sound n { j with
      pool := { j.pool with running := j.pool.running.erase t }
      ended := j.ended ++ [(t, ending fails)] } :=
  { h with
    underway := List.perm_iff_count.mpr fun a => by
      have := List.perm_iff_count.mp h.underway a
      have := List.perm_iff_count.mp (List.perm_cons_erase hruns) a
      rw [← List.singleton_append, List.count_append] at this
      simp only [List.count_append, List.map_append, List.map_cons, List.map_nil] at *
      omega
    bound := Nat.le_trans List.length_erase_le h.bound
    ran := by
      intro x hx
      rcases List.mem_append.mp hx with hx | hx
      · exact h.ran x hx
      · obtain rfl := List.mem_singleton.mp hx
        cases fails <;> exact Outcome.noConfusion
    done := fun hdone => by simp [h.done hdone] }

/-! ### Closing -/

theorem expired (h : j.Sound n) (hdraining : j.pool.phase = .draining) :
    Sound n { j with
      pool := { j.pool with phase := .expired, waiting := [], queue := [], held := none }
      abandoned := j.abandoned ++ (j.pool.held.toList ++ j.pool.queue)
      refused := j.refused ++ j.pool.waiting } :=
  { h with
    given := List.perm_iff_count.mpr fun a => by
      have := h.count_given a
      simp only [List.count_append, List.count_nil]
      omega
    order := by
      have hnone := h.abandoned_eq_nil (Or.inr (Or.inr hdraining))
      simp only [h.order, hnone, List.nil_append, List.append_nil, Option.toList_none]
    given_up := fun hphase => absurd rfl hphase
    closed := fun _ => ⟨rfl, rfl, rfl⟩
    done := nofun }

/-- Every change keeps all of it. -/
theorem change (h : j.Sound n) (hc : j.Change j') : j'.Sound n := by
  cases hc with
  | nothing => exact h
  | refused t hfresh => exact h.refused hfresh
  | queued t hfresh hserving => exact h.queued hfresh hserving
  | waits t hfresh hserving => exact h.waits hfresh hserving
  | accepted t rest hperm => exact h.accepted hperm
  | taken t rest hheld hqueue => exact h.taken hheld hqueue
  | started t hheld hfree => exact h.started hheld hfree
  | ended t fails hruns => exact h.ended hruns fails
  | closing hserving =>
    exact { h with
      given_up := fun _ => h.abandoned_eq_nil (Or.inr (Or.inl hserving)), closed := nofun
      done := nofun }
  | askedAgain hclosed => exact { h with }
  | drained hdraining hwaiting hqueue hheld hrunning =>
    exact { h with
      given_up := fun _ => h.abandoned_eq_nil (Or.inr (Or.inr hdraining))
      closed := fun _ => ⟨hwaiting, hqueue, hheld⟩
      done := fun _ => hrunning }
  | expired hdraining => exact { h.expired hdraining with }

theorem run (h : j.Sound n) (moves : List (Move τ)) : (j.run moves).Sound n :=
  run_induction (fun _ _ h hc => h.change hc) h moves

end Sound

end Journal

end CallAudit.Workers
