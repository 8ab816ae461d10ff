/-
CallAudit.Proofs.Rounds.Settling — a round of claiming is one of the ways of
handing a batch over.

A shift hands its jobs over and settles in an order of its own. Its pool
knows the places of the jobs and not their copies, so the two accounts are
compared by the tasks of the copies.

* `Pool.map` — a pool whose tasks go by other names. Giving tasks to it and
  moving them on is the same under all names.
* `Shows` — a pool and the tasks still to be handed over, as whoever hands
  them over has them. Between two steps of the shift no task is turned away.
* `Leads` — turns without new tasks lead there. `Leads.next` is about the
  next task to be handed over, the other lemmas about the moves of the pool.
* `leads_settleFor` — a shift settles.
* `leads_claimRound` — a round of claiming.
-/
import CallAudit.Proofs.Rounds.Dispatch
import CallAudit.Proofs.Workers.Replay
import CallAudit.Rounds.Shift

namespace CallAudit

/-! ## Other names for the tasks -/

namespace Workers.Pool

variable {σ τ : Type} (f : σ → τ)

/-- A pool whose tasks go by other names. -/
def map (p : Pool σ) : Pool τ where
  workers := p.workers
  depth := p.depth
  phase := p.phase
  waiting := p.waiting.map f
  queue := p.queue.map f
  held := p.held.map f
  running := p.running.map f

theorem accept?_map (p : Pool σ) :
    (p.map f).accept? = p.accept?.map fun next => (f next.1, next.2.map f) := by
  cases hwaiting : p.waiting with
  | nil => simp [accept?, map, hwaiting]
  | cons t rest =>
    by_cases hroom : p.queue.length < p.depth <;> simp [accept?, map, hasRoom, hwaiting, hroom]

theorem take?_map (p : Pool σ) : (p.map f).take? = p.take?.map (map f) := by
  cases hheld : p.held with
  | some t => simp [take?, map, hheld]
  | none => cases hqueue : p.queue <;> simp [take?, map, hheld, hqueue]

theorem start?_map (p : Pool σ) :
    (p.map f).start? = p.start?.map fun next => (f next.1, next.2.map f) := by
  cases hheld : p.held with
  | none => simp [start?, map, hheld]
  | some t =>
    by_cases hfree : p.running.length < p.workers <;> simp [start?, map, hheld, hfree]

/-- The first entry with a name is taken out under its name. -/
theorem exists_erase_map [DecidableEq σ] [DecidableEq τ] {xs : List σ} {t : τ}
    (ht : t ∈ xs.map f) : ∃ s ∈ xs, f s = t ∧ (xs.erase s).map f = (xs.map f).erase t := by
  induction xs with
  | nil => cases ht
  | cons x xs ih =>
    by_cases hx : f x = t
    · exact ⟨x, List.mem_cons_self, hx, by simp [hx]⟩
    · have hrest : t ∈ xs.map f := (List.mem_cons.mp ht).resolve_left fun heq => hx heq.symm
      obtain ⟨s, hs, hname, herase⟩ := ih hrest
      have hne : x ≠ s := fun heq => hx (heq ▸ hname)
      refine ⟨s, List.mem_cons_of_mem x hs, hname, ?_⟩
      rw [List.erase_cons_tail (by simpa using hne), List.map_cons, List.map_cons, herase,
        List.erase_cons_tail (by simpa using hx)]

/-- A task that runs under its other name ends under it when it ends. -/
theorem exists_finish_map [DecidableEq σ] [DecidableEq τ] (p : Pool σ) {t : τ}
    (runs : t ∈ (p.map f).running) :
    ∃ s ∈ p.running, (p.finish s).map f = (p.map f).finish t := by
  obtain ⟨s, hs, -, herase⟩ := exists_erase_map f runs
  exact ⟨s, hs, by simp only [finish, map, herase]⟩

end Workers.Pool

namespace Rounds

open CallAudit.Workers (Journal Pool)

/-- A pool that takes tasks takes every task, if not at once. -/
theorem handOver_serving {τ : Type} {p : Pool τ} (serving : p.phase = .serving) (t : τ) :
    ∃ p', handOver p t = .ok p' := by
  unfold handOver
  cases hpool : p.trySubmit t with
  | ok p' => exact ⟨p', rfl⟩
  | error why =>
    cases why with
    | saturated => exact ⟨_, if_neg (not_not.mpr serving)⟩
    | closed =>
      rw [Pool.trySubmit, if_neg (not_not.mpr serving)] at hpool
      split at hpool <;> cases hpool

/-! ## Two accounts of handing over -/

namespace Handover

variable {τ : Type} [DecidableEq τ]

/-- A pool and the tasks that are still to be handed over to it, as whoever
hands them over has them when no task is turned away. -/
structure Shows (p : Pool τ) (rest : List τ) (h : Handover τ) : Prop where
  pool : h.journal.pool.map (·.task) = p
  rest : h.rest = rest
  between : ∀ t, h.stage ≠ .turnedAway t

/-- Turns without new tasks lead to a pool and the tasks that are then still
to be handed over. -/
def Leads (h : Handover τ) (p : Pool τ) (rest : List τ) : Prop :=
  ∃ turns : List (Turn τ), (∀ turn ∈ turns, turn.IsInner) ∧ Shows p rest (h.run turns)

omit [DecidableEq τ] in
theorem Turn.IsInner.steady {turn : Turn τ} (inner : turn.IsInner) (batch : List τ) :
    turn.IsSteady batch := by
  cases turn with
  | hand => trivial
  | pool m =>
    obtain ⟨hm, hnone⟩ := inner
    refine ⟨hm, fun o ho => ?_⟩
    rw [hnone] at ho
    cases ho

theorem Kept.run_inner {n : Nat} {batch : List τ} {h : Handover τ} (k : Kept n batch h)
    (distinct : batch.Nodup) {turns : List (Turn τ)} (inner : ∀ turn ∈ turns, turn.IsInner) :
    Kept n batch (h.run turns) :=
  k.run distinct fun turn hturn => (inner turn hturn).steady batch

namespace Leads

variable {n : Nat} {batch rest rest' : List τ} {h : Handover τ} {p p' : Pool τ}

theorem of_run {turns : List (Turn τ)} (inner : ∀ turn ∈ turns, turn.IsInner)
    (l : (h.run turns).Leads p rest) : h.Leads p rest := by
  obtain ⟨more, inner', shows⟩ := l
  refine ⟨turns ++ more, fun turn hturn => ?_, ?_⟩
  · exact (List.mem_append.mp hturn).elim (inner turn) (inner' turn)
  · rw [run, List.foldl_append]
    exact shows

/-- From where turns lead, others lead on. -/
theorem trans (l : h.Leads p rest) (k : Kept n batch h) (distinct : batch.Nodup)
    (on : ∀ x, Kept n batch x → Shows p rest x → x.Leads p' rest') : h.Leads p' rest' := by
  obtain ⟨turns, inner, shows⟩ := l
  exact of_run inner (on _ (k.run_inner distinct inner) shows)

/-- A move of the pool. -/
theorem move (l : h.Leads p rest) (k : Kept n batch h) (distinct : batch.Nodup)
    (moves : ∀ x : Handover τ, x.journal.pool.map (·.task) = p →
      ∃ m : Workers.Move (Offer τ), m ≠ .shutdown ∧ m.given? = none
        ∧ (x.journal.step m).pool.map (·.task) = p') : h.Leads p' rest :=
  l.trans k distinct fun x _ shows => by
    obtain ⟨m, hm, hnone, hpool⟩ := moves x shows.pool
    refine ⟨[.pool m], fun turn hturn => ?_, hpool, shows.rest, shows.between⟩
    rw [List.mem_singleton.mp hturn]
    exact ⟨hm, hnone⟩

theorem accept (l : h.Leads p rest) (k : Kept n batch h) (distinct : batch.Nodup) {t : τ}
    (haccept : p.accept? = some (t, p')) : h.Leads p' rest :=
  l.move k distinct fun x hx => by
    rw [← hx, Pool.accept?_map, Option.map_eq_some_iff] at haccept
    obtain ⟨next, hnext, heq⟩ := haccept
    refine ⟨.accept 0, by simp, rfl, ?_⟩
    simp only [Journal.step, Pool.favour_zero, hnext]
    exact congrArg Prod.snd heq

theorem take (l : h.Leads p rest) (k : Kept n batch h) (distinct : batch.Nodup)
    (htake : p.take? = some p') : h.Leads p' rest :=
  l.move k distinct fun x hx => by
    rw [← hx, Pool.take?_map, Option.map_eq_some_iff] at htake
    obtain ⟨next, hnext, heq⟩ := htake
    refine ⟨.take, by simp, rfl, ?_⟩
    simp only [Journal.step, hnext]
    exact heq

theorem begun (l : h.Leads p rest) (k : Kept n batch h) (distinct : batch.Nodup) {t : τ}
    (hstart : p.start? = some (t, p')) : h.Leads p' rest :=
  l.move k distinct fun x hx => by
    rw [← hx, Pool.start?_map, Option.map_eq_some_iff] at hstart
    obtain ⟨next, hnext, heq⟩ := hstart
    refine ⟨.start, by simp, rfl, ?_⟩
    simp only [Journal.step, hnext]
    exact congrArg Prod.snd heq

theorem finish (l : h.Leads p rest) (k : Kept n batch h) (distinct : batch.Nodup) {t : τ}
    (runs : t ∈ p.running) : h.Leads (p.finish t) rest :=
  l.move k distinct fun x hx => by
    rw [← hx] at runs
    obtain ⟨o, ho, hpool⟩ := Pool.exists_finish_map _ _ runs
    refine ⟨.finish o false, by simp, rfl, ?_⟩
    simp only [Journal.step, ho, if_true]
    rw [hpool, hx]

/-- A copy that nothing keeps waiting any more gets its handle. -/
theorem arrives (k : Kept n batch h) (shows : Shows p rest h) (idle : p.waiting = []) :
    ∃ turns : List (Turn τ), (∀ turn ∈ turns, turn.IsInner)
      ∧ Shows p rest (h.run turns) ∧ (h.run turns).stage = .ready := by
  have hwaiting : h.journal.pool.waiting = [] := by
    have hnames : (h.journal.pool.map (·.task)).waiting = [] := shows.pool ▸ idle
    exact List.map_eq_nil_iff.mp hnames
  cases hstage : h.stage with
  | ready => exact ⟨[], by simp, shows, hstage⟩
  | turnedAway t => exact absurd hstage (shows.between t)
  | stopped => exact absurd hstage k.going
  | waiting t =>
    have haccepted := k.accepted_of_idle hstage hwaiting
    have hhand : h.run [.hand]
        = { h with stage := .ready, handles := h.handles ++ [⟨t, true⟩] } := by
      simp only [run, List.foldl_cons, List.foldl_nil, Handover.step, hand, hstage, haccepted,
        if_true]
    refine ⟨[.hand], fun turn hturn => ?_, ?_, ?_⟩
    · rw [List.mem_singleton.mp hturn]
      trivial
    · rw [hhand]
      exact ⟨shows.pool, shows.rest, by simp⟩
    · rw [hhand]

/-- The next task is handed over: its copy is put into the queue, or the
second one waits. -/
theorem hands (k : Kept n batch h) (distinct : batch.Nodup) {t : τ} (shows : Shows p (t :: rest) h)
    (idle : p.waiting = []) (ready : h.stage = .ready) (hpool : handOver p t = .ok p') :
    h.Leads p' rest := by
  obtain ⟨rfl, hrest, -⟩ := shows
  have hserving := k.serving
  have hwaiting : h.journal.pool.waiting = [] := List.map_eq_nil_iff.mp idle
  have hnext := k.handed distinct
  have kept := k.hand distinct
  generalize hy : h.hand = y at hnext kept
  have hsecond := kept.handed distinct
  generalize hz : y.hand = z at hsecond
  cases hnext with
  | queued u others _ hothers _ hroom =>
    obtain ⟨rfl, rfl⟩ : t = u ∧ rest = others := by simpa [hrest] using hothers
    refine ⟨[.hand], fun turn hturn => ?_, ?_⟩
    · rw [List.mem_singleton.mp hturn]
      trivial
    · show Shows p' rest h.hand
      rw [hy]
      refine ⟨?_, rfl, fun v hv => by cases ready.symm.trans hv⟩
      simpa [handOver, Pool.trySubmit, Pool.hasRoom, Pool.map, hserving, hwaiting, hroom]
        using hpool
  | turnedAway u others _ hothers hfull =>
    obtain ⟨rfl, rfl⟩ : t = u ∧ rest = others := by simpa [hrest] using hothers
    have hnot : ¬ h.journal.pool.queue.length < h.journal.pool.depth := fun hroom =>
      hfull ⟨hwaiting, hroom⟩
    refine ⟨[.hand, .hand], fun turn hturn => ?_, ?_⟩
    · have hhand : turn = .hand := by simpa using hturn
      rw [hhand]
      trivial
    · show Shows p' rest h.hand.hand
      rw [hy, hz]
      cases hsecond with
      | waits v away =>
        cases away
        refine ⟨?_, rfl, by simp⟩
        simpa [handOver, Pool.trySubmit, Pool.submit, Pool.hasRoom, Pool.map, hserving, hwaiting,
          hnot] using hpool
      | complete hready => cases hready
      | stays v waiting => cases waiting
      | queued v others hready => cases hready
      | turnedAway v others hready => cases hready
      | arrived v waiting => cases waiting
  | complete _ hnone => rw [hrest] at hnone; cases hnone
  | stays v waiting => cases ready.symm.trans waiting
  | waits v away => cases ready.symm.trans away
  | arrived v waiting => cases ready.symm.trans waiting

/-- The next task is handed over, after the copy before it got its handle. -/
theorem next {d d' : Dispatch τ} (l : h.Leads d.pool d.rest) (k : Kept n batch h)
    (distinct : batch.Nodup) (hnext : d.next? = some d') : h.Leads d'.pool d'.rest := by
  refine l.trans k distinct fun x kx shows => ?_
  unfold Dispatch.next? at hnext
  split at hnext
  · cases hnext
  · rename_i t rest hrest
    split at hnext
    · rename_i hidle
      have idle : d.pool.waiting = [] := List.isEmpty_iff.mp hidle
      rw [hrest] at shows
      obtain ⟨turns, inner, shows', ready⟩ := arrives kx shows idle
      have ky := kx.run_inner distinct inner
      split at hnext
      · rename_i pool hpool
        cases hnext
        exact of_run inner (hands ky distinct shows' idle ready hpool)
      · rename_i why hpool
        have hserving : d.pool.phase = .serving := shows.pool ▸ kx.serving
        obtain ⟨pool, hok⟩ := handOver_serving hserving t
        rw [hok] at hpool
        cases hpool
    · cases hnext

end Leads

end Handover

namespace Shift

open Handover

/-- A run that has ended leaves its worker; nothing else is changed of the
pool. -/
theorem look_pool (s : Shift) (place : Nat) :
    (s.look place).pool = s.pool ∨ (s.look place).pool = s.pool.finish place := by
  unfold look
  split
  · split
    · exact Or.inr rfl
    · exact Or.inl rfl
  · exact Or.inl rfl

theorem work_pool (s : Shift) (place : Nat) :
    (s.work place).pool = s.pool ∨ (s.work place).pool = s.pool.finish place := by
  unfold work
  split
  · unfold proceed
    split
    · exact Or.inr rfl
    · exact Or.inl rfl
  · exact Or.inl rfl

variable {n : Nat} {batch : List Nat} {h : Handover Nat}

/-- Whatever a shift does to settle, turns lead there. -/
theorem leads_settleFor (k : Handover.Kept n batch h) (distinct : batch.Nodup) (fuel : Nat) :
    ∀ {s : Shift} {rest : List Nat}, h.Leads s.pool rest →
      ∃ left, h.Leads (settleFor fuel rest s).pool left := by
  have hafter : ∀ {s s' : Shift} {rest : List Nat} {place : Nat}, h.Leads s.pool rest →
      place ∈ s.pool.running → s'.pool = s.pool ∨ s'.pool = s.pool.finish place →
        h.Leads s'.pool rest := by
    intro s s' rest place l runs hpool
    rcases hpool with hsame | hends
    · exact hsame ▸ l
    · exact hends ▸ l.finish k distinct runs
  induction fuel with
  | zero => exact fun {s rest} l => ⟨rest, l⟩
  | succ fuel ih =>
    intro s rest l
    unfold settleFor
    split
    · rename_i t pool haccept
      exact ih (l.accept k distinct haccept)
    · split
      · rename_i pool htake
        exact ih (l.take k distinct htake)
      · split
        · rename_i place pool hstart
          have hruns : place ∈ pool.running := by
            obtain ⟨-, -, rfl⟩ := Pool.start?_eq_some hstart
            simp
          have hbegun : h.Leads ({ s with pool } : Shift).pool rest := l.begun k distinct hstart
          exact ih (hafter hbegun hruns (look_pool _ place))
        · split
          · rename_i d hnext
            exact ih (l.next k distinct hnext)
          · split
            · rename_i place hready
              have hruns := List.mem_of_find?_eq_some hready
              exact ih (hafter l hruns (s.work_pool place))
            · exact ⟨rest, l⟩

/-- **A round of claiming.** A shift whose pool takes tasks claims a batch.
What its pool is after the round is what turns without new tasks make of the
pool that the places of the new jobs are handed over to, in their order. So
the tasks of the batch that were started by then are its first, each once. -/
theorem leads_claimRound {s : Shift} {j : Journal (Offer Nat)} (sound : j.Sound n)
    (same : j.pool.map (·.task) = s.pool) (serving : s.pool.phase = .serving)
    (places : 0 < s.pool.depth) (known : ∀ o ∈ j.given, o.task < s.jobs.length)
    {claimed : List Job} {c : Connection} (hclaim : s.connection.claim s.batch = (.ok claimed, c)) :
    let batch := (List.range claimed.length).map (s.jobs.length + ·)
    ∃ turns : List (Handover.Turn Nat), (∀ turn ∈ turns, turn.IsInner)
      ∧ let h := Handover.run { journal := j, rest := batch } turns
        h.journal.pool.map (·.task) = s.claimRound.2.pool ∧ executed batch h <+: batch := by
  intro batch
  have distinct : batch.Nodup := List.nodup_range.map fun a b hab => Nat.add_left_cancel hab
  have fresh : ∀ o ∈ j.given, o.task ∉ batch := by
    intro o ho hmem
    obtain ⟨i, -, hi⟩ := List.mem_map.mp hmem
    have := known o ho
    omega
  have k : Handover.Kept n batch { journal := j, rest := batch } := by
    rw [← same] at serving places
    exact .start sound serving places fresh
  obtain ⟨left, turns, inner, shows⟩ : ∃ left,
      ({ journal := j, rest := batch } : Handover Nat).Leads s.claimRound.2.pool left := by
    simp only [claimRound, hclaim, serving, if_true, settle]
    have between : ∀ t, (Stage.ready : Stage Nat) ≠ .turnedAway t := by simp
    exact leads_settleFor k distinct _ ⟨[], by simp, same, rfl, between⟩
  have kept := k.run_inner distinct inner
  exact ⟨turns, inner, shows.pool, kept.executed_prefix⟩

end Shift

end Rounds

end CallAudit
