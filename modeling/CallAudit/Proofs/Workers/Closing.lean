/-
CallAudit.Proofs.Workers.Closing — what an answer to whoever closes a pool
is worth.

Only the first who asks waits: until all is done, or until the grace is
over. So the answers begin with one that goes with the phase of the pool,
and `Answered` says that yes comes after it as often as others asked.

* `Answered.change` — every change keeps that.
* `drained_run` — a pool that was drained takes no task any more, so a yes
  stays true.
* `shutdown_answers` — what the first yes says, and that every other call is
  answered yes whatever is left.
* `later_yes_untrue` — a pool that was given up with a task running, of
  which the next who asks is told that all is done.
-/
import CallAudit.Proofs.Workers.Safety

namespace CallAudit.Workers

/-- What the first who asked a pool to close has been told, if somebody
asked. -/
def Phase.answer? : Phase → Option (Option Bool)
  | serving => none
  | draining => some none
  | drained => some (some true)
  | expired => some (some false)

namespace Journal

variable {τ : Type}

/-- The first who asked is answered by the phase of the pool, and all others
are answered yes. -/
def Answered (j : Journal τ) : Prop :=
  ∃ others, j.answers = j.pool.phase.answer?.toList ++ List.replicate others (some true)
    ∧ (j.pool.phase = .serving → others = 0)

namespace Answered

variable {j : Journal τ}

/-- The first yes is that of a pool that was drained. -/
theorem drained_of_yes (h : j.Answered) (hyes : j.answers.head? = some (some true)) :
    j.pool.phase = .drained := by
  obtain ⟨others, hanswers, hnone⟩ := h
  rw [hanswers] at hyes
  cases hphase : j.pool.phase with
  | drained => rfl
  | serving =>
    rw [hphase, hnone hphase] at hyes
    cases hyes
  | draining =>
    rw [hphase] at hyes
    cases hyes
  | expired =>
    rw [hphase] at hyes
    cases hyes

/-- All answers but the first are yes. -/
theorem tail_yes (h : j.Answered) : ∀ answer ∈ j.answers.tail, answer = some true := by
  obtain ⟨others, hanswers, hnone⟩ := h
  intro answer hmem
  rw [hanswers] at hmem
  cases hphase : j.pool.phase with
  | serving =>
    rw [hphase, hnone hphase] at hmem
    cases hmem
  | _ =>
    rw [hphase] at hmem
    exact (List.mem_replicate.mp hmem).2

/-- Only after somebody has asked there are answers. -/
theorem closed_of_asked (h : j.Answered) (hasked : j.answers ≠ []) : j.pool.phase ≠ .serving := by
  intro hserving
  obtain ⟨others, hanswers, hnone⟩ := h
  rw [hserving, hnone hserving] at hanswers
  exact hasked hanswers

end Answered

variable [DecidableEq τ]

theorem Answered.change {j j' : Journal τ} (h : j.Answered) (hc : j.Change j') : j'.Answered := by
  obtain ⟨others, hanswers, hnone⟩ := h
  cases hc with
  | closing hserving =>
    refine ⟨0, ?_, fun _ => rfl⟩
    simp [hanswers, hnone hserving, hserving, Phase.answer?]
  | askedAgain hclosed =>
    refine ⟨others + 1, ?_, fun hserving => absurd hserving hclosed⟩
    simp [hanswers, List.replicate_succ']
  | drained hdraining =>
    refine ⟨others, ?_, nofun⟩
    simp [reply, hanswers, hdraining, Phase.answer?]
  | expired hdraining =>
    refine ⟨others, ?_, nofun⟩
    simp [reply, hanswers, hdraining, Phase.answer?]
  | _ => exact ⟨others, hanswers, hnone⟩

theorem answered_run {j : Journal τ} (h : j.Answered) (moves : List (Move τ)) :
    (j.run moves).Answered :=
  run_induction (fun _ _ h hc => h.change hc) h moves

/-- A pool that was drained stays so, and accepts no task any more. -/
theorem drained_run {n : Nat} {j : Journal τ} (h : j.Sound n) (hdrained : j.pool.phase = .drained)
    (later : List (Move τ)) :
    (j.run later).pool.phase = .drained ∧ (j.run later).accepted = j.accepted := by
  have hkept : (j.run later).Sound n ∧ (j.run later).pool.phase = .drained
      ∧ (j.run later).accepted = j.accepted := by
    refine run_induction (motive := fun k => k.Sound n ∧ k.pool.phase = .drained
      ∧ k.accepted = j.accepted) ?_ ⟨h, hdrained, rfl⟩ later
    rintro k k' ⟨h, hphase, haccepted⟩ hc
    refine ⟨h.change hc, ?_⟩
    cases hc with
    | queued t _ hserving => rw [hphase] at hserving; cases hserving
    | closing hserving => rw [hphase] at hserving; cases hserving
    | accepted t rest hperm =>
      rw [(h.closed (Or.inl hphase)).1] at hperm
      exact absurd hperm.eq_nil (List.cons_ne_nil t rest)
    | expired hdraining => rw [hphase] at hdraining; cases hdraining
    | drained => exact ⟨rfl, haccepted⟩
    | _ => exact ⟨hphase, haccepted⟩
  exact hkept.2

/-- Every task of a drained pool has come to its end or failed. -/
theorem Sound.ended_of_drained {n : Nat} {j : Journal τ} (h : j.Sound n)
    (hdrained : j.pool.phase = .drained) {t : τ} (ht : t ∈ j.accepted) :
    j.handle? t = some .completed ∨ j.handle? t = some .failed := by
  obtain ⟨-, hqueue, hheld⟩ := h.closed (Or.inl hdrained)
  have hleft : j.abandoned = [] := h.given_up (by rw [hdrained]; exact nofun)
  rcases h.handle?_cases ht with ⟨o, hx, -, -, htold⟩ | ⟨-, -, -, htold⟩ | ⟨-, hgone, -⟩
  · rw [htold]
    cases o with
    | completed => exact Or.inl rfl
    | failed => exact Or.inr rfl
    | cancelled => exact absurd rfl (h.ran _ hx)
  · have hplace := (h.handle?_eq_none ht).mp htold
    simp [hqueue, hheld, h.done hdrained] at hplace
  · rw [hleft] at hgone
    cases hgone

/-- **Answers to those who close a pool.** If the first who asks is answered
yes, every task that was ever accepted has come to its end or failed and
none is left, then and at any later time. All others are answered yes
whatever is left, so only the first answer says anything. -/
theorem shutdown_answers {workers depth : Nat} {p : Pool τ}
    (made : Pool.create? workers depth = some p) (moves : List (Move τ)) :
    let j := ({ pool := p } : Journal τ).run moves
    (j.answers.head? = some (some true) → ∀ later, let k := j.run later
        k.accepted = j.accepted
          ∧ (∀ t ∈ k.accepted, k.handle? t = some .completed ∨ k.handle? t = some .failed)
          ∧ k.pool.queue = [] ∧ k.pool.held = none ∧ k.pool.running = [])
      ∧ (∀ answer ∈ j.answers.tail, answer = some true)
      ∧ (j.answers ≠ [] → (j.step .shutdown).answers = j.answers ++ [some true]) := by
  intro j
  have h : j.Sound _ := (Sound.start made).run moves
  have hstart : ({ pool := p } : Journal τ).Answered := by
    obtain rfl := Pool.create?_eq_some made
    exact ⟨0, rfl, fun _ => rfl⟩
  have hanswered : j.Answered := answered_run hstart moves
  refine ⟨fun hyes later => ?_, hanswered.tail_yes, fun hasked => ?_⟩
  · have hdrained := hanswered.drained_of_yes hyes
    obtain ⟨hstill, haccepted⟩ := drained_run h hdrained later
    have hk := h.run later
    obtain ⟨-, hqueue, hheld⟩ := hk.closed (Or.inl hstill)
    exact ⟨haccepted, fun t ht => hk.ended_of_drained hstill ht, hqueue, hheld, hk.done hstill⟩
  · have hclosed := hanswered.closed_of_asked hasked
    simp only [step, Pool.shutdown, hclosed, if_false]

/-- The only task fails, and the pool is drained. -/
theorem shutdown_answers_drained :
    let j := ({ pool := soleWorker } : Journal Nat).run
      [.trySubmit 0, .take, .start, .shutdown, .finish 0 true, .drain, .shutdown]
    j.answers = [some true, some true] ∧ j.pool.running = []
      ∧ (j.handle? 0 = some .completed ∨ j.handle? 0 = some .failed) := by
  intro j
  obtain ⟨hfirst, -⟩ := shutdown_answers (rfl : Pool.create? 1 1 = some soleWorker)
    [.trySubmit 0, .take, .start, .shutdown, .finish 0 true, .drain, .shutdown]
  obtain ⟨-, htold, -, -, hrunning⟩ := hfirst (by decide +kernel) []
  exact ⟨by decide +kernel, hrunning, htold 0 (by decide +kernel)⟩

/-- The pool is given up with one task running and one cancelled, and the
next who asks is told that all is done. -/
theorem later_yes_untrue :
    let j := ({ pool := soleWorker } : Journal Nat).run
      [.trySubmit 0, .take, .start, .trySubmit 1, .shutdown, .expire]
    let k := j.step .shutdown
    j.answers = [some false] ∧ k.answers = [some false, some true] ∧ 0 ∈ k.accepted
      ∧ 0 ∈ k.pool.running ∧ k.handle? 0 = none ∧ k.handle? 1 = some .cancelled := by
  decide

end Journal

end CallAudit.Workers
