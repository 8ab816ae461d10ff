/-
CallAudit.Proofs.Workers.Safety — what becomes of the tasks of a pool.

* `Journal.handle?` — what whoever gave a task to the pool is told of it.
  Nobody keeps this: an outcome is sent when the task has run, and a task
  that is no longer anywhere without one was cancelled.
* `Sound.count_le`, `Sound.count_accepted` — a task is at one place only,
  by counting it at all of them. The notes are lists, so most of what is
  shown here is shown by comparing such counts.
* `Sound.handle?_eq_some`, `Sound.handle?_eq_none` — what is told, in terms
  of the notes.
* `pool_safety` — the bound on the tasks that run, their order, and what is
  told of each.
-/
import CallAudit.Proofs.Lists
import CallAudit.Proofs.Workers.Journal

namespace CallAudit.Workers

variable {τ : Type} [DecidableEq τ]

/-- Whether a task is on its way through a pool. -/
def Pool.Has (p : Pool τ) (t : τ) : Prop :=
  t ∈ p.waiting ∨ t ∈ p.queue ∨ p.held = some t ∨ t ∈ p.running

instance (p : Pool τ) (t : τ) : Decidable (p.Has t) :=
  inferInstanceAs (Decidable (_ ∨ _ ∨ _ ∨ _))

namespace Journal

/-- What is told of a task, once there is something to tell: the outcome
that was sent for it, or that it was cancelled if it has left the pool
without one. -/
def handle? (j : Journal τ) (t : τ) : Option Outcome :=
  match j.ended.find? (·.1 = t) with
  | some x => some x.2
  | none => if j.pool.Has t then none else some .cancelled

namespace Sound

variable {n : Nat} {j : Journal τ}

/-! ## The places of a task -/

/-- No task is at two of the places where tasks that were given are. -/
theorem count_le (h : j.Sound n) (t : τ) :
    j.pool.waiting.count t + (j.accepted.count t + j.refused.count t) ≤ 1 := by
  have := h.count_given t
  have := List.nodup_iff_count_le_one.mp h.distinct t
  omega

/-- An accepted task runs, has ended, is still to be started or was given
up. -/
theorem count_accepted (h : j.Sound n) (t : τ) :
    j.accepted.count t = j.pool.running.count t + (j.ended.map (·.1)).count t
      + (j.pool.held.toList.count t + (j.pool.queue.count t + j.abandoned.count t)) := by
  have hunderway := List.perm_iff_count.mp h.underway t
  simp only [List.count_append] at hunderway
  rw [h.order, hunderway]
  simp only [List.count_append]

omit [DecidableEq τ] in
theorem started_prefix (h : j.Sound n) : j.started <+: j.accepted := by
  rw [h.order]
  exact List.prefix_append _ _

theorem nodup_accepted (h : j.Sound n) : j.accepted.Nodup :=
  List.nodup_iff_count_le_one.mpr fun t => by
    have := h.count_le t
    omega

theorem not_mem_accepted (h : j.Sound n) {t : τ} (ht : t ∈ j.refused ∨ t ∈ j.pool.waiting) :
    t ∉ j.accepted := by
  have hle := h.count_le t
  rw [← List.count_eq_zero]
  rcases ht with ht | ht
  · have := List.count_pos_iff.mpr ht
    omega
  · have := List.count_pos_iff.mpr ht
    omega

/-! ## What is told of a task -/

/-- What was sent for a task is told of it. -/
theorem handle?_of_ended (h : j.Sound n) {t : τ} {o : Outcome} (hx : (t, o) ∈ j.ended) :
    j.handle? t = some o := by
  have hnodup : (j.ended.map (·.1)).Nodup := List.nodup_iff_count_le_one.mpr fun t => by
    have hle := h.count_le t
    have := h.count_accepted t
    omega
  have hfind : j.ended.find? (·.1 = t) = some (t, o) := (find?_key hnodup).mpr ⟨hx, rfl⟩
  unfold handle?
  rw [hfind]

theorem handle?_of_not_ended {t : τ} (ht : t ∉ j.ended.map (·.1)) :
    j.handle? t = if j.pool.Has t then none else some .cancelled := by
  have hfind : j.ended.find? (·.1 = t) = none := by
    rw [List.find?_eq_none]
    intro x hx hkey
    exact ht (List.mem_map.mpr ⟨x, hx, by simpa using hkey⟩)
  unfold handle?
  rw [hfind]

/-- Of an accepted task that has not ended nothing is told as long as it is
on its way, and then that it was cancelled: it was given up. -/
theorem handle?_cases (h : j.Sound n) {t : τ} (ht : t ∈ j.accepted) :
    (∃ o, (t, o) ∈ j.ended ∧ t ∉ j.abandoned ∧ ¬ j.pool.Has t ∧ j.handle? t = some o)
      ∨ (t ∉ j.ended.map (·.1) ∧ t ∉ j.abandoned ∧ j.pool.Has t ∧ j.handle? t = none)
      ∨ (t ∉ j.ended.map (·.1) ∧ t ∈ j.abandoned ∧ ¬ j.pool.Has t
        ∧ j.handle? t = some .cancelled) := by
  have hle := h.count_le t
  have hall := h.count_accepted t
  have hone := List.count_pos_iff.mpr ht
  -- the places as counts, of which exactly one is not zero
  have hhas : j.pool.Has t ↔ 0 < j.pool.waiting.count t + (j.pool.queue.count t
      + (j.pool.held.toList.count t + j.pool.running.count t)) := by
    have hheld : j.pool.held = some t ↔ t ∈ j.pool.held.toList := by simp
    simp only [Pool.Has, hheld, ← List.count_pos_iff]
    omega
  by_cases hended : t ∈ j.ended.map (·.1)
  · obtain ⟨⟨_, o⟩, hx, rfl⟩ := List.mem_map.mp hended
    have hcount := List.count_pos_iff.mpr hended
    refine Or.inl ⟨o, hx, ?_, ?_, h.handle?_of_ended hx⟩
    · rw [← List.count_eq_zero]
      omega
    · rw [hhas]
      omega
  · have hcount := List.count_eq_zero.mpr hended
    by_cases hgone : t ∈ j.abandoned
    · have hout : ¬ j.pool.Has t := by
        have := List.count_pos_iff.mpr hgone
        rw [hhas]
        omega
      refine Or.inr (Or.inr ⟨hended, hgone, hout, ?_⟩)
      rw [handle?_of_not_ended hended, if_neg hout]
    · have hin : j.pool.Has t := by
        have := List.count_eq_zero.mpr hgone
        rw [hhas]
        omega
      refine Or.inr (Or.inl ⟨hended, hgone, hin, ?_⟩)
      rw [handle?_of_not_ended hended, if_pos hin]

/-- What was sent for a task, and nothing else, is told of it, or that it was
given up. -/
theorem handle?_eq_some (h : j.Sound n) {t : τ} (ht : t ∈ j.accepted) {o : Outcome} :
    j.handle? t = some o ↔ (t, o) ∈ j.ended ∨ (o = .cancelled ∧ t ∈ j.abandoned) := by
  have hkey : ∀ {u}, (t, u) ∈ j.ended → t ∈ j.ended.map (·.1) := fun hx =>
    List.mem_map_of_mem (f := (·.1)) hx
  rcases h.handle?_cases ht with ⟨u, hx, hnot, -, htold⟩ | ⟨hended, hnot, -, htold⟩ |
    ⟨hended, hgone, -, htold⟩ <;> rw [htold]
  · constructor
    · rintro ⟨⟩
      exact Or.inl hx
    · rintro (hx' | ⟨-, hgone⟩)
      · rw [← htold, h.handle?_of_ended hx']
      · exact absurd hgone hnot
  · exact iff_of_false nofun fun hor => hor.elim (fun hx => hended (hkey hx)) fun hor => hnot hor.2
  · constructor
    · rintro ⟨⟩
      exact Or.inr ⟨rfl, hgone⟩
    · rintro (hx | ⟨rfl, -⟩)
      · exact absurd (hkey hx) hended
      · rfl

/-- Nothing is told of an accepted task exactly as long as it is still to be
started or runs. -/
theorem handle?_eq_none (h : j.Sound n) {t : τ} (ht : t ∈ j.accepted) :
    j.handle? t = none ↔ t ∈ j.pool.queue ∨ j.pool.held = some t ∨ t ∈ j.pool.running := by
  have hnot : t ∉ j.pool.waiting := fun hwaits => h.not_mem_accepted (Or.inr hwaits) ht
  have hhas : j.pool.Has t ↔ t ∈ j.pool.queue ∨ j.pool.held = some t ∨ t ∈ j.pool.running :=
    or_iff_right hnot
  rw [← hhas]
  rcases h.handle?_cases ht with ⟨u, -, -, hout, htold⟩ | ⟨-, -, hin, htold⟩ |
    ⟨-, -, hout, htold⟩ <;> rw [htold]
  · exact iff_of_false nofun hout
  · exact iff_of_true rfl hin
  · exact iff_of_false nofun hout

/-- What is told of a task is never taken back. -/
theorem handle?_run (h : j.Sound n) {t : τ} (ht : t ∈ j.accepted) {o : Outcome}
    (htold : j.handle? t = some o) (later : List (Move τ)) :
    (j.run later).handle? t = some o := by
  obtain ⟨haccepted, hended, habandoned⟩ := j.run_notes_prefix later
  rw [(h.run later).handle?_eq_some (haccepted.subset ht)]
  rcases (h.handle?_eq_some ht).mp htold with hx | ⟨ho, hgone⟩
  · exact Or.inl (hended.subset hx)
  · exact Or.inr ⟨ho, habandoned.subset hgone⟩

/-! ## Workers -/

/-- As long as something is still to be told of an accepted task, a task
runs or one is on its way to a worker. -/
theorem progress (h : j.Sound n) (positive : 0 < n) {t : τ} (ht : t ∈ j.accepted)
    (hopen : j.handle? t = none) :
    j.pool.running ≠ [] ∨ j.pool.take?.isSome = true ∨ j.pool.start?.isSome = true := by
  by_cases hrunning : j.pool.running = []
  · right
    have hfree : j.pool.running.length < j.pool.workers := by
      rw [hrunning, h.workers]
      exact positive
    cases hheld : j.pool.held with
    | some u => exact Or.inr (Pool.start?_isSome (by rw [hheld]; rfl) hfree)
    | none =>
      left
      rcases (h.handle?_eq_none ht).mp hopen with hqueue | hthis | hruns
      · obtain ⟨u, rest, hqueue⟩ := List.exists_cons_of_ne_nil (List.ne_nil_of_mem hqueue)
        simp [Pool.take?, hheld, hqueue]
      · rw [hheld] at hthis
        cases hthis
      · rw [hrunning] at hruns
        cases hruns
  · exact Or.inl hrunning

/-- However a task ends, its worker is free for the task that is held. -/
theorem frees (h : j.Sound n) {t : τ} (hruns : t ∈ j.pool.running) (fails : Bool) :
    (j.step (.finish t fails)).pool.running.length + 1 = j.pool.running.length
      ∧ (j.pool.held.isSome = true → (j.step (.finish t fails)).pool.start?.isSome = true) := by
  have hlen : (j.pool.running.erase t).length + 1 = j.pool.running.length :=
    List.length_erase_add_one hruns
  have hbound := h.bound
  have hworkers := h.workers
  simp only [step, hruns, if_true, Pool.finish]
  refine ⟨hlen, fun hheld => Pool.start?_isSome hheld ?_⟩
  simp only
  omega

end Sound

/-- **The tasks of a pool.** Whatever happens to a pool, in whatever order,
no more tasks run than it has workers. Tasks are started once at most and in
the order they were accepted, and a refused task never is. What is told of
an accepted task is that it came to its end, that it failed, or that it was
cancelled, exactly if it did, or was given up before it was started because
the grace was over; this is never taken back, and it is open only while the
task is still to be started or runs. The pool does not get stuck before
that: a task that ends frees its worker, whether it fails or not. -/
theorem pool_safety {workers depth : Nat} {p : Pool τ}
    (made : Pool.create? workers depth = some p) (moves : List (Move τ)) :
    let j := ({ pool := p } : Journal τ).run moves
    j.pool.running.length ≤ max 1 (min workers 10000)
      ∧ j.started.Nodup ∧ j.started <+: j.accepted
      ∧ (∀ t ∈ j.refused, t ∉ j.accepted ∧ t ∉ j.started)
      ∧ (∀ t ∈ j.abandoned, t ∈ j.accepted ∧ t ∉ j.started ∧ j.pool.phase = .expired)
      ∧ (∀ t ∈ j.accepted,
          (j.handle? t = some .completed ↔ (t, .completed) ∈ j.ended)
            ∧ (j.handle? t = some .failed ↔ (t, .failed) ∈ j.ended)
            ∧ (j.handle? t = some .cancelled ↔ t ∈ j.abandoned)
            ∧ (j.handle? t = none ↔
                t ∈ j.pool.queue ∨ j.pool.held = some t ∨ t ∈ j.pool.running)
            ∧ (∀ o, j.handle? t = some o → ∀ later, (j.run later).handle? t = some o)
            ∧ (j.handle? t = none → j.pool.running ≠ [] ∨ j.pool.take?.isSome = true
                ∨ j.pool.start?.isSome = true))
      ∧ ∀ t ∈ j.pool.running, ∀ fails,
          (j.step (.finish t fails)).pool.running.length + 1 = j.pool.running.length
            ∧ (j.pool.held.isSome = true →
                (j.step (.finish t fails)).pool.start?.isSome = true) := by
  intro j
  have h : j.Sound (max 1 (min workers 10000)) := (Sound.start made).run moves
  have hstarted := h.started_prefix
  refine ⟨h.bound, hstarted.sublist.nodup h.nodup_accepted, hstarted, ?_, ?_, ?_, ?_⟩
  · intro t ht
    have hnot := h.not_mem_accepted (Or.inl ht)
    exact ⟨hnot, fun hs => hnot (hstarted.subset hs)⟩
  · intro t ht
    have haccepted : t ∈ j.accepted := by
      rw [h.order]
      simp [ht]
    refine ⟨haccepted, fun hs => ?_, ?_⟩
    · rcases h.handle?_cases haccepted with ⟨-, -, hnot, -⟩ | ⟨-, hnot, -⟩ | ⟨hended, -, hout, -⟩
      · exact hnot ht
      · exact hnot ht
      · rcases List.mem_append.mp (h.underway.mem_iff.mpr hs) with hruns | hends
        · exact hout (Or.inr (Or.inr (Or.inr hruns)))
        · exact hended hends
    · by_contra hphase
      rw [h.given_up hphase] at ht
      cases ht
  · intro t ht
    have htold : ∀ o, o ≠ .cancelled → (j.handle? t = some o ↔ (t, o) ∈ j.ended) := fun o ho => by
      rw [h.handle?_eq_some ht, or_iff_left fun hor => ho hor.1]
    refine ⟨htold _ nofun, htold _ nofun, ?_, h.handle?_eq_none ht,
      fun o ho later => h.handle?_run ht ho later, h.progress (by omega) ht⟩
    rw [h.handle?_eq_some ht, or_iff_right fun hx => h.ran _ hx rfl, and_iff_right rfl]
  · exact fun t hruns fails => h.frees hruns fails

/-- The only worker of a pool and the only place of its queue. -/
def soleWorker : Pool Nat := { workers := 1, depth := 1 }

/-- The first task fails, the second comes to its end, and the others are
given up with the pool. -/
theorem pool_safety_closing :
    let j := ({ pool := soleWorker } : Journal Nat).run
      [.trySubmit 0, .take, .start, .trySubmit 1, .take, .trySubmit 2, .submit 3, .trySubmit 4,
        .finish 0 true, .start, .take, .accept 0, .shutdown, .expire, .finish 1 false]
    j.pool.running.length ≤ 1 ∧ j.handle? 0 = some .failed ∧ j.handle? 1 = some .completed
      ∧ j.handle? 2 = some .cancelled ∧ j.handle? 3 = some .cancelled ∧ 4 ∉ j.started := by
  intro j
  obtain ⟨hbound, -, -, hrefused, -, htold, -⟩ :=
    pool_safety (rfl : Pool.create? 1 1 = some soleWorker)
      [.trySubmit 0, .take, .start, .trySubmit 1, .take, .trySubmit 2, .submit 3, .trySubmit 4,
        .finish 0 true, .start, .take, .accept 0, .shutdown, .expire, .finish 1 false]
  have hfirst : j.handle? 0 = some .failed :=
    (htold 0 (by decide +kernel)).2.1.mpr (by decide +kernel)
  have hsecond : j.handle? 1 = some .completed :=
    (htold 1 (by decide +kernel)).1.mpr (by decide +kernel)
  have hthird : j.handle? 2 = some .cancelled :=
    (htold 2 (by decide +kernel)).2.2.1.mpr (by decide +kernel)
  have hfourth : j.handle? 3 = some .cancelled :=
    (htold 3 (by decide +kernel)).2.2.1.mpr (by decide +kernel)
  exact ⟨hbound, hfirst, hsecond, hthird, hfourth, (hrefused 4 (by decide +kernel)).2⟩

end Journal

end CallAudit.Workers
