/-
CallAudit.Proofs.Store.Draining — rounds of work drain every store.

A round gives jobs to the rules, hands all of them out and marks them done,
and reaps them. Its rows are gone at its end, so nothing of the jobs table
tells one round from the next, and a call that a limit has cut off is met
again in the following round, unless a watermark has passed it by then.

* `round`, `rounds` — a round, and so many of them.
* `due`, `dues` — the calls an enabled rule wants, and all pairs of such a
  rule and such a call. Their number is the measure: a round that inserts
  anything moves a watermark to a call that was due or past it.
* `Drained` — what rounds make of a store: watermarks have moved, each to
  the newest of some calls that were due at first.
* `drains` — how many rounds insert anything, and what is left after them.
-/
import CallAudit.Proofs.Store.Dealing
import CallAudit.Proofs.Store.Reaping
import Mathlib.Algebra.GroupWithZero.Nat
import Mathlib.Algebra.Order.BigOperators.Group.List

namespace CallAudit

open CallAudit.Time (Instant)

/-! ## Rounds -/

namespace Store

/-- The number of jobs that wait to be handed out. -/
def waiting (s : Store) : Nat :=
  s.jobs.countP fun j => j.state = Progress.queued.tag

theorem countP_claimRows (n : Nat) (rows : List Row) :
    (claimRows n rows).1.countP (fun j => j.state = Progress.queued.tag)
      + (claimRows n rows).2.length = rows.countP fun j => j.state = Progress.queued.tag := by
  fun_induction claimRows n rows with
  | case1 rows => rfl
  | case2 n => rfl
  | case3 n i rest hqueued rows taken heq i' ih =>
    rw [heq] at ih
    have hstate : ¬ i'.state = Progress.queued.tag := show ¬ Progress.inProgress.tag = _ by decide
    simp only [List.countP_cons, hstate, hqueued, decide_false, decide_true, Bool.false_eq_true,
      if_true, if_false, List.length_cons] at ih ⊢
    omega
  | case4 n i rest hother rows taken heq ih =>
    rw [heq] at ih
    simp only [List.countP_cons, hother, decide_false, Bool.false_eq_true, if_false] at ih ⊢
    exact ih

/-- Those that are handed out no longer wait. -/
theorem waiting_claim (s : Store) (batch : Int) :
    (s.claim batch).1.waiting + (s.claim batch).2.length = s.waiting := by
  have hrows := countP_claimRows (max 1 batch).toNat s.jobs
  simp only [waiting, claim, List.length_map]
  exact hrows

theorem waiting_markDone (s : Store) (job : Int) : (s.markDone job).1.waiting = s.waiting := by
  simp only [waiting, markDone, List.countP_map]
  refine List.countP_congr fun j _ => ?_
  show decide ((if isInProgress job j then { j with state := Progress.done.tag } else j).state
      = Progress.queued.tag) = true ↔ _
  split
  · rename_i hprog
    rw [(isInProgress_iff.mp hprog).2]
    show decide (Progress.done.tag = Progress.queued.tag) = true ↔ _
    decide
  · exact Iff.rfl

/-- Nothing is handed out only where nothing waits. -/
theorem not_queued_of_claimRows {n : Nat} (hn : 0 < n) {rows : List Row}
    (h : (claimRows n rows).2 = []) : ∀ j ∈ rows, j.state ≠ Progress.queued.tag := by
  fun_induction claimRows n rows with
  | case1 rows => omega
  | case2 n => simp
  | case3 n i rest hqueued rows taken heq i' ih => cases h
  | case4 n i rest hother rows taken heq ih =>
    rw [heq] at ih
    exact List.forall_mem_cons.mpr ⟨hother, ih hn h⟩

end Store

namespace Connection

open Store

/-- Jobs are marked done, one after the other. -/
def markAll (c : Connection) (jobs : List Job) : Connection :=
  jobs.foldl (fun c j => (c.markDone j.id).2) c

theorem waiting_markAll (c : Connection) (jobs : List Job) :
    (c.markAll jobs).store.waiting = c.store.waiting := by
  induction jobs generalizing c with
  | nil => rfl
  | cons j rest ih =>
    have hmark : (c.markDone j.id).2.store.waiting = c.store.waiting := by
      rcases c.markDone_cases j.id with ⟨-, hs⟩ | ⟨-, -, hs⟩ <;> rw [hs]
      exact c.store.waiting_markDone j.id
    exact (ih _).trans hmark

theorem claim_eq_ok {c c' : Connection} {batch : Int} {jobs : List Job}
    (h : c.claim batch = (.ok jobs, c')) :
    (c.store.claim batch).2 = jobs ∧ c'.store = (c.store.claim batch).1 := by
  unfold claim carry at h
  split at h
  · cases h
  · simp only [Prod.mk.injEq, Except.ok.injEq] at h
    obtain ⟨rfl, rfl⟩ := h
    exact ⟨rfl, rfl⟩

/-- With each batch that is marked done fewer jobs wait. -/
theorem waiting_markAll_lt {c c' : Connection} {batch : Int} {j : Job} {rest : List Job}
    (h : c.claim batch = (.ok (j :: rest), c')) :
    (c'.markAll (j :: rest)).store.waiting < c.store.waiting := by
  obtain ⟨hjobs, hstore⟩ := claim_eq_ok h
  have hwaiting := c.store.waiting_claim batch
  rw [hjobs, List.length_cons] at hwaiting
  rw [waiting_markAll, hstore]
  omega

/-- Jobs are handed out and marked done, until none is handed out any
more. -/
def workOff (batch : Int) (c : Connection) : Connection :=
  match hclaim : c.claim batch with
  | (.ok (j :: rest), c') =>
    have := waiting_markAll_lt hclaim
    workOff batch (c'.markAll (j :: rest))
  | (_, c') => c'
termination_by c.store.waiting

/-- A round: jobs are given to the rules, worked off and reaped. -/
def round (ceiling batch : Int) (c : Connection) : Connection :=
  ((c.enqueueAll ceiling).2.workOff batch).reap.2

/-- So many rounds. -/
def rounds (ceiling batch : Int) (c : Connection) : Nat → Connection
  | 0 => c
  | n + 1 => (rounds ceiling batch c n).round ceiling batch

/-! ## Working off -/

theorem markDone_healthy (s : Store) (job : Int) :
    (Connection.markDone { store := s } job).2 = { store := (s.markDone job).1 } := by
  simp [Connection.markDone, isKept, carry]

/-- Of the rows that were in progress those of the jobs are done. -/
theorem markAll_healthy (s : Store) (jobs : List Job) :
    ∃ rows, ({ store := s } : Connection).markAll jobs = { store := { s with jobs := rows } }
      ∧ rows.map Row.bare = s.jobs.map Row.bare
      ∧ ∀ j ∈ rows, isDone j = true
          ∨ (j ∈ s.jobs ∧ ∀ k ∈ jobs, isInProgress k.id j = false) := by
  induction jobs generalizing s with
  | nil => exact ⟨s.jobs, rfl, rfl, fun j hj => Or.inr ⟨hj, by simp⟩⟩
  | cons k rest ih =>
    obtain ⟨rows, hmark, hbare, hrows⟩ := ih (s.markDone k.id).1
    refine ⟨rows, ?_, hbare.trans (s.markDone_bare k.id), fun j hj => ?_⟩
    · rw [markAll, List.foldl_cons, markDone_healthy]
      exact hmark
    · rcases hrows j hj with hdone | ⟨hj, hrest⟩
      · exact Or.inl hdone
      · obtain ⟨i, hi, rfl⟩ := List.mem_map.mp hj
        by_cases hprog : isInProgress k.id i = true
        · rw [if_pos hprog]
          exact Or.inl rfl
        · rw [if_neg hprog] at hrest ⊢
          exact Or.inr ⟨hi, List.forall_mem_cons.mpr ⟨Bool.eq_false_iff.mpr hprog, hrest⟩⟩

theorem workOff_eq (batch : Int) (s : Store) :
    workOff batch { store := s }
      = if (s.claim batch).2 = [] then { store := (s.claim batch).1 }
        else workOff batch (({ store := (s.claim batch).1 } : Connection).markAll
          (s.claim batch).2) := by
  have hok : Connection.claim { store := s } batch
      = (.ok (s.claim batch).2, { store := (s.claim batch).1 }) := rfl
  rw [workOff]
  split
  · rename_i j rest c' hclaim
    obtain ⟨hjobs, rfl⟩ := Prod.mk.inj (hok.symm.trans hclaim)
    rw [Except.ok.inj hjobs, if_neg (List.cons_ne_nil j rest)]
  · rename_i answer c' hnone hclaim
    obtain ⟨rfl, rfl⟩ := Prod.mk.inj (hok.symm.trans hclaim)
    rw [if_pos]
    cases hjobs : (s.claim batch).2 with
    | nil => rfl
    | cons j rest => exact (hnone j rest (congrArg Except.ok hjobs)).elim

/-- Where every job waits or is done, all are done when they were worked
off. -/
theorem workOff_healthy (batch : Int) (s : Store)
    (idle : ∀ j ∈ s.jobs, j.state = Progress.queued.tag ∨ isDone j = true) :
    ∃ rows, workOff batch { store := s } = { store := { s with jobs := rows } }
      ∧ rows.map Row.bare = s.jobs.map Row.bare ∧ ∀ j ∈ rows, isDone j = true := by
  induction hn : s.waiting using Nat.strongRecOn generalizing s with
  | ind n ih =>
    have hbare := s.claim_bare batch
    rw [workOff_eq]
    by_cases hjobs : (s.claim batch).2 = []
    · have htaken : (claimRows (max 1 batch).toNat s.jobs).2 = [] := List.map_eq_nil_iff.mp hjobs
      rw [if_pos hjobs]
      refine ⟨(s.claim batch).1.jobs, rfl, hbare, fun j hj => ?_⟩
      rcases mem_or_of_mem_claimRows _ _ j hj with hold | hnew
      · exact (idle j hold).resolve_left (not_queued_of_claimRows (by omega) htaken j hold)
      · rw [htaken] at hnew
        cases hnew
    · obtain ⟨rows, hmark, hmarked, hrows⟩ := markAll_healthy (s.claim batch).1 (s.claim batch).2
      have hidle : ∀ j ∈ rows, j.state = Progress.queued.tag ∨ isDone j = true := by
        intro j hj
        rcases hrows j hj with hdone | ⟨hj, hnot⟩
        · exact Or.inr hdone
        · rcases mem_or_of_mem_claimRows _ _ j hj with hold | hnew
          · exact idle j hold
          · -- a row that was handed out was among those that were marked
            have hprog : isInProgress j.id j = true :=
              isInProgress_iff.mpr ⟨rfl, (mem_claimRows_snd _ _ j hnew).2.1⟩
            have hnone : isInProgress j.id j = false :=
              hnot (j.job .inProgress) (List.mem_map_of_mem hnew)
            rw [hnone] at hprog
            cases hprog
      have hless : ({ s with jobs := rows } : Store).waiting < n := by
        have hwaiting := s.waiting_claim batch
        have hsame := waiting_markAll { store := (s.claim batch).1 } (s.claim batch).2
        have hpos := List.length_pos_iff.mpr hjobs
        rw [hmark] at hsame
        have hrows : ({ s with jobs := rows } : Store).waiting = (s.claim batch).1.waiting := hsame
        omega
      obtain ⟨rows', hoff, hbare', hdone⟩ := ih _ hless { s with jobs := rows } hidle rfl
      refine ⟨rows', ?_, hbare'.trans (hmarked.trans hbare), hdone⟩
      rw [if_neg hjobs, hmark]
      exact hoff

end Connection

/-! ## What is due -/

namespace RuleEntry

/-- A rule whose watermark has become the newest of the one it had and of
times after the point it resumed from resumes no earlier, and not before any
of these times. -/
theorem resumeAt_marked {e : RuleEntry} {ts : List Instant} {w : Option Instant}
    (h : Store.Newest (e.watermark.toList ++ ts) w) (after : ∀ t ∈ ts, e.resumeAt < t) :
    e.resumeAt ≤ (e.marked w).resumeAt ∧ ∀ t ∈ ts, t ≤ (e.marked w).resumeAt := by
  cases w with
  | none =>
    obtain ⟨hnone, rfl⟩ := List.append_eq_nil_iff.mp h
    have hwatermark : e.watermark = none := by simpa using hnone
    constructor
    · rw [resumeAt, hwatermark]
      exact Int.le_refl _
    · simp
  | some x =>
    constructor
    · cases hwatermark : e.watermark with
      | some y =>
        rw [resumeAt, hwatermark]
        exact h.2 y (List.mem_append_left ts (by simp [hwatermark]))
      | none =>
        have hx : x ∈ ts := by simpa [hwatermark] using h.1
        exact Instant.le_of_lt (after x hx)
    · exact fun t ht => h.2 t (List.mem_append_right _ ht)

end RuleEntry

namespace Store

/-- The calls that a rule is to be given jobs for: those that it wants, if it
is enabled. -/
def due (s : Store) (e : RuleEntry) : List Call :=
  if e.enabled then s.calls.filter (s.eligible (e.view (s.activeOf e.id))) else []

/-- The rules with the calls that they are to be given jobs for. -/
def dues (s : Store) : List (RuleEntry × Call) :=
  s.rules.flatMap fun e => (s.due e).map fun c => (e, c)

/-- The times of the calls that a rule is to be given jobs for. -/
def dueTimes (s : Store) (e : RuleEntry) : List Instant :=
  (s.due e).filterMap (·.storedAt)

/-- Without jobs, the calls that are due to a rule are those of its backlog. -/
theorem mem_due {s : Store} (empty : s.jobs = []) {e : RuleEntry} {c : Call} :
    c ∈ s.due e ↔ e.enabled = true ∧ ∃ w ∈ s.backlog (e.view 0), w.call = c := by
  rw [due, activeOf_of_empty empty]
  split
  · rename_i hen
    simp only [List.mem_filter, hen, true_and, mem_backlog]
    constructor
    · rintro ⟨hc, heligible⟩
      obtain ⟨w, hw⟩ := Option.isSome_iff_exists.mp heligible
      exact ⟨w, ⟨c, hc, hw⟩, (wanted?_eq_some.mp hw).1⟩
    · rintro ⟨w, ⟨d, hd, hw⟩, rfl⟩
      obtain rfl := (wanted?_eq_some.mp hw).1
      exact ⟨hd, Option.isSome_of_eq_some hw⟩
  · rename_i hen
    simp [hen]

/-- Without jobs, a rule wants the calls that pass its filters, have a
recording and were stored after the point it resumes from. -/
theorem eligible_iff_of_empty {s : Store} (empty : s.jobs = []) {e : RuleEntry} {n : Int}
    {c : Call} :
    s.eligible (e.view n) c = true ↔ (s.recordingOf? c).isSome = true
      ∧ passes (e.view 0) c = true ∧ ∃ t, c.storedAt = some t ∧ e.resumeAt < t := by
  have hno : s.hasJob e.id c.id = false := by simp [hasJob, empty]
  rw [eligible, Option.isSome_iff_exists]
  constructor
  · rintro ⟨w, hw⟩
    obtain ⟨-, hst, hrec, hpass, hlt, -⟩ := wanted?_eq_some.mp hw
    exact ⟨by rw [hrec]; rfl, hpass, w.storedAt, hst, hlt⟩
  · rintro ⟨hrec, hpass, t, hst, hlt⟩
    obtain ⟨f, hf⟩ := Option.isSome_iff_exists.mp hrec
    exact ⟨⟨c, t, f⟩, wanted?_eq_some.mpr ⟨rfl, hst, hf, hpass, hlt, hno⟩⟩

theorem lt_of_mem_dueTimes {s : Store} (empty : s.jobs = []) {e : RuleEntry} {t : Instant}
    (h : t ∈ s.dueTimes e) : e.resumeAt < t := by
  obtain ⟨c, hc, ht⟩ := List.mem_filterMap.mp h
  obtain ⟨-, w, hw, rfl⟩ := (mem_due empty).mp hc
  obtain ⟨-, hwanted⟩ := wanted_of_mem_backlog hw
  obtain ⟨-, hst, -, -, hlt, -⟩ := wanted?_eq_some.mp hwanted
  rwa [Option.some.inj (ht.symm.trans hst)]

/-- When a watermark has moved on, what is still due to its rule are the
calls it has not passed. -/
theorem due_marked {s s' : Store} (empty : s.jobs = []) (empty' : s'.jobs = [])
    (hcalls : s'.calls = s.calls) (hrecs : s'.recordings = s.recordings) {e : RuleEntry}
    {w : Option Instant} (hle : e.resumeAt ≤ (e.marked w).resumeAt) :
    s'.due (e.marked w)
      = (s.due e).filter fun c => c.storedAt.any ((e.marked w).resumeAt < ·) := by
  unfold due
  show (if e.enabled then _ else _) = _
  split
  · rw [List.filter_filter, hcalls]
    refine List.filter_congr fun c _ => ?_
    rw [Bool.eq_iff_iff, Bool.and_eq_true, eligible_iff_of_empty empty',
      eligible_iff_of_empty empty, recordingOf?, hrecs, ← recordingOf?]
    constructor
    · rintro ⟨hrec, hpass, t, ht, hlt⟩
      exact ⟨by simp [ht, hlt], hrec, hpass, t, ht, Instant.lt_of_le_of_lt hle hlt⟩
    · rintro ⟨hahead, hrec, hpass, t, ht, -⟩
      exact ⟨hrec, hpass, t, ht, by simpa [ht] using hahead⟩
  · rfl

theorem dues_eq_nil {s : Store} : s.dues = [] ↔ ∀ e ∈ s.rules, s.due e = [] := by
  simp [dues]

theorem length_dues (s : Store) : s.dues.length = (s.rules.map fun e => (s.due e).length).sum := by
  simp [dues, List.length_flatMap]

/-! ## What a pass takes of it -/

/-- What is chosen for an enabled rule is due to it. -/
theorem due_of_mem_chosen {s : Store} (empty : s.jobs = []) {e : RuleEntry}
    (hen : e.enabled = true) {limit : Int} {w : Wanted} (hw : w ∈ s.chosen (e.view 0) limit) :
    w.call ∈ s.due e ∧ w.call.storedAt = some w.storedAt := by
  have hback := mem_backlog_of_mem_chosen hw
  obtain ⟨-, hwanted⟩ := wanted_of_mem_backlog hback
  obtain ⟨-, hst, -⟩ := wanted?_eq_some.mp hwanted
  exact ⟨(mem_due empty).mpr ⟨hen, w, hback, rfl⟩, hst⟩

/-- Of a rule that calls are due to at least one is chosen. -/
theorem exists_mem_chosen {s : Store} (empty : s.jobs = []) {e : RuleEntry} (hdue : s.due e ≠ [])
    {limit : Int} (positive : 1 ≤ limit) :
    e.enabled = true ∧ ∃ w, w ∈ s.chosen (e.view 0) limit := by
  obtain ⟨c, hc⟩ := List.exists_mem_of_ne_nil _ hdue
  obtain ⟨hen, w, hw, -⟩ := (mem_due empty).mp hc
  refine ⟨hen, List.exists_mem_of_ne_nil _ ?_⟩
  rw [chosen, ne_eq, List.take_eq_nil_iff, not_or]
  exact ⟨by omega, List.ne_nil_of_mem hw⟩

/-- A pass inserts something exactly if something is due. -/
theorem arrivals_ne_nil_iff {s : Store} (keys : s.Keyed) (empty : s.jobs = []) {ceiling : Int}
    (positive : 1 ≤ ceiling) :
    s.arrivals (Connection.enqueueAll { store := s } ceiling).2.store ≠ [] ↔ s.dues ≠ [] := by
  rw [arrivals_of_empty empty, ne_eq, ne_eq, dues_eq_nil, List.eq_nil_iff_forall_not_mem]
  refine not_congr ⟨fun hnone e he => ?_, fun hnone j hj => ?_⟩
  · by_contra hdue
    obtain ⟨hen, w, hw⟩ := exists_mem_chosen empty hdue positive
    obtain ⟨j, hj, -⟩ :=
      (rows_enqueueAll_of_empty keys empty positive).mpr ⟨e, he, hen, w, hw, rfl, rfl⟩
    exact hnone j hj
  · obtain ⟨e, he, hen, w, hw, -⟩ :=
      (rows_enqueueAll_of_empty keys empty positive).mp ⟨j, hj, rfl, rfl⟩
    have hmem := (due_of_mem_chosen empty hen hw).1
    rw [hnone e he] at hmem
    cases hmem

/-- What a pass over `s` and the work on its jobs come to, before anything is
reaped: the jobs in `v` are those of the pass, and all of them are done. -/
structure WorkedOff (ceiling : Int) (s v : Store) : Prop where
  frame : v = { s with jobs := v.jobs, nextJob := v.nextJob }
  done : ∀ j ∈ v.jobs, isDone j = true
  times : ∀ e ∈ s.rules, ∀ t, t ∈ v.doneTimes e.id ↔
    e.enabled = true ∧ ∃ w ∈ s.chosen (e.view 0) ceiling, w.storedAt = t

/-- What becomes of a store without jobs in a round. -/
theorem exists_workedOff {s : Store} (keys : s.Keyed) (empty : s.jobs = []) {ceiling : Int}
    (positive : 1 ≤ ceiling) (batch : Int) :
    ∃ v, WorkedOff ceiling s v
      ∧ Connection.round ceiling batch { store := s } = { store := v.reap.1 } := by
  have hpass := s.enqueueAll_eq_deal ceiling
  have hrows := @rows_enqueueAll_of_empty s keys empty ceiling positive
  have hqueued := queued_enqueueAll_of_empty empty ceiling
  rw [hpass] at hrows hqueued
  generalize hu : deal ceiling (s.runnable ceiling) s = u at hpass hrows hqueued
  obtain ⟨rows, hoff, hbare, hdone⟩ :=
    Connection.workOff_healthy batch u fun j hj => Or.inl (hqueued j hj)
  refine ⟨{ u with jobs := rows }, ⟨?_, hdone, ?_⟩, ?_⟩
  · rw [← hu, deal_eq_append]
  · intro e he t
    rw [mem_doneTimes]
    constructor
    · rintro ⟨j, hj, -, hrule, rfl⟩
      obtain ⟨i, hi, hij⟩ := exists_of_bare hbare hj
      obtain ⟨d, hd, hen, w, hw, hsub, ht⟩ := hrows.mp ⟨i, hi, rfl, rfl⟩
      have hid : d.id = e.id :=
        (congrArg Prod.fst (hsub.trans (Row.subject_eq_of_bare hij))).trans hrule
      obtain rfl := keys.rule_eq hd he hid
      exact ⟨hen, w, hw, ht.trans (Row.storedAt_eq_of_bare hij)⟩
    · rintro ⟨hen, w, hw, rfl⟩
      obtain ⟨i, hi, hsub, ht⟩ := hrows.mpr ⟨e, he, hen, w, hw, rfl, rfl⟩
      obtain ⟨j, hj, hji⟩ : ∃ j ∈ rows, j.bare = i.bare :=
        List.mem_map.mp (hbare ▸ List.mem_map_of_mem hi)
      refine ⟨j, hj, hdone j hj, ?_, (Row.storedAt_eq_of_bare hji).trans ht⟩
      exact congrArg Prod.fst ((Row.subject_eq_of_bare hji).trans hsub)
  · rw [Connection.round, hpass, hoff]
    rfl

/-! ## What rounds make of a store -/

/-- What rounds make of a store without jobs: the watermarks have moved, each
to the newest of itself and of times that were due at first. -/
structure Drained (s s' : Store) : Prop where
  frame : s' = { s with rules := s'.rules, nextJob := s'.nextJob }
  rules : ∃ mark : RuleEntry → Option Instant, s'.rules = s.rules.map (fun e => e.marked (mark e))
    ∧ ∀ e ∈ s.rules, ∃ handled, (∀ t ∈ handled, t ∈ s.dueTimes e)
        ∧ Newest (e.watermark.toList ++ handled) (mark e)

namespace Drained

variable {s s' s'' : Store}

theorem empty (h : Drained s s') (empty : s.jobs = []) : s'.jobs = [] := by
  rw [h.frame]
  exact empty

theorem keyed (h : Drained s s') (keys : s.Keyed) : s'.Keyed := by
  obtain ⟨mark, hrules, -⟩ := h.rules
  refine ⟨?_, by rw [h.frame]; exact keys.calls⟩
  rw [hrules, List.map_map]
  exact keys.rules

theorem refl (s : Store) : Drained s s := by
  refine ⟨rfl, (·.watermark), (List.map_id _).symm, fun e _ => ⟨[], by simp, ?_⟩⟩
  rw [List.append_nil]
  exact newest_toList e.watermark

/-- What is due to a rule later was due to it before. -/
theorem due_marked (h : Drained s s') (empty : s.jobs = []) {e : RuleEntry}
    {w : Option Instant} (hle : e.resumeAt ≤ (e.marked w).resumeAt) :
    s'.due (e.marked w)
      = (s.due e).filter fun c => c.storedAt.any ((e.marked w).resumeAt < ·) :=
  Store.due_marked empty (h.empty empty) (by rw [h.frame]) (by rw [h.frame]) hle

theorem trans (empty : s.jobs = []) (h : Drained s s') (h' : Drained s' s'') : Drained s s'' := by
  obtain ⟨mark, hrules, hmark⟩ := h.rules
  obtain ⟨mark', hrules', hmark'⟩ := h'.rules
  refine ⟨by rw [h'.frame, h.frame], fun e => mark' (e.marked (mark e)), ?_, fun e he => ?_⟩
  · rw [hrules', hrules, List.map_map]
    rfl
  · obtain ⟨handled, hdue, hnewest⟩ := hmark e he
    obtain ⟨handled', hdue', hnewest'⟩ :=
      hmark' (e.marked (mark e)) (hrules ▸ List.mem_map_of_mem he)
    have hle := (RuleEntry.resumeAt_marked hnewest fun t ht =>
      lt_of_mem_dueTimes empty (hdue t ht)).1
    refine ⟨handled ++ handled', fun t ht => ?_, ?_⟩
    · rcases List.mem_append.mp ht with ht | ht
      · exact hdue t ht
      · obtain ⟨c, hc, hct⟩ := List.mem_filterMap.mp (hdue' t ht)
        rw [h.due_marked empty hle] at hc
        exact List.mem_filterMap.mpr ⟨c, (List.mem_filter.mp hc).1, hct⟩
    · rw [← List.append_assoc]
      exact hnewest.append hnewest'

/-- When nothing is due any more, every watermark stands at the newest of
itself and of all times that were due at first. -/
theorem newest (h : Drained s s') (empty : s.jobs = []) (idle : s'.dues = []) :
    ∃ mark : RuleEntry → Option Instant, s'.rules = s.rules.map (fun e => e.marked (mark e))
      ∧ ∀ e ∈ s.rules, Newest (e.watermark.toList ++ s.dueTimes e) (mark e) := by
  obtain ⟨mark, hrules, hmark⟩ := h.rules
  refine ⟨mark, hrules, fun e he => ?_⟩
  obtain ⟨handled, hdue, hnewest⟩ := hmark e he
  have hle := (RuleEntry.resumeAt_marked hnewest fun t ht =>
    lt_of_mem_dueTimes empty (hdue t ht)).1
  -- no call that was due is ahead of the rule now
  have hpassed : ∀ t ∈ s.dueTimes e, t ≤ (e.marked (mark e)).resumeAt := by
    intro t ht
    obtain ⟨c, hc, hct⟩ := List.mem_filterMap.mp ht
    have hnone := dues_eq_nil.mp idle _ (hrules ▸ List.mem_map_of_mem he)
    rw [h.due_marked empty hle, List.filter_eq_nil_iff] at hnone
    refine Instant.not_lt_iff_le.mp fun hlt => hnone c hc ?_
    simp [hct, hlt]
  refine hnewest.of_cover (fun t ht => ?_) (fun t ht => ?_)
  · rcases List.mem_append.mp ht with ht | ht
    · exact List.mem_append_left _ ht
    · exact List.mem_append_right _ (hdue t ht)
  · rcases List.mem_append.mp ht with ht | ht
    · exact ⟨t, List.mem_append_left _ ht, Int.le_refl _⟩
    · cases hw : mark e with
      | some x =>
        rw [hw] at hnewest
        have hpast := hpassed t ht
        rw [hw] at hpast
        exact ⟨x, hnewest.1, hpast⟩
      | none =>
        -- a rule that still has no watermark resumes where it did
        rw [hw] at hnewest
        have hnone : e.watermark = none := by
          simpa using (List.append_eq_nil_iff.mp hnewest).1
        have hpast := hpassed t ht
        have hstart : (e.marked none).resumeAt = e.resumeAt := by
          rw [RuleEntry.resumeAt, RuleEntry.resumeAt, hnone]
          rfl
        rw [hw, hstart] at hpast
        exact absurd (lt_of_mem_dueTimes empty ht) (Instant.not_lt_iff_le.mpr hpast)

end Drained

/-! ## One round -/

namespace WorkedOff

variable {ceiling : Int} {s v : Store}

theorem reap_rules_eq (h : WorkedOff ceiling s v) :
    v.reap.1.rules = s.rules.map fun e => e.marked (v.movedMark e.id e.watermark) := by
  rw [reap_rules, h.frame]
  rfl

/-- What was done of a rule was due to it. -/
theorem due_of_mem_doneTimes (h : WorkedOff ceiling s v) (empty : s.jobs = []) {e : RuleEntry}
    (he : e ∈ s.rules) : ∀ t ∈ v.doneTimes e.id, t ∈ s.dueTimes e := by
  intro t ht
  obtain ⟨hen, w, hw, rfl⟩ := (h.times e he t).mp ht
  obtain ⟨hdue, hst⟩ := due_of_mem_chosen empty hen hw
  exact List.mem_filterMap.mpr ⟨w.call, hdue, hst⟩

/-- A rule resumes no earlier than before, and not before what was done of
it. -/
theorem resumeAt (h : WorkedOff ceiling s v) (empty : s.jobs = []) {e : RuleEntry}
    (he : e ∈ s.rules) :
    e.resumeAt ≤ (e.marked (v.movedMark e.id e.watermark)).resumeAt
      ∧ ∀ t ∈ v.doneTimes e.id, t ≤ (e.marked (v.movedMark e.id e.watermark)).resumeAt :=
  RuleEntry.resumeAt_marked (v.newest_movedMark e.id e.watermark) fun t ht =>
    lt_of_mem_dueTimes empty (h.due_of_mem_doneTimes empty he t ht)

theorem drained (h : WorkedOff ceiling s v) (empty : s.jobs = []) : Drained s v.reap.1 where
  frame := by
    have hjobs : v.reap.1.jobs = [] := by
      refine List.filter_eq_nil_iff.mpr fun j hj => ?_
      simp [h.done j hj]
    have hv : v.reap.1
        = { v with rules := v.reap.1.rules, jobs := v.reap.1.jobs } := rfl
    rw [hv, hjobs, ← empty, h.frame]
  rules := ⟨fun e => v.movedMark e.id e.watermark, h.reap_rules_eq, fun e he =>
    ⟨v.doneTimes e.id, h.due_of_mem_doneTimes empty he, v.newest_movedMark e.id e.watermark⟩⟩

/-- What is due to a rule after the round. -/
theorem due_reap (h : WorkedOff ceiling s v) (empty : s.jobs = []) {e : RuleEntry}
    (he : e ∈ s.rules) :
    v.reap.1.due (e.marked (v.movedMark e.id e.watermark)) = (s.due e).filter fun c =>
      c.storedAt.any ((e.marked (v.movedMark e.id e.watermark)).resumeAt < ·) :=
  (h.drained empty).due_marked empty (h.resumeAt empty he).1

/-- Where nothing is due, nothing is due after the round. -/
theorem dues_reap_of_nil (h : WorkedOff ceiling s v) (empty : s.jobs = []) (idle : s.dues = []) :
    v.reap.1.dues = [] := by
  rw [dues_eq_nil, h.reap_rules_eq]
  intro d hd
  obtain ⟨e, he, rfl⟩ := List.mem_map.mp hd
  rw [h.due_reap empty he, dues_eq_nil.mp idle e he, List.filter_nil]

/-- Where something is due, less is due after the round: the rule has passed
at least one of its calls. -/
theorem length_dues_reap_lt (h : WorkedOff ceiling s v) (empty : s.jobs = [])
    (positive : 1 ≤ ceiling) (hdues : s.dues ≠ []) :
    v.reap.1.dues.length < s.dues.length := by
  rw [length_dues, length_dues, h.reap_rules_eq, List.map_map]
  refine List.sum_lt_sum _ _ (fun e he => ?_) ?_
  · show (v.reap.1.due (e.marked _)).length ≤ _
    rw [h.due_reap empty he]
    exact List.length_filter_le _ _
  · obtain ⟨e, he, hdue⟩ : ∃ e ∈ s.rules, s.due e ≠ [] := by
      by_contra hnone
      exact hdues (dues_eq_nil.mpr fun e he => by_contra fun hdue => hnone ⟨e, he, hdue⟩)
    obtain ⟨hen, w, hw⟩ := exists_mem_chosen empty hdue positive
    obtain ⟨hmem, hst⟩ := due_of_mem_chosen empty hen hw
    have hpast := (h.resumeAt empty he).2 w.storedAt ((h.times e he _).mpr ⟨hen, w, hw, rfl⟩)
    refine ⟨e, he, ?_⟩
    show (v.reap.1.due (e.marked _)).length < _
    rw [h.due_reap empty he, List.length_filter_lt_length_iff_exists]
    refine ⟨w.call, hmem, ?_⟩
    simp only [hst, Option.any_some, decide_eq_true_eq]
    exact Instant.not_lt_iff_le.mpr hpast

end WorkedOff

/-! ## Many rounds -/

/-- A number that falls until it is zero and stays there is positive for a
first part of the time, which is no longer than the number at first. -/
theorem exists_forall_ne_zero_iff_lt {f : Nat → Nat} (falls : ∀ n, f n ≠ 0 → f (n + 1) < f n)
    (stays : ∀ n, f n = 0 → f (n + 1) = 0) : ∃ m ≤ f 0, ∀ n, f n ≠ 0 ↔ n < m := by
  induction hk : f 0 using Nat.strongRecOn generalizing f with
  | ind k ih =>
    by_cases hzero : f 0 = 0
    · have hall : ∀ n, f n = 0 := by
        intro n
        induction n with
        | zero => exact hzero
        | succ n ihn => exact stays n ihn
      exact ⟨0, Nat.zero_le k, fun n => by simp [hall n]⟩
    · obtain ⟨m, hm, hiff⟩ := ih (f 1) (hk ▸ falls 0 hzero)
        (fun n => falls (n + 1)) (fun n => stays (n + 1)) rfl
      have hlt : f 1 < f 0 := falls 0 hzero
      refine ⟨m + 1, by omega, fun n => ?_⟩
      cases n with
      | zero => simp [hzero]
      | succ n => rw [hiff n, Nat.succ_lt_succ_iff]

/-- Rounds are made of rounds, each from a store without jobs. -/
theorem rounds_drained {s : Store} (keys : s.Keyed) (empty : s.jobs = []) {ceiling : Int}
    (positive : 1 ≤ ceiling) (batch : Int) (n : Nat) :
    ∃ s' v, Connection.rounds ceiling batch { store := s } n = { store := s' } ∧ Drained s s'
      ∧ WorkedOff ceiling s' v
      ∧ Connection.rounds ceiling batch { store := s } (n + 1) = { store := v.reap.1 } := by
  induction n with
  | zero =>
    obtain ⟨v, hv, hround⟩ := exists_workedOff keys empty positive batch
    exact ⟨s, v, rfl, .refl s, hv, hround⟩
  | succ n ih =>
    obtain ⟨s', v, -, hdrained, hv, hnext⟩ := ih
    have hdrained' := hdrained.trans empty (hv.drained (hdrained.empty empty))
    obtain ⟨v', hv', hround⟩ :=
      exists_workedOff (hdrained'.keyed keys) (hdrained'.empty empty) positive batch
    exact ⟨v.reap.1, v', hnext, hdrained', hv', by rw [Connection.rounds, hnext, hround]⟩

/-- **Draining.** From a store without jobs on, the rounds that insert
anything are the first ones, and no more of them than there are pairs of an
enabled rule and a call due to it at the start. After them there are no jobs
and nothing is due to any rule. The rules are what they were, but for their
watermarks, and each of these is the newest of what it was and of the times
of the calls that were due to the rule at the start. -/
theorem drains {s : Store} (keys : s.Keyed) (empty : s.jobs = []) {ceiling : Int}
    (positive : 1 ≤ ceiling) (batch : Int) :
    ∃ m ≤ s.dues.length, ∀ n,
      let c := Connection.rounds ceiling batch { store := s } n
      (c.store.arrivals (c.enqueueAll ceiling).2.store ≠ [] ↔ n < m)
        ∧ (m ≤ n → c.store.jobs = [] ∧ c.store.dues = []
            ∧ ∃ mark : RuleEntry → Option Instant,
                c.store.rules = s.rules.map (fun e => e.marked (mark e))
                  ∧ ∀ e ∈ s.rules, Newest (e.watermark.toList ++ s.dueTimes e) (mark e)) := by
  let left (n : Nat) : Nat := (Connection.rounds ceiling batch { store := s } n).store.dues.length
  obtain ⟨m, hm, hleft⟩ : ∃ m ≤ left 0, ∀ n, left n ≠ 0 ↔ n < m := by
    refine exists_forall_ne_zero_iff_lt (fun n hn => ?_) (fun n hn => ?_) <;>
      obtain ⟨s', v, hnow, hdrained, hv, hnext⟩ := rounds_drained keys empty positive batch n <;>
      simp only [left, hnow, hnext, ne_eq, List.length_eq_zero_iff] at hn ⊢
    · exact hv.length_dues_reap_lt (hdrained.empty empty) positive hn
    · exact hv.dues_reap_of_nil (hdrained.empty empty) hn
  refine ⟨m, hm, fun n => ?_⟩
  obtain ⟨s', v, hnow, hdrained, -⟩ := rounds_drained keys empty positive batch n
  have hdues : s'.dues ≠ [] ↔ n < m := by
    rw [← hleft n]
    simp only [left, hnow, ne_eq, List.length_eq_zero_iff]
  simp only [hnow]
  constructor
  · rw [arrivals_ne_nil_iff (hdrained.keyed keys) (hdrained.empty empty) positive]
    exact hdues
  · intro hmn
    have hidle : s'.dues = [] := not_not.mp (hdues.not.mpr (by omega))
    exact ⟨hdrained.empty empty, hidle, hdrained.newest empty hidle⟩

/-- Two calls that were stored at the same time, and one that was stored
later. -/
def tied : Store :=
  { twoCalls with
    calls := [olderCall, { olderCall with id := "twin" }, newerCall]
    recordings := [⟨1, 1, "older"⟩, ⟨2, 1, "newer"⟩, ⟨3, 1, "twin"⟩] }

/-- With room for one job in a round, three calls are due and no more than
three rounds insert anything. The watermark ends at the newest. -/
theorem drains_tied : tied.Keyed ∧ tied.dues.length = 3 ∧ ∃ m ≤ 3, ∀ n, m ≤ n →
    (Connection.rounds 1 0 { store := tied } n).store.jobs = []
      ∧ (Connection.rounds 1 0 { store := tied } n).store.rules.map (·.watermark)
          = [some ⟨20⟩] := by
  have hkeys : tied.Keyed := ⟨by decide, by decide⟩
  have hdues : tied.dues.length = 3 := by decide +kernel
  have htimes : tied.dueTimes soleRule = [⟨10⟩, ⟨10⟩, ⟨20⟩] := by decide +kernel
  obtain ⟨m, hm, hrounds⟩ := drains hkeys rfl (show (1 : Int) ≤ 1 by decide) 0
  refine ⟨hkeys, hdues, m, hdues ▸ hm, fun n hn => ?_⟩
  obtain ⟨hjobs, -, mark, hrules, hmark⟩ := (hrounds n).2 hn
  refine ⟨hjobs, ?_⟩
  have hnewest := hmark soleRule (List.mem_singleton_self soleRule)
  rw [htimes] at hnewest
  have htwenty : Newest [⟨10⟩, ⟨10⟩, ⟨20⟩] (some ⟨20⟩) := ⟨by decide, by decide⟩
  rw [hrules, ← hnewest.unique htwenty]
  rfl

end Store

end CallAudit
