/-
CallAudit.Proofs.Store.Counting — jobs that are counted in two ways.

The enqueuer is told how many jobs a rule has, at whatever state. A gauge is
told how many jobs of a rule are queued, in progress and done, and adds this
up over the rules that have any. A row at a fourth state would be counted in
the one way and not in the other. No operation leaves such a row behind
(`staged_of_run`), so both counts are of the same rows.

* `Tally.of` — how many of some rows are at each state.
* `Counts.tallyOf` — what is reported of a rule: nothing if it has no entry.
* `countsByRule_ascending`, `mem_countsByRule` — one entry for each rule that
  has jobs, in the order of their numbers.
* `total_countsByRule` — the entries add up to the whole table.
* `counts_agree` — after every run the enqueuer and the gauge go by the same
  numbers.
-/
import CallAudit.Gauge
import CallAudit.Proofs.Store.Dealing
import CallAudit.Proofs.Store.Lifecycle
import Mathlib.Algebra.BigOperators.Ring.Finset

namespace CallAudit

namespace Store

/-! ## Tallies of rows -/

/-- How many of some rows are at each state. -/
def Tally.of (rows : List Row) : Tally where
  queued := rows.countP (·.state = Progress.queued.tag)
  inProgress := rows.countP (·.state = Progress.inProgress.tag)
  done := rows.countP (·.state = Progress.done.tag)

/-- How many jobs are in a tally. -/
def Tally.size (t : Tally) : Int :=
  t.queued + t.inProgress + t.done

/-- Rows whose states stand for something are all in their tally. -/
theorem Tally.size_of {rows : List Row} (staged : ∀ j ∈ rows, ∃ p : Progress, j.state = p.tag) :
    (Tally.of rows).size = rows.length := by
  induction rows with
  | nil => rfl
  | cons j rows ih =>
    obtain ⟨⟨p, hp⟩, hrest⟩ := List.forall_mem_cons.mp staged
    have ih := ih hrest
    -- the row counts for its own state alone
    have hcount : ∀ q : Progress, (j :: rows).countP (·.state = q.tag)
        = rows.countP (·.state = q.tag) + if p = q then 1 else 0 := fun q => by
      rw [List.countP_cons, hp]
      cases p <;> cases q <;> rfl
    simp only [size, of, hcount, List.length_cons] at ih ⊢
    cases p <;> simp only [reduceCtorEq, if_true, if_false] <;> omega

theorem size_of_filter {s : Store} (staged : s.Staged) (rule : Int) :
    (Tally.of (s.jobs.filter (·.rule = rule))).size = s.activeOf rule := by
  rw [Tally.size_of fun j hj => staged j (List.mem_filter.mp hj).1, activeOf,
    List.countP_eq_length_filter]

/-! ## Rules that have jobs -/

theorem mem_insertNumber {n m : Int} {rs : List Int} :
    m ∈ insertNumber n rs ↔ m = n ∨ m ∈ rs := by
  induction rs with
  | nil => simp [insertNumber]
  | cons r rs ih =>
    unfold insertNumber
    split
    · simp
    · split
      · rename_i hnr
        simp [hnr]
      · simp only [List.mem_cons, ih]
        exact or_left_comm

theorem insertNumber_ascending {n : Int} {rs : List Int} (h : rs.Pairwise (· < ·)) :
    (insertNumber n rs).Pairwise (· < ·) := by
  induction rs with
  | nil => exact List.pairwise_singleton _ _
  | cons r rs ih =>
    obtain ⟨hr, hrs⟩ := List.pairwise_cons.mp h
    unfold insertNumber
    split
    · rename_i hlt
      refine List.pairwise_cons.mpr ⟨fun m hm => ?_, h⟩
      rcases List.mem_cons.mp hm with rfl | hm
      · exact hlt
      · exact Int.lt_trans hlt (hr m hm)
    · split
      · exact h
      · rename_i hge hne
        refine List.pairwise_cons.mpr ⟨fun m hm => ?_, ih hrs⟩
        rcases mem_insertNumber.mp hm with rfl | hm
        · omega
        · exact hr m hm

theorem mem_rulesWithJobs {s : Store} {rule : Int} :
    rule ∈ s.rulesWithJobs ↔ ∃ j ∈ s.jobs, j.rule = rule := by
  have hfold : ∀ (rows : List Row) (rs : List Int),
      rule ∈ rows.foldl (fun rs j => insertNumber j.rule rs) rs ↔
        rule ∈ rs ∨ ∃ j ∈ rows, j.rule = rule := by
    intro rows
    induction rows with
    | nil => simp
    | cons j rows ih =>
      intro rs
      rw [List.foldl_cons, ih, mem_insertNumber, List.exists_mem_cons_iff, @eq_comm _ rule j.rule]
      exact or_assoc.trans or_left_comm
  rw [rulesWithJobs, hfold]
  simp

theorem rulesWithJobs_ascending (s : Store) : s.rulesWithJobs.Pairwise (· < ·) :=
  List.foldlRecOn (motive := fun rs : List Int => rs.Pairwise (· < ·)) s.jobs
    (fun rs j => insertNumber j.rule rs) List.Pairwise.nil
    fun _ hrs _ _ => insertNumber_ascending hrs

theorem rulesWithJobs_nodup (s : Store) : s.rulesWithJobs.Nodup :=
  s.rulesWithJobs_ascending.imp Int.ne_of_lt

/-! ## Entries -/

/-- What is reported of a rule. -/
def Counts.tallyOf (cs : List Counts) (rule : Int) : Tally :=
  ((cs.find? (·.rule = rule)).map (·.tally)).getD {}

theorem countAt_eq (s : Store) (rule : Int) (p : Progress) :
    s.countAt rule p = (s.jobs.filter (·.rule = rule)).countP (·.state = p.tag) := by
  rw [countAt, List.countP_filter]
  simp only [Bool.and_comm]

/-- An entry is the tally of the rows of its rule. -/
theorem countsByRule_eq (s : Store) :
    s.countsByRule
      = s.rulesWithJobs.map fun rule => ⟨rule, Tally.of (s.jobs.filter (·.rule = rule))⟩ := by
  simp only [countsByRule, countAt_eq, Tally.of]

theorem rules_countsByRule (s : Store) : s.countsByRule.map (·.rule) = s.rulesWithJobs := by
  rw [countsByRule, List.map_map]
  exact List.map_id _

theorem countsByRule_ascending (s : Store) :
    (s.countsByRule.map (·.rule)).Pairwise (· < ·) := by
  rw [rules_countsByRule]
  exact s.rulesWithJobs_ascending

theorem mem_countsByRule {s : Store} {rule : Int} :
    rule ∈ s.countsByRule.map (·.rule) ↔ ∃ j ∈ s.jobs, j.rule = rule := by
  rw [rules_countsByRule]
  exact mem_rulesWithJobs

/-- What is reported of a rule is the tally of its rows, whether or not it
has an entry. -/
theorem tallyOf_countsByRule (s : Store) (rule : Int) :
    Counts.tallyOf s.countsByRule rule = Tally.of (s.jobs.filter (·.rule = rule)) := by
  have distinct : (s.countsByRule.map (·.rule)).Nodup := by
    rw [rules_countsByRule]
    exact s.rulesWithJobs_nodup
  by_cases hrule : rule ∈ s.rulesWithJobs
  · have hentry : s.countsByRule.find? (·.rule = rule)
        = some ⟨rule, Tally.of (s.jobs.filter (·.rule = rule))⟩ := by
      refine (find?_key distinct).mpr ⟨?_, rfl⟩
      rw [countsByRule_eq]
      exact List.mem_map_of_mem hrule
    rw [Counts.tallyOf, hentry]
    rfl
  · have hnone : s.countsByRule.find? (·.rule = rule) = none := by
      refine List.find?_eq_none.mpr fun e he heq => hrule ?_
      rw [← rules_countsByRule, ← of_decide_eq_true heq]
      exact List.mem_map_of_mem he
    have hrows : s.jobs.filter (·.rule = rule) = [] :=
      List.filter_eq_nil_iff.mpr fun j hj heq =>
        hrule (mem_rulesWithJobs.mpr ⟨j, hj, of_decide_eq_true heq⟩)
    rw [Counts.tallyOf, hnone, hrows]
    rfl

/-! ## The whole table -/

/-- Adding up goes state by state. -/
theorem total_eq (cs : List Counts) :
    Counts.total cs = ⟨(cs.map (·.tally.queued)).sum, (cs.map (·.tally.inProgress)).sum,
      (cs.map (·.tally.done)).sum⟩ := by
  have hfold : ∀ (cs : List Counts) (t : Tally), cs.foldl (fun t c => t.add c.tally) t
      = ⟨t.queued + (cs.map (·.tally.queued)).sum, t.inProgress + (cs.map (·.tally.inProgress)).sum,
          t.done + (cs.map (·.tally.done)).sum⟩ := by
    intro cs
    induction cs with
    | nil => simp
    | cons c cs ih =>
      intro t
      rw [List.foldl_cons, ih]
      simp [Tally.add, Int.add_assoc]
  rw [Counts.total, hfold]
  simp

/-- The rows at a state, counted rule by rule. -/
theorem sum_countAt (s : Store) (p : Progress) :
    (s.rulesWithJobs.map fun rule => s.countAt rule p).sum = s.jobs.countP (·.state = p.tag) := by
  have hcovered : ∀ j ∈ s.jobs, j.rule ∈ s.rulesWithJobs := fun j hj =>
    mem_rulesWithJobs.mpr ⟨j, hj, rfl⟩
  have hsum := sum_countP_key (·.rule) (fun j : Row => j.state = p.tag) s.rulesWithJobs_nodup
    hcovered
  rw [← hsum, Nat.cast_list_sum, List.map_map]
  rfl

/-- The entries add up to the whole table. -/
theorem total_countsByRule (s : Store) : Counts.total s.countsByRule = Tally.of s.jobs := by
  have hsum := s.sum_countAt
  simp only [total_eq, countsByRule, List.map_map, Function.comp_def, hsum, Tally.of]

end Store

/-! ## Whole runs -/

namespace Connection

open Store

/-- After a run from an empty jobs table all states stand for something. -/
theorem staged_of_run {c : Connection} (empty : c.store.jobs = []) (ops : List Operation) :
    (ops.foldl perform c).store.Staged := by
  have hstart : c.store.Staged := by simp [Staged, empty]
  exact List.foldlRecOn (motive := fun d : Connection => d.store.Staged) ops perform hstart
    fun d hd op _ => hd.effect (d.perform_effect op)

/-- A reading of the gauge is of the store behind the connection. -/
theorem read_gauge {τ : Type} {c : Connection} {guard : Guard} {pool : Workers.Pool τ}
    {gauge : Gauge} (h : Gauge.read c guard pool = .ok gauge) :
    gauge.perRule = c.store.countsByRule ∧ gauge.total = Counts.total c.store.countsByRule := by
  rcases c.carry_cases fun s => (s, s.countsByRule) with ⟨hanswer, -⟩ | ⟨t, hanswer, -⟩ <;>
    simp only [Gauge.read, countsByRule, ask, hanswer] at h
  · obtain rfl := Except.ok.inj h
    exact ⟨rfl, rfl⟩
  · cases h

/-- **Counts agree.** After every run from an empty jobs table the enqueuer
is told of a rule what is reported of it, and gives it room by that. There is
one entry for each rule that has rows, in the order of the numbers of the
rules, and it is the tally of these rows. Together the entries are the tally
of the table, in which every row is counted, and this is what the gauge
shows. -/
theorem counts_agree {c : Connection} (empty : c.store.jobs = []) (ops : List Operation) :
    let after := ops.foldl perform c
    let s := after.store
    let reported := Counts.tallyOf s.countsByRule
    (∀ most r, r ∈ s.runnable most ↔ ∃ e ∈ s.rules, e.enabled = true
        ∧ (reported e.id).size < most ∧ r = e.view (reported e.id).size)
      ∧ (∀ most, ∀ r ∈ s.runnable most, r.active = (reported r.id).size
          ∧ ∀ ceiling, r.headroom ceiling = max 0 (ceiling - (reported r.id).size))
      ∧ (s.countsByRule.map (·.rule)).Pairwise (· < ·)
      ∧ (∀ rule, rule ∈ s.countsByRule.map (·.rule) ↔ ∃ j ∈ s.jobs, j.rule = rule)
      ∧ (∀ rule, reported rule = Tally.of (s.jobs.filter (·.rule = rule)))
      ∧ Counts.total s.countsByRule = Tally.of s.jobs
      ∧ (Tally.of s.jobs).size = s.jobs.length
      ∧ ∀ (τ : Type) (guard : Guard) (pool : Workers.Pool τ) (gauge : Gauge),
          Gauge.read after guard pool = .ok gauge →
            gauge.perRule = s.countsByRule ∧ gauge.total = Tally.of s.jobs := by
  intro after s reported
  have staged : s.Staged := staged_of_run empty ops
  have hactive : ∀ rule, (s.activeOf rule : Int) = (reported rule).size := fun rule => by
    rw [show reported rule = _ from s.tallyOf_countsByRule rule, size_of_filter staged]
  have hlisted : ∀ most r, r ∈ s.runnable most ↔ ∃ e ∈ s.rules, e.enabled = true
      ∧ (reported e.id).size < most ∧ r = e.view (reported e.id).size := fun most r => by
    simp only [mem_runnable_iff, hactive]
  refine ⟨hlisted, fun most r hr => ?_, s.countsByRule_ascending, fun _ => mem_countsByRule,
    s.tallyOf_countsByRule, s.total_countsByRule, Tally.size_of staged, ?_⟩
  · obtain ⟨e, -, -, -, rfl⟩ := (hlisted most r).mp hr
    exact ⟨rfl, fun _ => rfl⟩
  · intro τ guard pool gauge h
    obtain ⟨hentries, htotal⟩ := read_gauge h
    exact ⟨hentries, htotal.trans s.total_countsByRule⟩

/-- A job that is done and waits to be reaped is reported as done, and its
rule has no room for another one under a ceiling of one. -/
theorem counts_agree_unreaped :
    let start : Connection := { store := oneCall }
    let s := ([.enqueueAll 5, .claim 1, .markDone 1].foldl perform start).store
    start.store.jobs = []
      ∧ s.countsByRule = [⟨1, ⟨0, 0, 1⟩⟩]
      ∧ (s.runnable 9223372036854775807).map (·.id) = [1]
      ∧ (∀ r ∈ s.runnable 9223372036854775807, r.active = 1 ∧ r.headroom 1 = 0)
      ∧ Counts.total s.countsByRule = Tally.of s.jobs ∧ (Tally.of s.jobs).size = 1 := by
  intro start s
  obtain ⟨-, hroom, -, -, -, htotal, hsize, -⟩ :=
    counts_agree (c := start) rfl [.enqueueAll 5, .claim 1, .markDone 1]
  have hentries : s.countsByRule = [⟨1, ⟨0, 0, 1⟩⟩] := by decide +kernel
  have hlisted : (s.runnable 9223372036854775807).map (·.id) = [1] := by decide +kernel
  refine ⟨rfl, hentries, hlisted, fun r hr => ?_, htotal, hsize.trans (by decide +kernel)⟩
  have hid : r.id = 1 := List.mem_singleton.mp (hlisted ▸ List.mem_map_of_mem hr)
  have hreported : (Counts.tallyOf s.countsByRule r.id).size = 1 := by
    rw [hentries, hid]
    rfl
  obtain ⟨hactive, hheadroom⟩ := hroom _ r hr
  exact ⟨hactive.trans hreported, by rw [hheadroom, hreported]; rfl⟩

end Connection

end CallAudit
