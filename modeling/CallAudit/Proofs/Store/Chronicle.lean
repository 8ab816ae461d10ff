/-
CallAudit.Proofs.Store.Chronicle — a store over a run of operations.

* `Operation`, `Connection.perform` — what can be done to a store, and how
  its troubles come and go. Whatever an operation answers, only the store
  it leaves behind is looked at here.
* `Chronicle` — a connection with two lists that nothing reads: the rows
  that were inserted and the rows that reaping removed. They are told from
  the store before and after each operation (`arrivals`, `departures`), not
  from what the operation says of itself.
* `Enqueued` — the stores that giving jobs to some of a list of rules can
  lead to. `enqueueAll_enqueued` says that a whole pass over the rules, with
  every way a rule can fail in it, is such a path, so what each single
  statement keeps, a pass keeps.
* `Effect`, `perform_effect` — everything an operation can do to the store
  behind a connection, however it ends. Every proof about runs goes by its
  cases.
* `claim_bare`, `markDone_bare`: handing out and marking done change the
  states of rows and nothing else.
-/
import CallAudit.Proofs.Store.Backlog
import CallAudit.Store.Connection

namespace CallAudit

open CallAudit.Time (Instant)

/-! ## Operations -/

/-- What is done to a store. With `trouble` statements begin to fail or to
succeed again: all of them, or those that touch the jobs of some rules. -/
inductive Operation where
  | enqueueAll (ceiling : Int)
  | claim (batch : Int)
  | markDone (job : Int)
  | release (job : Int)
  | reap
  | discardAll
  | trouble (closed : Bool) (noInsert noRetire : List Int)
deriving DecidableEq, Repr

/-- Whether an operation can remove jobs that are not done. -/
def Operation.drops : Operation → Bool
  | release _ | discardAll => true
  | _ => false

namespace Connection

/-- The connection after an operation. -/
def perform (c : Connection) : Operation → Connection
  | .enqueueAll ceiling => (c.enqueueAll ceiling).2
  | .claim batch => (c.claim batch).2
  | .markDone job => (c.markDone job).2
  | .release job => (c.release job).2
  | .reap => c.reap.2
  | .discardAll => c.discardAll.2
  | .trouble closed noInsert noRetire => { c with closed, noInsert, noRetire }

end Connection

namespace Store

/-- The rows of a store that were not in the one before it. -/
def arrivals (before after : Store) : List Row :=
  after.jobs.filter fun j => !before.jobs.any fun k => k.id = j.id

/-- The rows of a store that are no longer in the one after it. -/
def departures (before after : Store) : List Row :=
  before.jobs.filter fun j => !after.jobs.any fun k => k.id = j.id

end Store

/-- A connection with what has happened to the rows behind it. -/
structure Chronicle where
  connection : Connection
  /-- The rows that were inserted, in the order of their insertion. -/
  inserted : List Row := []
  /-- The rows that were removed by reaping. -/
  reaped : List Row := []

namespace Chronicle

/-- The store at the end of a chronicle. -/
abbrev store (h : Chronicle) : Store :=
  h.connection.store

/-- The chronicle after one more operation. -/
def next (h : Chronicle) (op : Operation) : Chronicle :=
  let after := h.connection.perform op
  { connection := after
    inserted := h.inserted ++ h.store.arrivals after.store
    reaped := h.reaped ++ if op = .reap then h.store.departures after.store else [] }

/-- The chronicle of a run of operations from a connection on. -/
def of (c : Connection) (ops : List Operation) : Chronicle :=
  ops.foldl next { connection := c }

/-- What holds at the start and is kept by every operation of a run holds
at its end. -/
theorem of_induction {motive : Chronicle → Prop} {c : Connection} {ops : List Operation}
    (start : motive { connection := c })
    (step : ∀ h, ∀ op ∈ ops, motive h → motive (h.next op)) : motive (of c ops) :=
  List.foldlRecOn ops next start fun h hh op hop => step h op hop hh

/-- The lists of rows do not play a part in what is done. -/
theorem connection_of (c : Connection) (ops : List Operation) :
    (of c ops).connection = ops.foldl Connection.perform c :=
  (List.foldl_hom connection fun _ _ => rfl).symm

end Chronicle

/-! ## A pass over the rules -/

namespace Store

/-- The stores that can be reached by giving jobs to rules of a list. A
statement that fails may use up a number. -/
inductive Enqueued (rules : List Rule) (s : Store) : Store → Prop where
  | start : Enqueued rules s s
  | jobs {s' : Store} (r : Rule) (limit : Int) :
      Enqueued rules s s' → r ∈ rules → Enqueued rules s (s'.enqueueFor r limit).1
  | number {s' : Store} :
      Enqueued rules s s' → Enqueued rules s { s' with nextJob := s'.nextJob + 1 }

theorem mem_runnable {s : Store} {ceiling : Int} {r : Rule} (h : r ∈ s.runnable ceiling) :
    ∃ e ∈ s.rules, e.enabled = true ∧ r = e.view (s.activeOf e.id) := by
  simp only [runnable, List.mem_mergeSort, List.mem_filter, List.mem_map] at h
  obtain ⟨⟨e, ⟨he, hen⟩, rfl⟩, -⟩ := h
  exact ⟨e, he, hen, rfl⟩

end Store

namespace Connection

/-- A statement is carried out, or the store stays as it was. -/
theorem carry_store {α : Type} (c : Connection) (statement : Store → Store × α) :
    (c.carry statement).2.store = c.store
      ∨ (c.carry statement).2.store = (statement c.store).1 := by
  unfold carry
  split
  · exact Or.inl rfl
  · exact Or.inr rfl

/-- A statement is carried out and answered, or it fails and changes
nothing. -/
theorem carry_cases {α : Type} (c : Connection) (statement : Store → Store × α) :
    ((c.carry statement).1 = .ok (statement c.store).2
        ∧ (c.carry statement).2.store = (statement c.store).1)
      ∨ ∃ t, (c.carry statement).1 = .error t ∧ (c.carry statement).2.store = c.store := by
  unfold carry
  split
  · exact Or.inr ⟨_, rfl, rfl⟩
  · exact Or.inl ⟨rfl, rfl⟩

theorem markDone_cases (c : Connection) (job : Int) :
    ((c.markDone job).1 = .ok (c.store.markDone job).2
        ∧ (c.markDone job).2.store = (c.store.markDone job).1)
      ∨ ∃ t, (c.markDone job).1 = .error t ∧ (c.markDone job).2.store = c.store := by
  unfold markDone
  split
  · exact Or.inr ⟨_, rfl, rfl⟩
  · exact c.carry_cases _

theorem release_cases (c : Connection) (job : Int) :
    ((c.release job).1 = .ok (c.store.release job).2
        ∧ (c.release job).2.store = (c.store.release job).1)
      ∨ ∃ t, (c.release job).1 = .error t ∧ (c.release job).2.store = c.store := by
  unfold release
  split
  · exact Or.inr ⟨_, rfl, rfl⟩
  · exact c.carry_cases _

theorem enqueueFor_store (c : Connection) (r : Rule) (limit : Int) :
    (c.enqueueFor r limit).2.store = c.store
      ∨ (c.enqueueFor r limit).2.store = { c.store with nextJob := c.store.nextJob + 1 }
      ∨ (c.enqueueFor r limit).2.store = (c.store.enqueueFor r limit).1 := by
  unfold enqueueFor
  split
  · exact Or.inl rfl
  · split
    · exact Or.inl rfl
    · split
      · exact Or.inr (Or.inl rfl)
      · rcases c.carry_store fun s => s.enqueueFor r limit with h | h
        · exact Or.inl h
        · exact Or.inr (Or.inr h)

/-- A pass over the rules gives jobs to some of the rules it listed, whether
or not it is carried through and whichever of them fail. -/
theorem enqueueAll_enqueued (c : Connection) (ceiling : Int) :
    Store.Enqueued (c.store.runnable ceiling) c.store (c.enqueueAll ceiling).2.store := by
  simp only [enqueueAll, runnable, ask, carry]
  split
  · rename_i hclosed
    split at hclosed <;> simp only [Prod.mk.injEq, reduceCtorEq, false_and] at hclosed
    obtain ⟨-, rfl⟩ := hclosed
    exact .start
  · rename_i rules c' hopen
    split at hopen <;> simp only [Prod.mk.injEq, reduceCtorEq, Except.ok.injEq, false_and]
      at hopen
    obtain ⟨rfl, rfl⟩ := hopen
    refine List.foldlRecOn
      (motive := fun acc : Store.Pass × Connection =>
        Store.Enqueued (c.store.runnable ceiling) c.store acc.2.store) _ _ .start ?_
    rintro ⟨p, c'⟩ hacc r hr
    have hstep : Store.Enqueued (c.store.runnable ceiling) c.store
        (c'.enqueueFor r (r.headroom ceiling)).2.store := by
      rcases c'.enqueueFor_store r (r.headroom ceiling) with h | h | h <;> rw [h]
      · exact hacc
      · exact .number hacc
      · exact .jobs r _ hacc hr
    simp only
    split <;> (rename_i h; rw [h] at hstep; exact hstep)

end Connection

/-! ## What an operation can do -/

/-- The stores that an operation can leave behind. Whatever it is, it may
fail and leave the store as it was. -/
inductive Store.Effect (s : Store) : Operation → Store → Prop where
  | fails (op : Operation) : Effect s op s
  | pass {ceiling : Int} {s' : Store} :
      Enqueued (s.runnable ceiling) s s' → Effect s (.enqueueAll ceiling) s'
  | claim (batch : Int) : Effect s (.claim batch) (s.claim batch).1
  | markDone (job : Int) : Effect s (.markDone job) (s.markDone job).1
  | release (job : Int) : Effect s (.release job) (s.release job).1
  | reap : Effect s .reap s.reap.1
  | discardAll : Effect s .discardAll s.discardAll

namespace Connection

theorem carry_effect {α : Type} (c : Connection) (statement : Store → Store × α)
    {op : Operation} (h : c.store.Effect op (statement c.store).1) :
    c.store.Effect op (c.carry statement).2.store := by
  rcases c.carry_store statement with hs | hs <;> rw [hs]
  · exact .fails op
  · exact h

theorem perform_effect (c : Connection) : ∀ op : Operation,
    c.store.Effect op (c.perform op).store
  | .enqueueAll ceiling => .pass (c.enqueueAll_enqueued ceiling)
  | .claim batch => c.carry_effect _ (.claim batch)
  | .markDone job => by
    simp only [perform, Connection.markDone]
    split
    · exact .fails _
    · exact c.carry_effect _ (.markDone job)
  | .release job => by
    simp only [perform, Connection.release]
    split
    · exact .fails _
    · exact c.carry_effect _ (.release job)
  | .reap => c.carry_effect _ .reap
  | .discardAll => c.carry_effect _ .discardAll
  | .trouble closed noInsert noRetire => .fails _

end Connection

/-! ## Changes of state -/

namespace Store

theorem claimRows_bare : ∀ (n : Nat) (rows : List Row),
    (claimRows n rows).1.map Row.bare = rows.map Row.bare
  | 0, rows => by simp [claimRows]
  | _ + 1, [] => by simp [claimRows]
  | n + 1, j :: rest => by
      unfold claimRows
      split
      · simp only [List.map_cons, claimRows_bare n rest]
        rfl
      · simp only [List.map_cons, claimRows_bare (n + 1) rest]

/-- A row that is handed out was queued and is in progress. -/
theorem mem_claimRows_snd (n : Nat) (rows : List Row) : ∀ j ∈ (claimRows n rows).2,
    j ∈ (claimRows n rows).1 ∧ j.state = Progress.inProgress.tag
      ∧ ∃ k ∈ rows, k.state = Progress.queued.tag ∧ k.bare = j.bare := by
  fun_induction claimRows n rows with
  | case1 rows => simp
  | case2 n => simp
  | case3 n i rest hqueued rows taken heq i' ih =>
    rw [heq] at ih
    intro j hj
    rcases List.mem_cons.mp hj with rfl | hj
    · exact ⟨List.mem_cons_self, rfl, i, List.mem_cons_self, hqueued, rfl⟩
    · obtain ⟨hrow, hstate, k, hk, hk'⟩ := ih j hj
      exact ⟨List.mem_cons_of_mem _ hrow, hstate, k, List.mem_cons_of_mem _ hk, hk'⟩
  | case4 n i rest hother rows taken heq ih =>
    rw [heq] at ih
    intro j hj
    obtain ⟨hrow, hstate, k, hk, hk'⟩ := ih j hj
    exact ⟨List.mem_cons_of_mem _ hrow, hstate, k, List.mem_cons_of_mem _ hk, hk'⟩

/-- Every other row stays as it is. -/
theorem mem_or_of_mem_claimRows (n : Nat) (rows : List Row) : ∀ j ∈ (claimRows n rows).1,
    j ∈ rows ∨ j ∈ (claimRows n rows).2 := by
  fun_induction claimRows n rows with
  | case1 rows => exact fun j hj => Or.inl hj
  | case2 n => simp
  | case3 n i rest hqueued rows taken heq i' ih =>
    rw [heq] at ih
    intro j hj
    rcases List.mem_cons.mp hj with rfl | hj
    · exact Or.inr List.mem_cons_self
    · exact (ih j hj).imp (List.mem_cons_of_mem _) (List.mem_cons_of_mem _)
  | case4 n i rest hother rows taken heq ih =>
    rw [heq] at ih
    intro j hj
    rcases List.mem_cons.mp hj with rfl | hj
    · exact Or.inl List.mem_cons_self
    · exact (ih j hj).imp_left (List.mem_cons_of_mem _)

theorem mem_claimRows_of_ne (n : Nat) (rows : List Row) : ∀ j ∈ rows,
    j.state ≠ Progress.queued.tag → j ∈ (claimRows n rows).1 := by
  fun_induction claimRows n rows with
  | case1 rows => exact fun j hj _ => hj
  | case2 n => simp
  | case3 n i rest hqueued rows taken heq i' ih =>
    rw [heq] at ih
    intro j hj hne
    rcases List.mem_cons.mp hj with rfl | hj
    · exact absurd hqueued hne
    · exact List.mem_cons_of_mem _ (ih j hj hne)
  | case4 n i rest hother rows taken heq ih =>
    rw [heq] at ih
    intro j hj hne
    rcases List.mem_cons.mp hj with rfl | hj
    · exact List.mem_cons_self
    · exact List.mem_cons_of_mem _ (ih j hj hne)

theorem claimRows_snd_sublist (n : Nat) (rows : List Row) :
    ((claimRows n rows).2.map (·.id)).Sublist (rows.map (·.id)) := by
  fun_induction claimRows n rows with
  | case1 rows => exact List.nil_sublist _
  | case2 n => exact List.nil_sublist _
  | case3 n i rest hqueued rows taken heq i' ih =>
    rw [heq] at ih
    exact ih.cons_cons _
  | case4 n i rest hother rows taken heq ih =>
    rw [heq] at ih
    exact ih.cons _

/-- Handing jobs out makes no job done. -/
theorem done_of_claimRows (n : Nat) (rows : List Row) : ∀ j ∈ (claimRows n rows).1,
    isDone j = true → ∃ k ∈ rows, k.id = j.id ∧ isDone k = true := by
  intro j hj hdone
  rcases mem_or_of_mem_claimRows n rows j hj with hold | hnew
  · exact ⟨j, hold, rfl, hdone⟩
  · rw [isDone, (mem_claimRows_snd n rows j hnew).2.1] at hdone
    cases hdone

/-- Handing jobs out leaves the rows whose jobs are done as they are. -/
theorem mem_claimRows_of_done (n : Nat) (rows : List Row) : ∀ j ∈ rows,
    isDone j = true → j ∈ (claimRows n rows).1 := by
  intro j hj hdone
  refine mem_claimRows_of_ne n rows j hj fun hqueued => ?_
  rw [isDone, hqueued] at hdone
  cases hdone

theorem mem_claim_of_done {s : Store} {batch : Int} {j : Row} (hj : j ∈ s.jobs)
    (hdone : isDone j = true) : j ∈ (s.claim batch).1.jobs :=
  mem_claimRows_of_done _ s.jobs j hj hdone

/-- A job that is done is not in progress. -/
theorem not_isInProgress_of_done {job : Int} {j : Row} (hdone : isDone j = true) :
    isInProgress job j = false := by
  have hstate : j.state = Progress.done.tag := by simpa [isDone] using hdone
  rw [isInProgress, hstate]
  simp [Progress.tag]

theorem mem_markDone_of_done {s : Store} {job : Int} {j : Row} (hj : j ∈ s.jobs)
    (hdone : isDone j = true) : j ∈ (s.markDone job).1.jobs := by
  refine List.mem_map.mpr ⟨j, hj, ?_⟩
  simp only [not_isInProgress_of_done hdone, Bool.false_eq_true, if_false]

theorem mem_release_of_done {s : Store} {job : Int} {j : Row} (hj : j ∈ s.jobs)
    (hdone : isDone j = true) : j ∈ (s.release job).1.jobs :=
  List.mem_filter.mpr ⟨hj, by simp [not_isInProgress_of_done hdone]⟩

/-- Handing jobs out changes nothing of a row but its state. -/
theorem claim_bare (s : Store) (batch : Int) :
    (s.claim batch).1.jobs.map Row.bare = s.jobs.map Row.bare :=
  claimRows_bare _ s.jobs

/-- Marking a job done changes nothing of a row but its state. -/
theorem markDone_bare (s : Store) (job : Int) :
    (s.markDone job).1.jobs.map Row.bare = s.jobs.map Row.bare := by
  simp only [markDone, List.map_map]
  refine List.map_congr_left fun j _ => ?_
  simp only [Function.comp]
  split <;> rfl

/-- Where only states have changed, every row was there in some state. -/
theorem exists_of_bare {s s' : Store} (hjobs : s'.jobs.map Row.bare = s.jobs.map Row.bare)
    {j : Row} (hj : j ∈ s'.jobs) : ∃ k ∈ s.jobs, k.bare = j.bare :=
  List.mem_map.mp (hjobs ▸ List.mem_map_of_mem hj)

/-- Giving jobs to rules adds queued rows, which have new numbers. -/
theorem Enqueued.mem_jobs {rules : List Rule} {s s' : Store} (h : Enqueued rules s s') :
    s.nextJob ≤ s'.nextJob ∧ (∀ j ∈ s.jobs, j ∈ s'.jobs) ∧ ∀ j ∈ s'.jobs,
      j ∈ s.jobs ∨ (j.state = Progress.queued.tag ∧ s.nextJob ≤ j.id) := by
  induction h with
  | start => exact ⟨Int.le_refl _, fun _ hj => hj, fun _ hj => Or.inl hj⟩
  | @jobs s' r limit _ _ ih =>
    obtain ⟨hnext, hkept, hback⟩ := ih
    rw [enqueueFor_fst]
    refine ⟨by simp only; omega, fun j hj => List.mem_append_left _ (hkept j hj), ?_⟩
    intro j hj
    rcases List.mem_append.mp hj with hj | hj
    · exact hback j hj
    · have hid := (id_newRows hj).1
      exact Or.inr ⟨state_rowsFor r _ _ _ j hj, by omega⟩
  | number _ ih =>
    obtain ⟨hnext, hkept, hback⟩ := ih
    exact ⟨by simp only; omega, hkept, hback⟩

/-! ## Arrivals and departures -/

/-- A row that arrives was not there before. -/
theorem mem_of_arrivals {s s' : Store} {j : Row} (hj : j ∈ s.arrivals s') :
    j ∈ s'.jobs ∧ j ∉ s.jobs := by
  obtain ⟨hmem, hnew⟩ := List.mem_filter.mp hj
  refine ⟨hmem, fun hold => ?_⟩
  simp only [Bool.not_eq_true', List.any_eq_false, decide_eq_true_eq] at hnew
  exact hnew j hold rfl

/-- Where rows were only added, the ones added have arrived. -/
theorem arrivals_append {s s' : Store} {new : List Row} (hjobs : s'.jobs = s.jobs ++ new)
    (hids : (s'.jobs.map (·.id)).Nodup) : s.arrivals s' = new := by
  rw [hjobs, List.map_append] at hids
  have hapart := (List.nodup_append.mp hids).2.2
  simp only [arrivals, hjobs, List.filter_append]
  rw [List.filter_eq_nil_iff.mpr, List.filter_eq_self.mpr, List.nil_append]
  · intro j hj
    simp only [Bool.not_eq_true', List.any_eq_false, decide_eq_true_eq]
    intro k hk
    exact hapart _ (List.mem_map_of_mem hk) _ (List.mem_map_of_mem hj)
  · intro j hj
    simp only [Bool.not_eq_true', Bool.not_eq_false, List.any_eq_true, decide_eq_true_eq]
    exact ⟨j, hj, rfl⟩

/-- Where no number is new, nothing has arrived. -/
theorem arrivals_eq_nil {s s' : Store} (h : ∀ j ∈ s'.jobs, ∃ k ∈ s.jobs, k.id = j.id) :
    s.arrivals s' = [] := by
  simp only [arrivals, List.filter_eq_nil_iff, Bool.not_eq_true', Bool.not_eq_false,
    List.any_eq_true, decide_eq_true_eq]
  exact h

theorem arrivals_eq_nil_of_bare {s s' : Store}
    (hjobs : s'.jobs.map Row.bare = s.jobs.map Row.bare) : s.arrivals s' = [] := by
  refine arrivals_eq_nil fun j hj => ?_
  obtain ⟨k, hk, hkj⟩ := exists_of_bare hjobs hj
  exact ⟨k, hk, Row.id_eq_of_bare hkj⟩

/-- Whether giving jobs to a rule inserts one for a call. -/
def Gives (s : Store) (r : Rule) (limit : Int) (call : String) : Prop :=
  ∃ j ∈ s.arrivals (s.enqueueFor r limit).1, j.subject = (r.id, some call)

instance (s : Store) (r : Rule) (limit : Int) (call : String) :
    Decidable (s.Gives r limit call) :=
  inferInstanceAs (Decidable (∃ j ∈ s.arrivals (s.enqueueFor r limit).1, _))

/-- The calls that are given jobs are those chosen. -/
theorem gives_iff {s : Store} {r : Rule} {limit : Int} {call : String}
    (hids : ((s.enqueueFor r limit).1.jobs.map (·.id)).Nodup) :
    s.Gives r limit call ↔ ∃ w ∈ s.chosen r limit, w.call.id = call := by
  rw [Gives, arrivals_append rfl hids]
  constructor
  · rintro ⟨j, hj, hsub⟩
    obtain ⟨w, hw, hwsub, -⟩ := subject_newRows.mp ⟨j, hj, hsub, rfl⟩
    exact ⟨w, hw, by simpa using hwsub⟩
  · rintro ⟨w, hw, rfl⟩
    obtain ⟨j, hj, hsub, -⟩ := subject_newRows.mpr ⟨w, hw, rfl, rfl⟩
    exact ⟨j, hj, hsub⟩

theorem departures_self (s : Store) : s.departures s = [] := by
  simp only [departures, List.filter_eq_nil_iff, Bool.not_eq_true', Bool.not_eq_false,
    List.any_eq_true, decide_eq_true_eq]
  exact fun j hj => ⟨j, hj, rfl⟩

/-- Reaping removes the jobs that are done and no others. -/
theorem departures_reap {s : Store} (hids : (s.jobs.map (·.id)).Nodup) :
    s.departures s.reap.1 = s.jobs.filter isDone := by
  refine List.filter_congr fun j hj => ?_
  rw [Bool.eq_iff_iff]
  simp only [reap, Bool.not_eq_true', List.any_eq_false, List.mem_filter, decide_eq_true_eq,
    and_imp]
  constructor
  · intro h
    cases hdone : isDone j with
    | true => rfl
    | false => exact absurd rfl (h j hj hdone)
  · intro hdone k hk hlive hid
    have : k = j := List.inj_on_of_nodup_map hids hk hj hid
    rw [this, hdone] at hlive
    cases hlive

end Store

/-- What an operation adds to the rows that were reaped are rows whose jobs
were done. -/
theorem Chronicle.mem_reaped_next {h : Chronicle} (ids : (h.store.jobs.map (·.id)).Nodup)
    {op : Operation} {j : Row} (hj : j ∈ (h.next op).reaped) :
    j ∈ h.reaped ∨ (j ∈ h.store.jobs ∧ Store.isDone j = true) := by
  simp only [next] at hj
  rcases List.mem_append.mp hj with hj | hj
  · exact Or.inl hj
  · split at hj
    · rename_i hop
      subst hop
      rcases h.connection.carry_store Store.reap with hs | hs <;>
        simp only [Connection.perform, Connection.reap, hs] at hj
      · rw [Store.departures_self] at hj
        cases hj
      · rw [Store.departures_reap ids] at hj
        exact Or.inr (List.mem_filter.mp hj)
    · cases hj

end CallAudit
