/-
CallAudit.Proofs.Store.Lifecycle — the life of a job, from the row that is
inserted for it to the end of that row.

* `row?`, `Row.Step` — the row of a number, and everything an operation can
  make of it. `Effect.rowStep` has one case for each operation, and every
  other proof goes by its cases.
* `Numbered` — what runs rely on: rows have numbers of their own, which were
  given, and states that stand for something. It is kept by every effect.
* `Standing` — how far a number is on its way: not given yet, queued, in
  progress, done or gone. It only goes on (`Standing.Next`), so a step that
  is made at one standing and left at a later one is made at most once
  (`countP_trace_le`).
* `Connection.course` — the states of a row, one after the other.
* `job_lifecycle` — the life of every job in every run.
-/
import CallAudit.Proofs.Lists
import CallAudit.Proofs.Store.Books

namespace CallAudit

/-! ## The row of a number -/

/-- Whether with an operation statements begin to fail or to succeed again. -/
def Operation.isTrouble : Operation → Bool
  | trouble .. => true
  | _ => false

namespace Store

/-- The row of a number. -/
def row? (s : Store) (id : Int) : Option Row :=
  s.jobs.find? (·.id = id)

/-- The state that is stored for a number. -/
def stateOf? (s : Store) (id : Int) : Option Int :=
  (s.row? id).map (·.state)

/-- Rows have numbers of their own, which were given. -/
structure Numbered (s : Store) : Prop where
  below : ∀ j ∈ s.jobs, j.id < s.nextJob
  distinct : (s.jobs.map (·.id)).Nodup

/-- The states of rows stand for something. -/
def Staged (s : Store) : Prop :=
  ∀ j ∈ s.jobs, ∃ p : Progress, j.state = p.tag

theorem mem_of_row? {s : Store} {id : Int} {j : Row} (h : s.row? id = some j) :
    j ∈ s.jobs ∧ j.id = id :=
  ⟨List.mem_of_find?_eq_some h, by simpa using List.find?_some h⟩

theorem row?_eq_none {s : Store} {id : Int} : s.row? id = none ↔ ∀ j ∈ s.jobs, j.id ≠ id := by
  simp [row?]

/-- With numbers of their own rows are told by them. -/
theorem row?_eq_some {s : Store} (distinct : (s.jobs.map (·.id)).Nodup) {id : Int} {j : Row} :
    s.row? id = some j ↔ j ∈ s.jobs ∧ j.id = id :=
  find?_key distinct

/-- A row that is filtered out is gone, and any other stays. -/
theorem row?_filter {s s' : Store} (distinct : (s.jobs.map (·.id)).Nodup) {keep : Row → Bool}
    (hjobs : s'.jobs = s.jobs.filter keep) (id : Int) : s'.row? id = (s.row? id).filter keep := by
  have distinct' : (s'.jobs.map (·.id)).Nodup := by
    rw [hjobs]
    exact (List.filter_sublist.map _).nodup distinct
  cases hrow : s.row? id with
  | none =>
    refine row?_eq_none.mpr fun j hj => ?_
    rw [hjobs] at hj
    exact row?_eq_none.mp hrow j (List.mem_filter.mp hj).1
  | some j =>
    obtain ⟨hj, hid⟩ := mem_of_row? hrow
    rw [Option.filter_some]
    split
    · rename_i hkeep
      exact (row?_eq_some distinct').mpr ⟨hjobs ▸ List.mem_filter.mpr ⟨hj, hkeep⟩, hid⟩
    · rename_i hkeep
      refine row?_eq_none.mpr fun k hk hkid => hkeep ?_
      rw [hjobs] at hk
      obtain ⟨hk, hkeep'⟩ := List.mem_filter.mp hk
      rwa [List.inj_on_of_nodup_map distinct hk hj (hkid.trans hid.symm)] at hkeep'

/-- Where no number comes or goes, a number has a row before and after, or
neither before nor after. -/
theorem row?_of_ids {s s' : Store} (hids : s'.jobs.map (·.id) = s.jobs.map (·.id)) (id : Int) :
    (s.row? id = none ∧ s'.row? id = none)
      ∨ ∃ j k, s.row? id = some j ∧ s'.row? id = some k := by
  have hnone : s'.row? id = none ↔ s.row? id = none := by
    have hmem : ∀ u : Store, u.row? id = none ↔ id ∉ u.jobs.map (·.id) := fun u => by
      simp [row?_eq_none]
    rw [hmem, hmem, hids]
  cases hrow : s.row? id with
  | none => exact Or.inl ⟨rfl, hnone.mpr hrow⟩
  | some j =>
    cases hrow' : s'.row? id with
    | none => rw [hnone.mp hrow'] at hrow; cases hrow
    | some k => exact Or.inr ⟨j, k, rfl, rfl⟩

end Store

/-- What an operation can make of the row of a number, if there is one. Any
operation may leave it as it is; otherwise rows are inserted queued, and
only their states change before they go. -/
inductive Row.Step (id : Int) : Operation → Option Row → Option Row → Prop where
  | kept (op : Operation) (row : Option Row) : Step id op row row
  | inserted (ceiling : Int) (j : Row) : j.state = Progress.queued.tag →
      Step id (.enqueueAll ceiling) none (some j)
  | claimed (batch : Int) (j : Row) : j.state = Progress.queued.tag →
      Step id (.claim batch) (some j) (some { j with state := Progress.inProgress.tag })
  | markedDone (j : Row) : j.state = Progress.inProgress.tag →
      Step id (.markDone id) (some j) (some { j with state := Progress.done.tag })
  | released (j : Row) : j.state = Progress.inProgress.tag →
      Step id (.release id) (some j) none
  | reaped (j : Row) : j.state = Progress.done.tag → Step id .reap (some j) none
  | discarded (j : Row) : Step id .discardAll (some j) none

namespace Store

/-! ## What an operation makes of a row -/

theorem isInProgress_iff {id : Int} {j : Row} :
    isInProgress id j = true ↔ j.id = id ∧ j.state = Progress.inProgress.tag := by
  simp [isInProgress]

theorem isDone_iff {j : Row} : isDone j = true ↔ j.state = Progress.done.tag := by
  simp [isDone]

theorem id_claim (s : Store) (batch : Int) :
    (s.claim batch).1.jobs.map (·.id) = s.jobs.map (·.id) := by
  have h := congrArg (List.map (·.id)) (s.claim_bare batch)
  simpa only [List.map_map, Function.comp_def, Row.bare_id] using h

theorem id_markDone (s : Store) (job : Int) :
    (s.markDone job).1.jobs.map (·.id) = s.jobs.map (·.id) := by
  have h := congrArg (List.map (·.id)) (s.markDone_bare job)
  simpa only [List.map_map, Function.comp_def, Row.bare_id] using h

/-- A row after handing jobs out was handed out, or is as it was. -/
theorem mem_claim {s : Store} {batch : Int} {j : Row} (hj : j ∈ (s.claim batch).1.jobs) :
    j ∈ s.jobs ∨ ∃ k ∈ s.jobs, k.state = Progress.queued.tag
      ∧ j = { k with state := Progress.inProgress.tag } := by
  rcases mem_or_of_mem_claimRows _ _ j hj with hold | hnew
  · exact Or.inl hold
  · obtain ⟨-, hstate, k, hk, hqueued, hkj⟩ := mem_claimRows_snd _ _ j hnew
    exact Or.inr ⟨k, hk, hqueued, by rw [← hstate]; exact Row.eq_of_bare hkj⟩

theorem mem_markDone {s : Store} {job : Int} {j : Row} (hj : j ∈ (s.markDone job).1.jobs) :
    j ∈ s.jobs ∨ ∃ k ∈ s.jobs, isInProgress job k = true
      ∧ j = { k with state := Progress.done.tag } := by
  obtain ⟨k, hk, rfl⟩ := List.mem_map.mp hj
  split
  · rename_i hprog
    exact Or.inr ⟨k, hk, hprog, rfl⟩
  · exact Or.inl hk

namespace Numbered

variable {s : Store}

/-- Rows may leave. -/
theorem of_sublist (h : s.Numbered) {s' : Store} (hnext : s.nextJob ≤ s'.nextJob)
    (hjobs : s'.jobs.Sublist s.jobs) : s'.Numbered where
  below := fun j hj => Int.lt_of_lt_of_le (h.below j (hjobs.subset hj)) hnext
  distinct := (hjobs.map _).nodup h.distinct

theorem claim (h : s.Numbered) (batch : Int) : (s.claim batch).1.Numbered where
  below := by
    intro j hj
    rcases mem_claim hj with hj | ⟨k, hk, -, rfl⟩
    · exact h.below j hj
    · exact h.below k hk
  distinct := by rw [id_claim]; exact h.distinct

theorem markDone (h : s.Numbered) (job : Int) : (s.markDone job).1.Numbered where
  below := by
    intro j hj
    rcases mem_markDone hj with hj | ⟨k, hk, -, rfl⟩
    · exact h.below j hj
    · exact h.below k hk
  distinct := by rw [id_markDone]; exact h.distinct

theorem enqueueFor (h : s.Numbered) (r : Rule) (limit : Int) :
    (s.enqueueFor r limit).1.Numbered where
  below := by
    intro j hj
    rcases List.mem_append.mp hj with hj | hj
    · have := h.below j hj
      simp only [enqueueFor_fst]
      omega
    · exact (id_newRows hj).2
  distinct := by
    rw [enqueueFor_fst, List.map_append]
    refine List.nodup_append.mpr ⟨h.distinct, nodup_id_rowsFor _ _ _ _, ?_⟩
    intro a ha b hb
    obtain ⟨j, hj, rfl⟩ := List.mem_map.mp ha
    obtain ⟨k, hk, rfl⟩ := List.mem_map.mp hb
    have hlt := h.below j hj
    have hge := (id_newRows hk).1
    omega

/-- Every operation keeps the numbers, and gives none back. -/
theorem effect (h : s.Numbered) {op : Operation} {s' : Store} (he : s.Effect op s') :
    s'.Numbered ∧ s.nextJob ≤ s'.nextJob := by
  cases he with
  | fails => exact ⟨h, Int.le_refl _⟩
  | pass hpass =>
    refine ⟨?_, hpass.mem_jobs.1⟩
    induction hpass with
    | start => exact h
    | jobs r limit _ _ ih => exact ih.enqueueFor r limit
    | number _ ih => exact ih.of_sublist (by simp only; omega) (List.Sublist.refl _)
  | claim batch => exact ⟨h.claim batch, Int.le_refl _⟩
  | markDone job => exact ⟨h.markDone job, Int.le_refl _⟩
  | release job => exact ⟨h.of_sublist (Int.le_refl _) List.filter_sublist, Int.le_refl _⟩
  | reap => exact ⟨h.of_sublist (Int.le_refl _) List.filter_sublist, Int.le_refl _⟩
  | discardAll => exact ⟨h.of_sublist (Int.le_refl _) (List.nil_sublist _), Int.le_refl _⟩

end Numbered

/-- Every operation gives rows only states that stand for something. -/
theorem Staged.effect {s : Store} (h : s.Staged) {op : Operation} {s' : Store}
    (he : s.Effect op s') : s'.Staged := by
  intro j hj
  cases he with
  | fails => exact h j hj
  | pass hpass =>
    rcases hpass.mem_jobs.2.2 j hj with hold | ⟨hqueued, -⟩
    · exact h j hold
    · exact ⟨.queued, hqueued⟩
  | claim batch =>
    rcases mem_claim hj with hj | ⟨k, -, -, rfl⟩
    · exact h j hj
    · exact ⟨.inProgress, rfl⟩
  | markDone job =>
    rcases mem_markDone hj with hj | ⟨k, -, -, rfl⟩
    · exact h j hj
    · exact ⟨.done, rfl⟩
  | release job => exact h j (List.mem_filter.mp hj).1
  | reap => exact h j (List.mem_filter.mp hj).1
  | discardAll => cases hj

namespace Numbered

variable {s : Store}

/-- Every operation makes of the row of a number what it can make of it. -/
theorem rowStep (h : s.Numbered) {op : Operation} {s' : Store} (he : s.Effect op s')
    (id : Int) : Row.Step id op (s.row? id) (s'.row? id) := by
  have h' := (h.effect he).1
  cases he with
  | fails => exact .kept _ _
  | pass hpass =>
    obtain ⟨-, hkept, hback⟩ := hpass.mem_jobs
    cases hrow : s.row? id with
    | some j =>
      obtain ⟨hj, hid⟩ := mem_of_row? hrow
      rw [(row?_eq_some h'.distinct).mpr ⟨hkept j hj, hid⟩]
      exact .kept _ _
    | none =>
      cases hrow' : s'.row? id with
      | none => exact .kept _ _
      | some j =>
        obtain ⟨hj, hid⟩ := mem_of_row? hrow'
        rcases hback j hj with hold | ⟨hqueued, -⟩
        · exact absurd hid (row?_eq_none.mp hrow j hold)
        · exact .inserted _ j hqueued
  | claim batch =>
    rcases row?_of_ids (s.id_claim batch) id with ⟨hrow, hrow'⟩ | ⟨j, k, hrow, hrow'⟩ <;>
      rw [hrow, hrow']
    · exact .kept _ _
    · obtain ⟨hk, hid⟩ := mem_of_row? hrow'
      rcases mem_claim hk with hold | ⟨i, hi, hqueued, rfl⟩
      · rw [← hrow, (row?_eq_some h.distinct).mpr ⟨hold, hid⟩]
        exact .kept _ _
      · rw [← hrow, (row?_eq_some h.distinct).mpr ⟨hi, hid⟩]
        exact .claimed batch i hqueued
  | markDone job =>
    rcases row?_of_ids (s.id_markDone job) id with ⟨hrow, hrow'⟩ | ⟨j, k, hrow, hrow'⟩ <;>
      rw [hrow, hrow']
    · exact .kept _ _
    · obtain ⟨hk, hid⟩ := mem_of_row? hrow'
      rcases mem_markDone hk with hold | ⟨i, hi, hprog, rfl⟩
      · rw [← hrow, (row?_eq_some h.distinct).mpr ⟨hold, hid⟩]
        exact .kept _ _
      · obtain ⟨hjob, hstate⟩ := isInProgress_iff.mp hprog
        obtain rfl : job = id := hjob.symm.trans hid
        rw [← hrow, (row?_eq_some h.distinct).mpr ⟨hi, hid⟩]
        exact .markedDone i hstate
  | release job =>
    have hleft : (s.release job).1.row? id = (s.row? id).filter fun j => !isInProgress job j :=
      row?_filter h.distinct rfl id
    rw [hleft]
    cases hrow : s.row? id with
    | none => exact .kept _ _
    | some j =>
      rw [Option.filter_some]
      split
      · exact .kept _ _
      · rename_i hprog
        obtain ⟨hjob, hstate⟩ := isInProgress_iff.mp (by simpa using hprog)
        obtain rfl : job = id := hjob.symm.trans (mem_of_row? hrow).2
        exact .released j hstate
  | reap =>
    have hleft : s.reap.1.row? id = (s.row? id).filter fun j => !isDone j :=
      row?_filter h.distinct rfl id
    rw [hleft]
    cases hrow : s.row? id with
    | none => exact .kept _ _
    | some j =>
      rw [Option.filter_some]
      split
      · exact .kept _ _
      · rename_i hdone
        exact .reaped j (isDone_iff.mp (by simpa using hdone))
  | discardAll =>
    cases hrow : s.row? id with
    | none => exact .kept _ _
    | some j => exact .discarded j

end Numbered

end Store

/-! ## How far a number is on its way -/

/-- How far a number is on its way: it was not given yet, its row is at some
state, or it was given and has no row any more. -/
inductive Standing where
  | awaited
  | queued
  | inProgress
  | done
  | gone
deriving DecidableEq, Repr

namespace Standing

/-- The place of a standing among all of them. -/
def rank : Standing → Nat
  | awaited => 0
  | queued => 1
  | inProgress => 2
  | done => 3
  | gone => 4

/-- The state that is stored at a standing. -/
def state? : Standing → Option Int
  | awaited | gone => none
  | queued => some Progress.queued.tag
  | inProgress => some Progress.inProgress.tag
  | done => some Progress.done.tag

/-- The standing of a row at some progress. -/
def of : Progress → Standing
  | .queued => queued
  | .inProgress => inProgress
  | .done => done

/-- How a number goes on with an operation. A row that is queued goes only
when all rows go. -/
inductive Next (op : Operation) : Standing → Standing → Prop where
  | same (a : Standing) : Next op a a
  | skipped : Next op awaited gone
  | inserted : Next op awaited queued
  | claimed : Next op queued inProgress
  | ended : Next op inProgress done
  | dropped : Next op inProgress gone
  | reaped : Next op done gone
  | discarded : op = .discardAll → Next op queued gone

theorem Next.rank_le {op : Operation} {a b : Standing} (h : Next op a b) : a.rank ≤ b.rank := by
  cases h <;> simp [rank]

/-- What the states of a row can still be, one after the other, at a
standing. If all rows may be removed (`cut`), the row can go at once. -/
def Ahead (cut : Prop) : Standing → List (Option Int) → Prop
  | awaited, path =>
    path <+: [queued.state?, inProgress.state?, done.state?, none]
      ∨ path <+: [queued.state?, inProgress.state?, none]
      ∨ (path = [queued.state?, none] ∧ cut)
  | queued, path =>
    path <+: [inProgress.state?, done.state?, none] ∨ path <+: [inProgress.state?, none]
      ∨ (path = [none] ∧ cut)
  | inProgress, path => path <+: [done.state?, none] ∨ path <+: [none]
  | done, path => path <+: [none]
  | gone, path => path = []

theorem ahead_nil (cut : Prop) (a : Standing) : a.Ahead cut [] := by
  cases a <;> simp [Ahead]

/-- What is ahead before an operation is what is ahead after it, with the
new state before it if there is one. -/
theorem Next.ahead {cut : Prop} {op : Operation} {a b : Standing} (h : Next op a b)
    (hcut : op = .discardAll → cut) {path : List (Option Int)} (hpath : b.Ahead cut path) :
    a.Ahead cut (if b.state? = a.state? then path else b.state? :: path) := by
  cases h with
  | same => simpa using hpath
  | skipped =>
    obtain rfl : path = [] := hpath
    exact ahead_nil cut awaited
  | inserted =>
    simp only [state?, reduceCtorEq, if_false]
    rcases hpath with h | h | ⟨rfl, h⟩
    · exact Or.inl (List.cons_prefix_cons.mpr ⟨rfl, h⟩)
    · exact Or.inr (Or.inl (List.cons_prefix_cons.mpr ⟨rfl, h⟩))
    · exact Or.inr (Or.inr ⟨rfl, h⟩)
  | claimed =>
    have hne : inProgress.state? ≠ queued.state? := by decide
    rw [if_neg hne]
    rcases hpath with h | h
    · exact Or.inl (List.cons_prefix_cons.mpr ⟨rfl, h⟩)
    · exact Or.inr (Or.inl (List.cons_prefix_cons.mpr ⟨rfl, h⟩))
  | ended =>
    have hne : done.state? ≠ inProgress.state? := by decide
    rw [if_neg hne]
    exact Or.inl (List.cons_prefix_cons.mpr ⟨rfl, hpath⟩)
  | dropped =>
    obtain rfl : path = [] := hpath
    exact Or.inr (List.prefix_refl _)
  | reaped =>
    obtain rfl : path = [] := hpath
    exact List.prefix_refl _
  | discarded hop =>
    obtain rfl : path = [] := hpath
    exact Or.inr (Or.inr ⟨rfl, hcut hop⟩)

end Standing

namespace Store

/-- How far a number is on its way in a store. -/
def standing (s : Store) (id : Int) : Standing :=
  match s.row? id with
  | none => if id < s.nextJob then .gone else .awaited
  | some j =>
    if j.state = Progress.queued.tag then .queued
    else if j.state = Progress.inProgress.tag then .inProgress
    else .done

theorem Staged.stateOf?_eq {s : Store} (h : s.Staged) (id : Int) :
    s.stateOf? id = (s.standing id).state? := by
  unfold stateOf? standing
  cases hrow : s.row? id with
  | none =>
    simp only [Option.map_none]
    split <;> rfl
  | some j =>
    obtain ⟨p, hp⟩ := h j (mem_of_row? hrow).1
    simp only [Option.map_some, hp]
    cases p <;> rfl

theorem standing_of_none {s : Store} {id : Int} (hrow : s.row? id = none)
    (hgiven : id < s.nextJob) : s.standing id = .gone := by
  simp only [standing, hrow, hgiven, if_true]

namespace Numbered

variable {s : Store}

theorem standing_of_mem (h : s.Numbered) {j : Row} (hj : j ∈ s.jobs) {p : Progress}
    (hp : j.state = p.tag) : s.standing j.id = .of p := by
  simp only [standing, (row?_eq_some h.distinct).mpr ⟨hj, rfl⟩, hp]
  cases p <;> rfl

theorem any_isInProgress (h : s.Numbered) (id : Int) :
    s.jobs.any (isInProgress id) = true ↔ s.stateOf? id = some Progress.inProgress.tag := by
  rw [List.any_eq_true, stateOf?, Option.map_eq_some_iff]
  constructor
  · rintro ⟨j, hj, hprog⟩
    obtain ⟨hid, hstate⟩ := isInProgress_iff.mp hprog
    exact ⟨j, (row?_eq_some h.distinct).mpr ⟨hj, hid⟩, hstate⟩
  · rintro ⟨j, hrow, hstate⟩
    obtain ⟨hj, hid⟩ := mem_of_row? hrow
    exact ⟨j, hj, isInProgress_iff.mpr ⟨hid, hstate⟩⟩

/-- With every operation a number goes on, or stays where it is. -/
theorem next (h : s.Numbered) {op : Operation} {s' : Store} (he : s.Effect op s') (id : Int) :
    Standing.Next op (s.standing id) (s'.standing id) := by
  have hnext := (h.effect he).2
  have hstep := h.rowStep he id
  -- the number of a row stays given when the row goes
  have hgiven : ∀ j, s.row? id = some j → id < s'.nextJob := fun j hrow => by
    obtain ⟨hj, hid⟩ := mem_of_row? hrow
    have := h.below j hj
    omega
  unfold standing
  generalize hrow : s.row? id = row at hstep
  generalize hrow' : s'.row? id = row' at hstep
  -- a row is told by its state from here on
  cases hstep with
  | kept =>
    cases row with
    | some j => exact .same _
    | none =>
      by_cases hgone : id < s.nextJob
      · have hstill : id < s'.nextJob := by omega
        simp only [hgone, hstill, if_true]
        exact .same _
      · simp only [hgone, if_false]
        split
        · exact .skipped
        · exact .same _
  | inserted ceiling j hqueued =>
    obtain ⟨hj, hid⟩ := mem_of_row? hrow'
    have hfree : ¬ id < s.nextJob := by
      cases he with
      | fails => rw [hrow] at hrow'; cases hrow'
      | pass hpass =>
        rcases hpass.mem_jobs.2.2 j hj with hold | ⟨-, hle⟩
        · exact absurd hid (row?_eq_none.mp hrow j hold)
        · omega
    simp only [hqueued, hfree, if_true, if_false]
    exact .inserted
  | claimed batch j hqueued =>
    simp only [hqueued, if_true]
    exact .claimed
  | markedDone j hprog =>
    simp only [hprog]
    exact .ended
  | released j hprog =>
    simp only [hprog, hgiven j hrow, if_true]
    exact .dropped
  | reaped j hdone =>
    simp only [hdone, hgiven j hrow, if_true]
    exact .reaped
  | discarded j =>
    simp only [hgiven j hrow, if_true]
    split
    · exact .discarded rfl
    · split
      · exact .dropped
      · exact .reaped

end Numbered

end Store

/-! ## Runs -/

namespace Connection

open Store

/-- The operations of a run, each with the connection it finds. -/
def trace (c : Connection) : List Operation → List (Connection × Operation)
  | [] => []
  | op :: ops => (c, op) :: (c.perform op).trace ops

/-- The states of the row of a number one after the other, from the first
change on: each state it takes, and none when it goes. -/
def course (c : Connection) (id : Int) : List Operation → List (Option Int)
  | [] => []
  | op :: ops =>
    let state := (c.perform op).store.stateOf? id
    let later := (c.perform op).course id ops
    if state = c.store.stateOf? id then later else state :: later

/-- The jobs that an operation hands out. -/
def handedOut (c : Connection) : Operation → List Job
  | .claim batch => (c.claim batch).1.toOption.getD []
  | _ => []

/-- Whether an operation marks the job of a number done, or releases it, and
is answered yes. -/
def retires (c : Connection) (id : Int) : Operation → Bool
  | .markDone job => job = id && (c.markDone job).1.toOption = some true
  | .release job => job = id && (c.release job).1.toOption = some true
  | _ => false

/-- Whether nothing keeps the store from retiring a job. -/
def obeys (c : Connection) (id : Int) : Bool :=
  !c.closed && !c.isKept id

/-- What holds of a connection and is kept by every operation of a run holds
of every connection that the run finds. -/
theorem forall_trace {motive : Connection → Prop} : ∀ {c : Connection} {ops : List Operation},
    motive c → (∀ c, ∀ op ∈ ops, motive c → motive (c.perform op)) →
      ∀ x ∈ c.trace ops, motive x.1
  | _, [], _, _, x, hx => absurd hx List.not_mem_nil
  | c, op :: ops, h, step, x, hx => by
    rcases List.mem_cons.mp hx with rfl | hx
    · exact h
    · exact forall_trace (step c op List.mem_cons_self h)
        (fun c' op' hop => step c' op' (List.mem_cons_of_mem op hop)) x hx

theorem numbered_of_mem_trace {c : Connection} (h : c.store.Numbered) (ops : List Operation) :
    ∀ x ∈ c.trace ops, x.1.store.Numbered :=
  forall_trace (motive := fun c => c.store.Numbered) h
    fun c op _ h => (h.effect (c.perform_effect op)).1

theorem course_ahead (cut : Prop) (id : Int) : ∀ {c : Connection} (_ : c.store.Numbered)
    (_ : c.store.Staged) (ops : List Operation), (.discardAll ∈ ops → cut) →
      (c.store.standing id).Ahead cut (c.course id ops)
  | _, _, _, [], _ => Standing.ahead_nil cut _
  | c, h, hs, op :: ops, hcut => by
    have heffect := c.perform_effect op
    have hs' := hs.effect heffect
    have hrest := course_ahead cut id (h.effect heffect).1 hs' ops fun hop =>
      hcut (List.mem_cons_of_mem op hop)
    simp only [course, hs.stateOf?_eq, hs'.stateOf?_eq]
    exact (h.next heffect id).ahead (fun hop => hcut (hop ▸ List.mem_cons_self)) hrest

/-- What a number can only do by going on past a standing it does at most
once. -/
theorem countP_trace_le (id : Int) (n : Nat) {p : Connection × Operation → Bool}
    (passes : ∀ c op, c.store.Numbered → p (c, op) = true →
      (c.store.standing id).rank ≤ n ∧ n < ((c.perform op).store.standing id).rank) :
    ∀ {c : Connection} (_ : c.store.Numbered) (ops : List Operation),
      (c.trace ops).countP p ≤ if (c.store.standing id).rank ≤ n then 1 else 0
  | _, _, [] => by simp [trace]
  | c, h, op :: ops => by
    have heffect := c.perform_effect op
    have hrest := countP_trace_le id n passes (h.effect heffect).1 ops
    have hgoes := (h.next heffect id).rank_le
    rw [trace, List.countP_cons]
    split
    · rename_i hp
      obtain ⟨hle, hlt⟩ := passes c op h hp
      rw [if_neg (by omega)] at hrest
      rw [if_pos hle]
      omega
    · split at hrest <;> split <;> omega

/-! ## Handing out and retiring -/

/-- A job that is handed out is that of a row that was queued, and the row is
in progress then. -/
theorem mem_handedOut {c : Connection} {op : Operation} {job : Job} (hjob : job ∈ c.handedOut op) :
    (∃ k ∈ c.store.jobs, k.state = Progress.queued.tag ∧ job = k.job .inProgress)
      ∧ ∃ j ∈ (c.perform op).store.jobs, j.state = Progress.inProgress.tag ∧ j.id = job.id := by
  cases op with
  | claim batch =>
    simp only [handedOut, perform, claim] at hjob ⊢
    rcases c.carry_cases fun s => s.claim batch with ⟨hanswer, hstore⟩ | ⟨t, hanswer, -⟩ <;>
      rw [hanswer] at hjob
    · rw [hstore]
      obtain ⟨j, hj, rfl⟩ := List.mem_map.mp hjob
      obtain ⟨hrow, hstate, k, hk, hqueued, hkj⟩ := mem_claimRows_snd _ _ j hj
      exact ⟨⟨k, hk, hqueued, (Row.job_eq_of_bare hkj _).symm⟩, j, hrow, hstate, rfl⟩
    · cases hjob
  | _ => cases hjob

/-- The number of a job that is handed out was queued and is in progress. -/
theorem standing_of_handedOut {c : Connection} (h : c.store.Numbered) {op : Operation} {job : Job}
    (hjob : job ∈ c.handedOut op) :
    c.store.standing job.id = .queued ∧ (c.perform op).store.standing job.id = .inProgress := by
  obtain ⟨⟨k, hk, hqueued, hkjob⟩, j, hj, hprog, hid⟩ := mem_handedOut hjob
  have h' := (h.effect (c.perform_effect op)).1
  constructor
  · rw [hkjob]
    exact h.standing_of_mem hk (p := .queued) hqueued
  · rw [← hid]
    exact h'.standing_of_mem hj (p := .inProgress) hprog

/-- A row keeps all but its state as long as it is there. -/
theorem bare_of_mem_trace {c : Connection} (h : c.store.Numbered) {j : Row}
    (hj : j ∈ c.store.jobs) (ops : List Operation) :
    ∀ x ∈ c.trace ops, ∀ k, x.1.store.row? j.id = some k → k.bare = j.bare := by
  let motive (c : Connection) : Prop := c.store.Numbered ∧ j.id < c.store.nextJob
    ∧ ∀ k, c.store.row? j.id = some k → k.bare = j.bare
  have hstart : motive c := by
    refine ⟨h, h.below j hj, fun k hk => ?_⟩
    rw [(row?_eq_some h.distinct).mpr ⟨hj, rfl⟩] at hk
    rw [Option.some.inj hk]
  refine fun x hx => (forall_trace hstart ?_ x hx).2.2
  rintro c op - ⟨h, hgiven, hbare⟩
  have heffect := c.perform_effect op
  obtain ⟨h', hnext⟩ := h.effect heffect
  refine ⟨h', Int.lt_of_lt_of_le hgiven hnext, fun k hk => ?_⟩
  have hstep := h.rowStep heffect j.id
  rw [hk] at hstep
  generalize hrow : c.store.row? j.id = row at hstep
  cases hstep with
  | kept => exact hbare k hrow
  | inserted ceiling _ hqueued =>
    -- a number that was given is not given to a new row
    have hgone := h.next heffect j.id
    rw [standing_of_none hrow hgiven, ← (mem_of_row? hk).2,
      h'.standing_of_mem (mem_of_row? hk).1 (p := .queued) hqueued] at hgone
    cases hgone
  | claimed batch i _ => exact hbare i hrow
  | markedDone i _ => exact hbare i hrow

/-- Whenever the job of a row is handed out, it is as the row was. -/
theorem job_of_handedOut {c : Connection} (h : c.store.Numbered) {j : Row}
    (hj : j ∈ c.store.jobs) {ops : List Operation} {x : Connection × Operation}
    (hx : x ∈ c.trace ops) {job : Job} (hjob : job ∈ x.1.handedOut x.2) (hid : job.id = j.id) :
    job = j.job .inProgress := by
  obtain ⟨⟨k, hk, -, rfl⟩, -⟩ := mem_handedOut hjob
  have hrow : x.1.store.row? j.id = some k :=
    (row?_eq_some (numbered_of_mem_trace h ops x hx).distinct).mpr ⟨hk, hid⟩
  exact Row.job_eq_of_bare (bare_of_mem_trace h hj ops x hx k hrow) _

/-- No number is handed out twice by one operation. -/
theorem nodup_handedOut {c : Connection} (h : c.store.Numbered) (op : Operation) :
    ((c.handedOut op).map (·.id)).Nodup := by
  cases op with
  | claim batch =>
    simp only [handedOut, claim]
    rcases c.carry_cases fun s => s.claim batch with ⟨hanswer, -⟩ | ⟨t, hanswer, -⟩ <;>
      rw [hanswer]
    · have hsub := claimRows_snd_sublist (max 1 batch).toNat c.store.jobs
      simpa only [Except.toOption, Option.getD_some, Store.claim, List.map_map,
        Function.comp_def, Row.job] using hsub.nodup h.distinct
    · exact List.nodup_nil
  | _ => exact List.nodup_nil

/-- A statement that retires a job is answered yes exactly if it answers yes
when it is carried out, and nothing keeps the store from it. -/
theorem answer_unless_kept (c : Connection) (id : Int) (statement : Store → Store × Bool) :
    (if !c.closed && c.isKept id then ((.error .refused, c) : Answer Bool)
      else c.carry statement).1.toOption = some true
      ↔ (statement c.store).2 = true ∧ c.obeys id = true := by
  cases hclosed : c.closed with
  | true => simp [carry, obeys, hclosed, Except.toOption]
  | false =>
    cases hkept : c.isKept id with
    | true => simp [obeys, hclosed, hkept, Except.toOption]
    | false => simp [carry, obeys, hclosed, hkept, Except.toOption]

/-- A job is marked done or released exactly if its row is in progress and
nothing keeps the store from it. -/
theorem retires_iff {c : Connection} (h : c.store.Numbered) {op : Operation} {id : Int} :
    c.retires id op = true ↔ (op = .markDone id ∨ op = .release id)
      ∧ c.store.stateOf? id = some Progress.inProgress.tag ∧ c.obeys id = true := by
  rw [← h.any_isInProgress]
  have hmark : (c.markDone id).1.toOption = some true
      ↔ c.store.jobs.any (isInProgress id) = true ∧ c.obeys id = true :=
    c.answer_unless_kept id fun s => s.markDone id
  have hrelease : (c.release id).1.toOption = some true
      ↔ c.store.jobs.any (isInProgress id) = true ∧ c.obeys id = true :=
    c.answer_unless_kept id fun s => s.release id
  cases op with
  | markDone job =>
    by_cases hjob : job = id
    · subst hjob
      rw [← hmark]
      simp [retires]
    · simp [retires, hjob]
  | release job =>
    by_cases hjob : job = id
    · subst hjob
      rw [← hrelease]
      simp [retires]
    · simp [retires, hjob]
  | _ => simp [retires]

/-- A job that is marked done or released was in progress and is so no
more. -/
theorem standing_of_retires {c : Connection} (h : c.store.Numbered) {op : Operation} {id : Int}
    (hretires : c.retires id op = true) :
    c.store.standing id = .inProgress
      ∧ ((c.perform op).store.standing id = .done ∨ (c.perform op).store.standing id = .gone) := by
  have h' := (h.effect (c.perform_effect op)).1
  obtain ⟨hop, hstate, -⟩ := (retires_iff h).mp hretires
  obtain ⟨j, hj, hprog⟩ := List.any_eq_true.mp ((h.any_isInProgress id).mpr hstate)
  obtain ⟨rfl, hrow⟩ := isInProgress_iff.mp hprog
  refine ⟨h.standing_of_mem hj (p := .inProgress) hrow, ?_⟩
  rcases hop with rfl | rfl
  · left
    rcases c.markDone_cases j.id with ⟨-, hstore⟩ | ⟨t, hanswer, -⟩
    · refine h'.standing_of_mem (j := { j with state := Progress.done.tag }) (p := .done) ?_ rfl
      simp only [perform, hstore]
      exact List.mem_map.mpr ⟨j, hj, by rw [if_pos hprog]⟩
    · simp [retires, hanswer, Except.toOption] at hretires
  · right
    rcases c.release_cases j.id with ⟨-, hstore⟩ | ⟨t, hanswer, -⟩
    · simp only [perform, hstore]
      refine standing_of_none ?_ (h.below j hj)
      have hleft : (c.store.release j.id).1.row? j.id
          = (c.store.row? j.id).filter fun k => !isInProgress j.id k :=
        row?_filter h.distinct rfl _
      rw [hleft, (row?_eq_some h.distinct).mpr ⟨hj, rfl⟩, Option.filter_some, hprog]
      rfl
    · simp [retires, hanswer, Except.toOption] at hretires

/-! ## Without trouble -/

/-- Whether nothing keeps the store from retiring any job. -/
def isWell (c : Connection) : Bool :=
  !c.closed && c.noRetire.isEmpty

theorem obeys_of_isWell {c : Connection} (h : c.isWell = true) (id : Int) : c.obeys id = true := by
  simp only [isWell, Bool.and_eq_true, List.isEmpty_iff] at h
  simp [obeys, isKept, h.1, h.2]

theorem isWell_carry {α : Type} (c : Connection) (statement : Store → Store × α) :
    (c.carry statement).2.isWell = c.isWell := by
  unfold carry
  split <;> rfl

theorem isWell_enqueueFor (c : Connection) (r : Rule) (limit : Int) :
    (c.enqueueFor r limit).2.isWell = c.isWell := by
  unfold enqueueFor
  split
  · rfl
  · split
    · rfl
    · split
      · rfl
      · exact c.isWell_carry _

theorem isWell_enqueueAll (c : Connection) (ceiling : Int) :
    (c.enqueueAll ceiling).2.isWell = c.isWell := by
  have hlist := c.isWell_carry fun s => (s, s.runnable ceiling)
  unfold enqueueAll runnable ask
  generalize c.carry (fun s => (s, s.runnable ceiling)) = listed at hlist ⊢
  obtain ⟨answer, c'⟩ := listed
  cases answer with
  | error t => exact hlist
  | ok rules =>
    refine List.foldlRecOn
      (motive := fun acc : Store.Pass × Connection => acc.2.isWell = c.isWell) _ _ hlist ?_
    rintro ⟨pass, c''⟩ hacc r -
    have hgiven := c''.isWell_enqueueFor r (r.headroom ceiling)
    simp only
    split <;> (rename_i h; rw [h] at hgiven; exact hgiven.trans hacc)

/-- An operation that is not trouble brings none. -/
theorem isWell_perform (c : Connection) {op : Operation} (calm : op.isTrouble = false) :
    (c.perform op).isWell = c.isWell := by
  cases op with
  | enqueueAll ceiling => exact c.isWell_enqueueAll ceiling
  | claim batch => exact c.isWell_carry _
  | markDone job =>
    simp only [perform, markDone]
    split
    · rfl
    · exact c.isWell_carry _
  | release job =>
    simp only [perform, release]
    split
    · rfl
    · exact c.isWell_carry _
  | reap => exact c.isWell_carry _
  | discardAll => exact c.isWell_carry _
  | trouble closed noInsert noRetire => cases calm

/-! ## The life of a job -/

/-- **The life of a job.** In every run from an empty jobs table the states
of a row are queued, in progress and done before it goes, or queued and in
progress, as far as the run comes; only when all rows are removed does a
queued row go. A number is handed out once at most. Of all that is asked to
mark a job done or to release it one is answered yes at most, and each is
exactly if the row is in progress and the statement does not fail. No row
changes in any other way. -/
theorem job_lifecycle {c : Connection} (empty : c.store.jobs = []) (ops : List Operation)
    (id : Int) :
    (c.course id ops <+: [some Progress.queued.tag, some Progress.inProgress.tag,
          some Progress.done.tag, none]
        ∨ c.course id ops <+: [some Progress.queued.tag, some Progress.inProgress.tag, none]
        ∨ (c.course id ops = [some Progress.queued.tag, none] ∧ .discardAll ∈ ops))
      ∧ ((c.trace ops).flatMap fun x => (x.1.handedOut x.2).map (·.id)).count id ≤ 1
      ∧ (c.trace ops).countP (fun x => x.1.retires id x.2) ≤ 1
      ∧ (∀ x ∈ c.trace ops, x.1.retires id x.2 = true ↔
          (x.2 = .markDone id ∨ x.2 = .release id)
            ∧ x.1.store.stateOf? id = some Progress.inProgress.tag ∧ x.1.obeys id = true)
      ∧ (c.isWell = true → (∀ op ∈ ops, op.isTrouble = false) →
          ∀ x ∈ c.trace ops, x.1.obeys id = true)
      ∧ ∀ x ∈ c.trace ops,
          Row.Step id x.2 (x.1.store.row? id) ((x.1.perform x.2).store.row? id) := by
  have h : c.store.Numbered := ⟨by simp [empty], by simp [empty]⟩
  have hs : c.store.Staged := by simp [Staged, empty]
  have hall := numbered_of_mem_trace h ops
  refine ⟨?_, ?_, ?_, fun x hx => retires_iff (hall x hx), ?_, fun x hx => ?_⟩
  · have hahead := course_ahead (.discardAll ∈ ops) id h hs ops fun hop => hop
    have hawaited : c.store.standing id = .awaited ∨ c.store.standing id = .gone := by
      simp only [standing, row?, empty, List.find?_nil]
      split
      · exact Or.inr rfl
      · exact Or.inl rfl
    rcases hawaited with hstart | hstart <;> rw [hstart] at hahead
    · exact hahead
    · -- a number that was given before the run has no row in it
      rw [show c.course id ops = [] from hahead]
      exact Or.inl (List.nil_prefix)
  · have hcount := count_flatMap_le
      (fun x : Connection × Operation => (x.1.handedOut x.2).map (·.id)) id
      (c.trace ops) fun x hx => nodup_handedOut (hall x hx) x.2
    refine Nat.le_trans hcount (Nat.le_trans (countP_trace_le id 1 ?_ h ops) ?_)
    · intro c op h hid
      obtain ⟨job, hjob, rfl⟩ := List.mem_map.mp (of_decide_eq_true hid)
      obtain ⟨hqueued, hprog⟩ := standing_of_handedOut h hjob
      rw [hqueued, hprog]
      decide
    · split <;> omega
  · refine Nat.le_trans (countP_trace_le id 2 ?_ h ops) ?_
    · intro c op h hretires
      obtain ⟨hprog, hafter⟩ := standing_of_retires h hretires
      rw [hprog]
      rcases hafter with hafter | hafter <;> rw [hafter] <;> decide
    · split <;> omega
  · intro well calm x hx
    have hwell := forall_trace (motive := fun c => c.isWell = true) well
      (fun c op hop h => (c.isWell_perform (calm op hop)).trans h) x hx
    exact obeys_of_isWell hwell id
  · exact (hall x hx).rowStep (x.1.perform_effect x.2) id

/-- The only call is given a job, which is marked done twice and released
late; the first of these is answered yes. After all rows were removed the
call is given a job again, under another number. -/
theorem job_lifecycle_late :
    let c : Connection := { store := oneCall }
    let ops : List Operation := [.enqueueAll 5, .claim 1, .markDone 1, .markDone 1, .release 1,
      .discardAll, .enqueueAll 5, .claim 1]
    c.store.jobs = []
      ∧ c.course 1 ops = [some 0, some 1, some 3, none] ∧ c.course 2 ops = [some 0, some 1]
      ∧ ((c.trace ops).flatMap fun x => (x.1.handedOut x.2).map (·.id)).count 1 ≤ 1
      ∧ (c.trace ops).countP (fun x => x.1.retires 1 x.2) ≤ 1 := by
  intro c ops
  obtain ⟨-, hhanded, hretired, -⟩ := job_lifecycle (c := { store := oneCall }) rfl ops 1
  exact ⟨rfl, by decide +kernel, by decide +kernel, hhanded, hretired⟩

end Connection

end CallAudit
