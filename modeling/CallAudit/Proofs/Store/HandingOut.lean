/-
CallAudit.Proofs.Store.HandingOut — which jobs a batch is, and what is left
of the queue.

A batch is described once, by the queue it is taken from: `claim_eq` says
that its rows are the first of the queue, and nothing below looks into
`claimRows` any more.

* `Ordered` — rows stand in the order of their numbers, as a table that is
  listed by its key does.
* `queue` — the rows that wait, and `Row.begun`, a row once it was handed
  out.
* `handOut_perm` — a statement gives its rows back in any order. No row that
  was put in progress is passed over, whatever its parameters are, so the
  same jobs are made of them in the same order.
* `claimAll` — batches one after the other until one is empty. It ends, since
  each batch that is not empty leaves fewer jobs waiting.
* `claim_exact` — one batch, and all of them.
-/
import CallAudit.Proofs.Json.Stored
import CallAudit.Proofs.Store.Draining

namespace CallAudit

open CallAudit.Json (Stored)

namespace Row

/-- A row once it was handed out. -/
def begun (j : Row) : Row :=
  { j with state := Progress.inProgress.tag }

theorem begun_ne_queued (j : Row) : j.begun.state ≠ Progress.queued.tag := by
  show Progress.inProgress.tag ≠ Progress.queued.tag
  decide

/-- A row that was handed out can be read, whatever its parameters are. -/
theorem read_begun (j : Row) : j.begun.read = .ok (j.job .inProgress) := rfl

end Row

namespace Store

/-- The rows stand in the order of their numbers. -/
def Ordered (s : Store) : Prop :=
  s.jobs.Pairwise fun j k => j.id < k.id

instance (s : Store) : Decidable s.Ordered :=
  inferInstanceAs (Decidable (s.jobs.Pairwise fun j k => j.id < k.id))

/-- Rows in their order have numbers of their own. -/
theorem Ordered.nodup {s : Store} (h : s.Ordered) : (s.jobs.map (·.id)).Nodup :=
  List.pairwise_map.mpr (h.imp fun hlt => Int.ne_of_lt hlt)

/-- The rows that wait to be handed out. -/
def queue (s : Store) : List Row :=
  s.jobs.filter fun j => j.state = Progress.queued.tag

theorem length_queue (s : Store) : s.queue.length = s.waiting :=
  List.countP_eq_length_filter.symm

/-! ## One batch -/

theorem claimRows_snd (n : Nat) (rows : List Row) :
    (claimRows n rows).2
      = ((rows.filter fun j => j.state = Progress.queued.tag).take n).map Row.begun := by
  fun_induction claimRows n rows with
  | case1 rows => simp
  | case2 n => simp
  | case3 n i rest hqueued rows taken heq i' ih =>
    rw [heq] at ih
    rw [List.filter_cons_of_pos (by simpa using hqueued), List.take_succ_cons, List.map_cons, ← ih]
    rfl
  | case4 n i rest hother rows taken heq ih =>
    rw [heq] at ih
    rw [List.filter_cons_of_neg (by simpa using hother), ← ih]

/-- The queue is shorter by what was handed out. -/
theorem queued_claimRows (n : Nat) (rows : List Row) :
    ((claimRows n rows).1.filter fun j => j.state = Progress.queued.tag)
      = (rows.filter fun j => j.state = Progress.queued.tag).drop n := by
  fun_induction claimRows n rows with
  | case1 rows => rfl
  | case2 n => simp
  | case3 n i rest hqueued rows taken heq i' ih =>
    rw [heq] at ih
    have hstate : ¬ i'.state = Progress.queued.tag := i.begun_ne_queued
    simp only [List.filter_cons, hqueued, hstate, decide_true, decide_false, Bool.false_eq_true,
      if_true, if_false]
    exact ih
  | case4 n i rest hother rows taken heq ih =>
    rw [heq] at ih
    simp only [List.filter_cons, hother, decide_false, Bool.false_eq_true, if_false]
    exact ih

/-- With numbers of their own, the rows that were handed out are told from
all others by them. -/
theorem claimRows_fst (n : Nat) {rows : List Row} (distinct : (rows.map (·.id)).Nodup) :
    (claimRows n rows).1 = rows.map fun j =>
      if j.id ∈ ((rows.filter fun k => k.state = Progress.queued.tag).take n).map (·.id)
      then j.begun else j := by
  fun_induction claimRows n rows with
  | case1 rows => simp
  | case2 n => rfl
  | case3 n i rest hqueued rows taken heq i' ih =>
    rw [List.map_cons, List.nodup_cons] at distinct
    specialize ih distinct.2
    rw [heq] at ih
    have hfilter : (i :: rest).filter (fun k => k.state = Progress.queued.tag)
        = i :: rest.filter fun k => k.state = Progress.queued.tag :=
      List.filter_cons_of_pos (by simpa using hqueued)
    rw [hfilter, List.take_succ_cons, List.map_cons, List.map_cons, if_pos List.mem_cons_self]
    refine congrArg (i' :: ·) (ih.trans (List.map_congr_left fun j hj => ?_))
    have hne : j.id ≠ i.id := fun hsame =>
      distinct.1 (hsame ▸ List.mem_map_of_mem (f := (·.id)) hj)
    simp only [List.mem_cons, hne, false_or]
  | case4 n i rest hother rows taken heq ih =>
    rw [List.map_cons, List.nodup_cons] at distinct
    specialize ih distinct.2
    rw [heq] at ih
    rw [List.filter_cons_of_neg (by simpa using hother), List.map_cons, ← ih, if_neg]
    intro htaken
    obtain ⟨k, hk, hsame⟩ := List.mem_map.mp htaken
    have hrest : k ∈ rest := List.mem_of_mem_filter (List.mem_of_mem_take hk)
    exact distinct.1 (hsame ▸ List.mem_map_of_mem (f := (·.id)) hrest)

/-- A batch is the first of the queue. -/
theorem claim_eq {s : Store} (ordered : s.Ordered) (batch : Int) :
    s.claim batch =
      ({ s with
          jobs := s.jobs.map fun j =>
            if j.id ∈ (s.queue.take (max 1 batch).toNat).map (·.id) then j.begun else j },
        (s.queue.take (max 1 batch).toNat).map (·.job .inProgress)) := by
  unfold claim
  simp only [claimRows_fst _ ordered.nodup, claimRows_snd, List.map_map]
  rfl

theorem queue_claim (s : Store) (batch : Int) :
    (s.claim batch).1.queue = s.queue.drop (max 1 batch).toNat :=
  queued_claimRows _ s.jobs

namespace Ordered

variable {s : Store}

theorem queue (h : s.Ordered) : s.queue.Pairwise fun j k => j.id < k.id :=
  h.sublist List.filter_sublist

/-- The jobs of a batch stand in the order of their numbers. -/
theorem claimed (h : s.Ordered) (batch : Int) :
    (s.claim batch).2.Pairwise fun a b => a.id < b.id := by
  rw [claim_eq h]
  exact List.pairwise_map.mpr (h.queue.sublist (List.take_sublist _ _))

theorem claim (h : s.Ordered) (batch : Int) : (s.claim batch).1.Ordered := by
  have hids : ((s.claim batch).1.jobs.map (·.id)).Pairwise (· < ·) := by
    rw [id_claim]
    exact List.pairwise_map.mpr h
  exact List.pairwise_map.mp hids

end Ordered

/-- Whatever order the rows of a batch come back in, the same jobs are made
of them. -/
theorem handOut_perm {taken rows : List Row} (sorted : taken.Pairwise fun j k => j.id < k.id)
    (back : rows.Perm (taken.map Row.begun)) :
    handOut rows = taken.map (·.job .inProgress) := by
  have hread : legible ((taken.map Row.begun).map Row.read) = taken.map (·.job .inProgress) := by
    have hsome : Except.toOption ∘ Row.read ∘ Row.begun = some ∘ fun j => j.job .inProgress :=
      funext fun j => congrArg Except.toOption j.read_begun
    rw [legible, List.map_map, List.filterMap_map, hsome, List.filterMap_eq_map]
  have hmixed : (legible (rows.map Row.read)).Perm (taken.map (·.job .inProgress)) :=
    hread ▸ (back.map Row.read).filterMap _
  exact mergeSort_key hmixed (List.pairwise_map.mpr sorted)

/-! ## All batches -/

/-- With a batch that is not empty fewer jobs wait. -/
theorem waiting_claim_lt {s s' : Store} {batch : Int} {job : Job} {rest : List Job}
    (h : s.claim batch = (s', job :: rest)) : s'.waiting < s.waiting := by
  have hwaiting := s.waiting_claim batch
  simp only [h, List.length_cons] at hwaiting
  omega

/-- Batches are handed out one after the other, each of its own size, until
one is empty: all jobs that were handed out. -/
def claimAll (s : Store) (batches : Nat → Int) : Store × List Job :=
  match hclaim : s.claim (batches 0) with
  | (s', []) => (s', [])
  | (s', job :: rest) =>
    have := waiting_claim_lt hclaim
    let (t, later) := s'.claimAll fun i => batches (i + 1)
    (t, job :: rest ++ later)
termination_by s.waiting

theorem claimAll_eq (s : Store) (batches : Nat → Int) :
    s.claimAll batches
      = if (s.claim (batches 0)).2 = [] then s.claim (batches 0)
        else
          let later := (s.claim (batches 0)).1.claimAll fun i => batches (i + 1)
          (later.1, (s.claim (batches 0)).2 ++ later.2) := by
  rw [claimAll]
  split
  · rename_i s' hclaim
    simp only [hclaim, if_true]
  · rename_i s' job rest hclaim
    simp only [hclaim, List.cons_ne_nil job rest, if_false]

/-- Once a batch is empty every job of the queue was handed out, in its
order. -/
theorem claimAll_ordered {s : Store} (ordered : s.Ordered) (batches : Nat → Int) :
    s.claimAll batches =
      ({ s with
          jobs := s.jobs.map fun j => if j.state = Progress.queued.tag then j.begun else j },
        s.queue.map (·.job .inProgress)) := by
  induction hn : s.waiting using Nat.strongRecOn generalizing s batches with
  | ind n ih =>
    have hall := s.waiting_claim (batches 0)
    rw [claimAll_eq]
    by_cases hjobs : (s.claim (batches 0)).2 = []
    · have hnone : s.queue = [] := by
        rw [claim_eq ordered, List.map_eq_nil_iff, List.take_eq_nil_iff] at hjobs
        exact hjobs.resolve_left (by omega)
      have hkept : ∀ j ∈ s.jobs, ¬ j.state = Progress.queued.tag := by
        simpa [Store.queue, List.filter_eq_nil_iff] using hnone
      rw [if_pos hjobs, claim_eq ordered, hnone]
      simp only [List.take_nil, List.map_nil, List.not_mem_nil, if_false, Prod.mk.injEq, and_true]
      congr 1
      exact List.map_congr_left fun j hj => (if_neg (hkept j hj)).symm
    · have hpos := List.length_pos_iff.mpr hjobs
      rw [if_neg hjobs, ih _ (by omega) (ordered.claim (batches 0)) _ rfl, queue_claim,
        claim_eq ordered]
      simp only [← List.map_append, List.take_append_drop, List.map_map, Prod.mk.injEq, and_true]
      congr 1
      refine List.map_congr_left fun j hj => ?_
      simp only [Function.comp]
      split
      · rename_i hid
        -- a row that was handed out was in the queue, and is not any more
        obtain ⟨k, hk, hsame⟩ := List.mem_map.mp hid
        have hkqueue := List.mem_of_mem_take hk
        have hkmem : k ∈ s.jobs ∧ k.state = Progress.queued.tag := by
          simpa [Store.queue] using hkqueue
        obtain rfl := List.inj_on_of_nodup_map ordered.nodup hkmem.1 hj hsame
        rw [if_neg k.begun_ne_queued, if_pos hkmem.2]
      · rfl

/-- **A batch, and all batches.** A batch is the rows of the queue with the
lowest numbers, as many as were asked for, but one at least, or all there
are. They are put in progress, and no other row and nothing else of the store
is changed. Whatever order they come back in, none of them is passed over,
and each is handed out in the order of the numbers with its rule, its tag and
its time. It has the parameters that are decoded from the value that is read;
it has none if the value nests too deep to be read, has a number that is out
of range, or is not decoded. Batches one after the other, of whatever sizes,
hand every job of the queue out once, and none is left when a batch is
empty. -/
theorem claim_exact {s : Store} (ordered : s.Ordered) (batch : Int) :
    let taken := s.queue.take (max 1 batch).toNat
    taken.length = min (max 1 batch).toNat (s.jobs.countP fun j => j.state = Progress.queued.tag)
      ∧ (∀ j ∈ taken, ∀ k ∈ s.queue, k ∉ taken → j.id < k.id)
      ∧ (s.claim batch).1 = { s with
          jobs := s.jobs.map fun j => if j.id ∈ taken.map (·.id) then j.begun else j }
      ∧ (s.claim batch).2 = taken.map (·.job .inProgress)
      ∧ ((s.claim batch).2.Pairwise fun a b => a.id < b.id)
      ∧ (∀ j ∈ taken, j.begun.read = .ok (j.job .inProgress))
      ∧ (∀ j ∈ taken, ∀ p, (j.job .inProgress).params = some p ↔
          ∃ v, j.params.read = .ok v ∧ (Payload.value v).params = .ok p)
      ∧ (∀ j ∈ taken, (∃ v, j.params.read = .ok v) ↔ j.params.depth ≤ 127 ∧ j.params.InRange)
      ∧ (∀ rows, rows.Perm (taken.map Row.begun) → handOut rows = (s.claim batch).2)
      ∧ ∀ batches, s.claimAll batches =
          ({ s with
              jobs := s.jobs.map fun j => if j.state = Progress.queued.tag then j.begun else j },
            s.queue.map (·.job .inProgress)) := by
  intro taken
  have hsorted : taken.Pairwise fun j k => j.id < k.id :=
    ordered.queue.sublist (List.take_sublist _ _)
  have hclaim := claim_eq ordered batch
  refine ⟨?_, ?_, congrArg Prod.fst hclaim, congrArg Prod.snd hclaim, ordered.claimed batch,
    fun j _ => j.read_begun, fun j _ p => j.params?_eq_some, fun j _ => j.params.read_isOk_iff,
    fun rows back => ?_, claimAll_ordered ordered⟩
  · rw [List.length_take, length_queue]
    rfl
  · intro j hj k hk hleft
    have hsplit := ordered.queue
    rw [← List.take_append_drop (max 1 batch).toNat s.queue] at hsplit hk
    exact (List.pairwise_append.mp hsplit).2.2 j hj k ((List.mem_append.mp hk).resolve_left hleft)
  · rw [hclaim]
    exact handOut_perm hsorted back

/-- A value that nests as deep as one likes. -/
def nested : Nat → Stored
  | 0 => .null
  | n + 1 => .array [nested n]

/-- Rows at all states, one of which stands for nothing. Of those that wait
only one has parameters: the first and the third are read and not decoded,
the fourth nests too deep, and the last has a number that is out of range. -/
def mixedRows : Store where
  jobs :=
    [⟨2, 1, 1, 0, .array [.int 1], ⟨10⟩⟩, ⟨3, 1, 1, 1, .null, ⟨20⟩⟩, ⟨5, 2, 7, 0,
      .object [("call_id", .string "five")], ⟨30⟩⟩, ⟨6, 1, 1, 4, .null, ⟨40⟩⟩,
      ⟨8, 9, 2, 0, .null, ⟨5⟩⟩,
      ⟨9, 1, 1, 0, .object [("call_id", .string "nine"), ("x", nested 127)], ⟨50⟩⟩,
      ⟨11, 1, 1, 0, .object [("call_id", .string "eleven"), ("x", .int (10 ^ 400))], ⟨60⟩⟩]

/-- Five jobs are handed out, and come back the other way round. Only the
second has parameters. -/
theorem claim_exact_mixed :
    mixedRows.Ordered
      ∧ (mixedRows.claim 5).2.map (fun a => (a.id, a.rule, a.tag, a.callId?))
        = [(2, 1, 1, none), (5, 2, 7, some "five"), (8, 9, 2, none), (9, 1, 1, none),
          (11, 1, 1, none)]
      ∧ handOut ((mixedRows.queue.map Row.begun).reverse) = (mixedRows.claim 5).2
      ∧ (mixedRows.claimAll fun _ => 0).2.map (·.id) = [2, 5, 8, 9, 11] := by
  have ordered : mixedRows.Ordered := by decide
  obtain ⟨-, -, -, hjobs, -, -, -, -, hback, hall⟩ := claim_exact ordered 5
  refine ⟨ordered, ?_, hback _ (List.reverse_perm _), ?_⟩
  · rw [hjobs]
    decide +kernel
  · rw [hall]
    decide +kernel

end Store

end CallAudit
