/-
CallAudit.Proofs.Store.Backlog — which calls a rule is given jobs for.

* `Row.subject` — the rule and the call a row is about. Two rows of one
  subject are two jobs for one call under one rule.
* `Row.params?_eq_some` — which parameters a row has for whoever reads it.
* `Store.Seeks` — a rule seeks a call: it passes the filters, has a
  recording and was stored after the point the rule resumes from. Jobs play
  no part in it, so over rules and calls that nobody edits it is a fact
  about the start of a run.
* `wanted?_eq_some`, `mem_backlog`: what the backlog of a rule holds.
* `mem_chosen_of_lt`: a limit cuts the backlog at a point in time. A call
  that is stored before a chosen one, and is in the backlog, is chosen too.
* `exists_rowsFor_iff`, `nodup_subject_rowsFor`: the rows for some calls are
  one for each of them; `subject_newRows` and `nodup_subject_newRows` say it
  of the rows inserted for a rule.
-/
import CallAudit.Proofs.Results
import CallAudit.Proofs.Store.Watermark
import CallAudit.Store.Enqueue
import Mathlib.Data.List.Nodup

namespace CallAudit

open CallAudit.Json (Stored)
open CallAudit.Time (Instant)

/-! ## What a row is about -/

namespace Row

/-- The rule and the call a row is about. -/
def subject (j : Row) : Int × Option String :=
  (j.rule, j.params.memberText "call_id")

/-- The parameters of a row are those of the value that is read from it. -/
theorem params?_eq_some {j : Row} {p : Params} :
    j.params? = some p ↔ ∃ v, j.params.read = .ok v ∧ (Payload.value v).params = .ok p := by
  simp [params?, Cell.payload?, Job.paramsOf, Option.bind_eq_some_iff, toOption_eq_some]

/-- A row but for its state, which is all that handing a job out or marking
it done changes. -/
def bare (j : Row) : Row :=
  { j with state := 0 }

@[simp] theorem bare_id (j : Row) : j.bare.id = j.id := rfl
@[simp] theorem bare_storedAt (j : Row) : j.bare.storedAt = j.storedAt := rfl
@[simp] theorem bare_subject (j : Row) : j.bare.subject = j.subject := rfl

theorem id_eq_of_bare {j k : Row} (h : k.bare = j.bare) : k.id = j.id := by
  simpa using congrArg Row.id h

theorem storedAt_eq_of_bare {j k : Row} (h : k.bare = j.bare) : k.storedAt = j.storedAt := by
  simpa using congrArg Row.storedAt h

theorem subject_eq_of_bare {j k : Row} (h : k.bare = j.bare) : k.subject = j.subject := by
  simpa using congrArg Row.subject h

theorem eq_of_bare {j k : Row} (h : k.bare = j.bare) : j = { k with state := j.state } := by
  cases j
  cases k
  simp only [bare, mk.injEq] at h
  obtain ⟨rfl, rfl, rfl, -, rfl, rfl⟩ := h
  rfl

/-- The job of a row does not depend on its state. -/
theorem job_eq_of_bare {j k : Row} (h : k.bare = j.bare) (p : Progress) : k.job p = j.job p :=
  show k.bare.job p = j.bare.job p by rw [h]

end Row

namespace Store

/-! ## The calls a rule seeks -/

/-- What the tables promise: no two rules and no two calls have one
identifier. -/
structure Keyed (s : Store) : Prop where
  rules : (s.rules.map (·.id)).Nodup
  calls : (s.calls.map (·.id)).Nodup

/-- A rule seeks a call that was stored at `t`: the call passes the filters
of the rule, has a recording, and was stored after the point the rule
resumes from. -/
structure Seeks (s : Store) (e : RuleEntry) (c : Call) (t : Instant) : Prop where
  rule : e ∈ s.rules
  call : c ∈ s.calls
  passes : passes (e.view 0) c = true
  recorded : (s.recordingOf? c).isSome = true
  stored : c.storedAt = some t
  after : e.resumeAt < t

theorem domain_of_passes {r : Rule} {c : Call} (h : passes r c = true) : c.domain = r.domain := by
  simp only [passes, Bool.and_eq_true, decide_eq_true_eq] at h
  exact h.1.1.1.1

theorem hasJob_iff {s : Store} {rule : Int} {call : String} :
    s.hasJob rule call = true ↔ ∃ j ∈ s.jobs, j.subject = (rule, some call) := by
  simp [hasJob, Row.subject]

theorem hasJob_eq_false_iff {s : Store} {rule : Int} {call : String} :
    s.hasJob rule call = false ↔ ∀ j ∈ s.jobs, j.subject ≠ (rule, some call) := by
  rw [Bool.eq_false_iff, ne_eq, hasJob_iff]
  simp

theorem recordingOf?_eq_some {s : Store} {c : Call} {id : Int} (h : s.recordingOf? c = some id) :
    ∃ f ∈ s.recordings, f.id = id ∧ f.domain = c.domain ∧ f.call = c.id := by
  obtain ⟨f, hf, hid⟩ := Option.map_eq_some_iff.mp h
  have hof := List.find?_some hf
  simp only [Bool.and_eq_true, decide_eq_true_eq] at hof
  exact ⟨f, List.mem_of_find?_eq_some hf, hid, hof⟩

/-- Nothing of a call is kept back or made up: it is wanted exactly if every
condition of the statement holds of it. -/
theorem wanted?_eq_some {s : Store} {r : Rule} {c : Call} {w : Wanted} :
    s.wanted? r c = some w ↔
      w.call = c ∧ c.storedAt = some w.storedAt ∧ s.recordingOf? c = some w.recording
        ∧ passes r c = true ∧ r.resumeAt < w.storedAt ∧ s.hasJob r.id c.id = false := by
  obtain ⟨wc, wt, wr⟩ := w
  unfold wanted?
  constructor
  · intro h
    simp only [Option.bind_eq_bind, Option.bind_eq_some_iff] at h
    obtain ⟨t, ht, f, hf, h⟩ := h
    split at h
    · rename_i hall
      simp only [Bool.and_eq_true, decide_eq_true_eq, Bool.not_eq_true'] at hall
      simp only [Option.some.injEq, Wanted.mk.injEq] at h
      obtain ⟨rfl, rfl, rfl⟩ := h
      exact ⟨rfl, ht, hf, hall.1.1, hall.1.2, hall.2⟩
    · cases h
  · rintro ⟨rfl, ht, hf, hp, hlt, hno⟩
    simp only at ht hf hlt
    simp [ht, hf, hp, hlt, hno]

theorem mem_backlog {s : Store} {r : Rule} {w : Wanted} :
    w ∈ s.backlog r ↔ ∃ c ∈ s.calls, s.wanted? r c = some w := by
  simp [backlog, List.mem_filterMap]

theorem wanted_of_mem_backlog {s : Store} {r : Rule} {w : Wanted} (h : w ∈ s.backlog r) :
    w.call ∈ s.calls ∧ s.wanted? r w.call = some w := by
  obtain ⟨c, hc, hwanted⟩ := mem_backlog.mp h
  obtain ⟨rfl, -⟩ := wanted?_eq_some.mp hwanted
  exact ⟨hc, hwanted⟩

/-- The backlog has the oldest calls first. -/
theorem backlog_pairwise (s : Store) (r : Rule) :
    (s.backlog r).Pairwise fun a b => a.storedAt ≤ b.storedAt := by
  let le (a b : Wanted) : Bool := a.storedAt ≤ b.storedAt
  have htrans : ∀ a b c, le a b → le b c → le a c := by
    intro a b c hab hbc
    simp only [le, decide_eq_true_eq] at hab hbc ⊢
    exact Instant.le_trans hab hbc
  have htotal : ∀ a b, le a b || le b a := by
    intro a b
    simp only [le, Bool.or_eq_true, decide_eq_true_eq, Instant.le_iff_ticks]
    omega
  have hsorted := List.pairwise_mergeSort htrans htotal (s.calls.filterMap (s.wanted? r))
  exact hsorted.imp fun hab => by simpa [le] using hab

/-- No call is in the backlog twice. -/
theorem nodup_backlog {s : Store} (keys : s.Keyed) (r : Rule) :
    ((s.backlog r).map (·.call.id)).Nodup := by
  have hperm : ((s.backlog r).map (·.call.id)).Perm
      ((s.calls.filterMap (s.wanted? r)).map (·.call.id)) :=
    (List.mergeSort_perm _ _).map _
  rw [hperm.nodup_iff]
  have hsub : ∀ cs : List Call,
      ((cs.filterMap (s.wanted? r)).map (·.call.id)).Sublist (cs.map (·.id)) := by
    intro cs
    induction cs with
    | nil => simp
    | cons c rest ih =>
      cases hw : s.wanted? r c with
      | none => simpa [List.filterMap_cons, hw] using ih.cons c.id
      | some w =>
        have hc : w.call = c := (wanted?_eq_some.mp hw).1
        simpa [List.filterMap_cons, hw, hc] using ih
  exact (hsub s.calls).nodup keys.calls

/-! ## The calls within a limit -/

theorem mem_backlog_of_mem_chosen {s : Store} {r : Rule} {limit : Int} {w : Wanted}
    (h : w ∈ s.chosen r limit) : w ∈ s.backlog r :=
  List.mem_of_mem_take h

/-- What is stored before a chosen call is chosen, if it is in the backlog
at all. -/
theorem mem_chosen_of_lt {s : Store} {r : Rule} {limit : Int} {v w : Wanted}
    (hw : w ∈ s.chosen r limit) (hv : v ∈ s.backlog r) (hlt : v.storedAt < w.storedAt) :
    v ∈ s.chosen r limit := by
  unfold chosen at *
  have hsort := s.backlog_pairwise r
  rw [← List.take_append_drop limit.toNat (s.backlog r)] at hv hsort
  rcases List.mem_append.mp hv with hv | hv
  · exact hv
  · have hle := (List.pairwise_append.mp hsort).2.2 w hw v hv
    exact absurd hle (by rw [Instant.lt_iff_ticks] at hlt; rw [Instant.le_iff_ticks]; omega)

/-- With room for the whole backlog, all of it is chosen. -/
theorem chosen_eq_backlog {s : Store} {r : Rule} {limit : Int}
    (room : (s.backlog r).length ≤ limit) : s.chosen r limit = s.backlog r := by
  unfold chosen
  exact List.take_of_length_le (by omega)

theorem nodup_chosen {s : Store} (keys : s.Keyed) (r : Rule) (limit : Int) :
    ((s.chosen r limit).map (·.call.id)).Nodup :=
  ((List.take_sublist _ _).map _).nodup (nodup_backlog keys r)

/-! ## The rows that are inserted -/

/-- The parameters of a job in the order in which the table keeps them: the
shortest names first. -/
theorem paramsFor_eq (r : Rule) (w : Wanted) (position : Int) :
    paramsFor r w position = .object
      [("from", .string r.resumeAt.offsetText),
       ("token", .ofOption .string r.token),
       ("call_id", .string w.call.id),
       ("file_id", .int w.recording),
       ("position", .int position),
       ("variable", .ofOption .string r.targetField),
       ("scorecard", .ofOption .int r.scorecard),
       ("stored_at", .string w.storedAt.offsetText),
       ("cognitive_key", .ofOption .string r.cognitiveKey),
       ("call_direction", .ofOption .string r.directionFilter),
       ("default_prompt", .ofOption .string r.defaultPrompt),
       ("save_explanation", .bool r.saveExplanation),
       ("min_call_duration", .int r.minDuration)] := by
  simp +decide [paramsFor, Stored.objectOf, Stored.insertMember]

theorem memberText_paramsFor (r : Rule) (w : Wanted) (position : Int) :
    (paramsFor r w position).memberText "call_id" = some w.call.id := by
  simp [paramsFor_eq, Stored.memberText, Stored.get?]

theorem length_rowsFor (r : Rule) : ∀ (id position : Int) (ws : List Wanted),
    (rowsFor r id position ws).length = ws.length
  | _, _, [] => rfl
  | id, position, _ :: rest => by
      simp [rowsFor, length_rowsFor r (id + 1) (position + 1) rest]

theorem subject_rowsFor (r : Rule) : ∀ (id position : Int) (ws : List Wanted),
    (rowsFor r id position ws).map (fun j => (j.subject, j.storedAt))
      = ws.map fun w => ((r.id, some w.call.id), w.storedAt)
  | _, _, [] => rfl
  | id, position, w :: rest => by
      simp only [rowsFor, List.map_cons, subject_rowsFor r (id + 1) (position + 1) rest]
      simp [Row.subject, memberText_paramsFor]

theorem id_rowsFor (r : Rule) : ∀ (id position : Int) (ws : List Wanted),
    ∀ j ∈ rowsFor r id position ws, id ≤ j.id ∧ j.id < id + ws.length
  | _, _, [] => by simp [rowsFor]
  | id, position, w :: rest => by
      intro j hj
      simp only [rowsFor, List.mem_cons] at hj
      simp only [List.length_cons]
      rcases hj with rfl | hj
      · simp only
        omega
      · have := id_rowsFor r (id + 1) (position + 1) rest j hj
        omega

/-- A new row is the row of a call, at one of the places. -/
theorem mem_rowsFor (r : Rule) : ∀ (id position : Int) (ws : List Wanted),
    ∀ j ∈ rowsFor r id position ws, ∃ w ∈ ws, ∃ p, position ≤ p ∧ p < position + ws.length
      ∧ j = { id := j.id, rule := r.id, tag := (Kind.ofForm r.scorecard).tag
              state := Progress.queued.tag, params := paramsFor r w p, storedAt := w.storedAt }
  | _, _, [] => by simp [rowsFor]
  | id, position, w :: rest => by
      intro j hj
      simp only [rowsFor, List.mem_cons] at hj
      simp only [List.length_cons]
      rcases hj with rfl | hj
      · exact ⟨w, List.mem_cons_self, position, Int.le_refl _, by omega, rfl⟩
      · obtain ⟨v, hv, p, hlo, hhi, hrow⟩ := mem_rowsFor r (id + 1) (position + 1) rest j hj
        exact ⟨v, List.mem_cons_of_mem w hv, p, by omega, by omega, hrow⟩

theorem state_rowsFor (r : Rule) (id position : Int) (ws : List Wanted) :
    ∀ j ∈ rowsFor r id position ws, j.state = Progress.queued.tag := by
  intro j hj
  obtain ⟨w, -, p, -, -, hrow⟩ := mem_rowsFor r id position ws j hj
  rw [hrow]

theorem params_rowsFor (r : Rule) (id position : Int) (ws : List Wanted) :
    ∀ j ∈ rowsFor r id position ws, ∃ w ∈ ws, ∃ p, position ≤ p ∧ p < position + ws.length
      ∧ j.params = paramsFor r w p := by
  intro j hj
  obtain ⟨w, hw, p, hlo, hhi, hrow⟩ := mem_rowsFor r id position ws j hj
  exact ⟨w, hw, p, hlo, hhi, congrArg Row.params hrow⟩

/-- The numbers of new rows ascend. -/
theorem ascending_rowsFor (r : Rule) : ∀ (id position : Int) (ws : List Wanted),
    (rowsFor r id position ws).Pairwise fun j k => j.id < k.id
  | _, _, [] => .nil
  | id, position, w :: rest => by
      refine List.pairwise_cons.mpr ⟨fun k hk => ?_, ascending_rowsFor r (id + 1) (position + 1) rest⟩
      have := id_rowsFor r (id + 1) (position + 1) rest k hk
      simp only
      omega

theorem nodup_id_rowsFor (r : Rule) (id position : Int) (ws : List Wanted) :
    ((rowsFor r id position ws).map (·.id)).Nodup :=
  List.pairwise_map.mpr ((ascending_rowsFor r id position ws).imp fun hlt => by omega)

/-- There is a row for a subject and a time exactly if there is such a
call. -/
theorem exists_rowsFor_iff {r : Rule} {id position : Int} {ws : List Wanted}
    {q : Int × Option String} {t : Instant} :
    (∃ j ∈ rowsFor r id position ws, j.subject = q ∧ j.storedAt = t) ↔
      ∃ w ∈ ws, (r.id, some w.call.id) = q ∧ w.storedAt = t := by
  have h : (q, t) ∈ (rowsFor r id position ws).map (fun j => (j.subject, j.storedAt)) ↔
      (q, t) ∈ ws.map fun w => ((r.id, some w.call.id), w.storedAt) := by
    rw [subject_rowsFor]
  simpa [List.mem_map, Prod.ext_iff] using h

/-- Rows for different calls have different subjects. -/
theorem nodup_subject_rowsFor (r : Rule) (id position : Int) {ws : List Wanted}
    (distinct : (ws.map (·.call.id)).Nodup) :
    ((rowsFor r id position ws).map Row.subject).Nodup := by
  have hfst := congrArg (List.map Prod.fst) (subject_rowsFor r id position ws)
  simp only [List.map_map, Function.comp_def] at hfst
  rw [hfst, show ws.map (fun w => (r.id, some w.call.id))
      = (ws.map (·.call.id)).map (fun call => (r.id, some call)) by simp]
  refine distinct.map fun a b hab => ?_
  simpa using hab

/-- The rows that jobs for a rule put into the store. -/
def newRows (s : Store) (r : Rule) (limit : Int) : List Row :=
  rowsFor r s.nextJob 1 (s.chosen r limit)

theorem enqueueFor_fst (s : Store) (r : Rule) (limit : Int) :
    (s.enqueueFor r limit).1
      = { s with
          jobs := s.jobs ++ s.newRows r limit
          nextJob := s.nextJob + (s.newRows r limit).length } := rfl

/-- There is a row for a subject and a time exactly if a call of it is
chosen. -/
theorem subject_newRows {s : Store} {r : Rule} {limit : Int} {q : Int × Option String}
    {t : Instant} :
    (∃ j ∈ s.newRows r limit, j.subject = q ∧ j.storedAt = t) ↔
      ∃ w ∈ s.chosen r limit, (r.id, some w.call.id) = q ∧ w.storedAt = t :=
  exists_rowsFor_iff

/-- No subject has two of the new rows. -/
theorem nodup_subject_newRows {s : Store} (keys : s.Keyed) (r : Rule) (limit : Int) :
    ((s.newRows r limit).map Row.subject).Nodup :=
  nodup_subject_rowsFor r _ _ (nodup_chosen keys r limit)

theorem id_newRows {s : Store} {r : Rule} {limit : Int} {j : Row}
    (hj : j ∈ s.newRows r limit) :
    s.nextJob ≤ j.id ∧ j.id < s.nextJob + (s.newRows r limit).length := by
  have h := id_rowsFor r s.nextJob 1 (s.chosen r limit) j hj
  rwa [← length_rowsFor r s.nextJob 1 (s.chosen r limit)] at h

end Store

end CallAudit
