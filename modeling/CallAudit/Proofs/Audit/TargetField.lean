/-
CallAudit.Proofs.Audit.TargetField — a call that was summed up has the field
its rule looks for.

A rule with a target field leaves out the calls that have this field, and a
summary sets it. That the two agree on the name is not plain: the name is
trimmed once when jobs are made and once more when the summary is delivered,
and there are two names that a summary sets in any case.

* `nodup_summaryVariables`, `filter_summaryVariables` — the variables that a
  summary sets have different names, one of which is the name of the field.
* `Sets` — the exchanges of an audit whose one change to a call is to set
  some variables. `sets_of_delivered` says so of each audit that delivers
  something without a form.
* `Keeps`, `patched` — what the history makes of it: a call has the
  variables as fields.
* `not_given_after_summary` — all together, for the jobs of a rule and
  whatever services answer.
-/
import CallAudit.Proofs.Audit.Steps
import CallAudit.Proofs.Job.Handover

namespace CallAudit

open CallAudit.Http (Exchange Method Reply Request Session noted)
open CallAudit.Json (Stored)

/-- The name of a target field has no blanks around it. -/
theorem Rule.nonBlank_targetField {r : Rule} {name : String} (h : r.targetField = some name) :
    Text.nonBlank name = some name := by
  obtain ⟨_, -, hname⟩ := Option.bind_eq_some_iff.mp h
  exact Text.nonBlank_idem hname

/-! ## The variables of a summary -/

section Variables

variable (p : Params) (summary category : String)

/-- A summary sets no variable twice. -/
theorem nodup_summaryVariables : ((summaryVariables p summary category).map Prod.fst).Nodup := by
  have hnames : categoryVariable ≠ summaryVariable := by decide
  rw [summaryVariables]
  cases htarget : (p.target.bind Text.nonBlank).filter fun name =>
      name ≠ summaryVariable && name ≠ categoryVariable with
  | none => simp [hnames]
  | some name =>
    obtain ⟨-, hother⟩ := Option.filter_eq_some_iff.mp htarget
    simp only [Bool.and_eq_true, decide_eq_true_eq] at hother
    simp [hnames, Ne.symm hother.1, Ne.symm hother.2]

/-- A summary sets the target field: to the category if it is the field of
the category, and to the summary otherwise. -/
theorem filter_summaryVariables {name : String} (h : p.target.bind Text.nonBlank = some name) :
    (summaryVariables p summary category).filter (fun v => v.1 = name)
      = [(name, if name = categoryVariable then category else summary)] := by
  have hnames : summaryVariable ≠ categoryVariable := by decide
  rw [summaryVariables, h]
  by_cases hcategory : name = categoryVariable
  · simp [hcategory, hnames, Option.filter]
  · by_cases hsummary : name = summaryVariable
    · simp [hsummary, hnames, Ne.symm hnames, Option.filter]
    · simp [hcategory, hsummary, Ne.symm hcategory, Ne.symm hsummary, Option.filter]

end Variables

/-! ## Setting them -/

/-- Some variables of a call were set by the last of some exchanges, with
success, and no exchange before it was a change to a call. -/
def Sets (a : Auditor) (call : String) (values : List (String × String)) (log : List Exchange) :
    Prop :=
  ∃ before reply,
    log = before ++ [(CallHistory.requestTo a.services .patch
        (Text.fill a.services.endpoints.patch "\x7buuid\x7d" call)
        (some (CallHistory.patchBody values)), reply)]
      ∧ (∀ x ∈ before, x.1.method ≠ .patch) ∧ reply.any (·.isSuccess) = true

section Delivering

variable {a : Auditor} {p : Params} {log : List Exchange} {d : Delivery}

/-- An audit without a form that delivers something has summed its call
up. -/
theorem sets_of_audit (hform : p.form? = none) (h : (a.audit p p.call).Goes log (.ok d)) :
    ∃ summary category, d = .summary summary category
      ∧ Sets a p.call (summaryVariables p summary category) log := by
  obtain ⟨before, after, rfl, hbefore, ⟨-, _, herror⟩ | ⟨dialogue, hsums⟩⟩ :=
    summing_of_audit hform h
  · cases herror
  cases hsums with
  | @accepted key text reply answer hkey hsaid hlabels hanswer =>
    refine ⟨_, _, rfl, before ++ [(a.summaryQuestion p key dialogue, reply)], answer, ?_, ?_, hanswer⟩
    · rw [List.append_assoc]
      rfl
    · refine List.forall_mem_append.mpr ⟨fun x hx => (hbefore x hx).2, ?_⟩
      simp [Auditor.summaryQuestion, LanguageModel.chatRequest]

/-- A run that delivers something for a job without a form has summed up the
call of the job. -/
theorem sets_of_delivered {job : Job} (hparams : job.params = some p) (hform : p.form? = none)
    {σ : Type} (serve : σ → Request → Reply × σ) (s : σ) (g : Guard)
    (h : ((Run.new job).finish a (noted serve) (s, []) g).1.outcome? = some (.delivered d)) :
    ∃ summary category, d = .summary summary category
      ∧ Sets a p.call (summaryVariables p summary category)
          ((Run.new job).finish a (noted serve) (s, []) g).2.2.2 := by
  obtain ⟨q, hq, haudit⟩ := audit_of_delivered h
  obtain rfl : p = q := Option.some.inj (hparams.symm.trans hq)
  exact sets_of_audit hform haudit

end Delivering

/-! ## The fields of a call -/

namespace Store

/-- A call has some variables as fields. -/
def Keeps (s : Store) (call : String) (values : List (String × String)) : Prop :=
  ∀ c ∈ s.calls, c.id = call → ∀ v ∈ values, hasField c v.1 = true

/-- The members of a payload with some variables among them. -/
def withVariables (members : List (String × Stored)) (values : List (String × String)) :
    List (String × Stored) :=
  values.foldl (fun members v => Stored.insertMember (v.1, .string v.2) members) members

/-- What the history makes of the variables of a call: they are fields of
its payload. -/
def patched (s : Store) (call : String) (values : List (String × String)) : Store :=
  let set (c : Call) : Call :=
    let members := match c.payload with
      | some (.object members) => members
      | _ => []
    { c with payload := some (.object (withVariables members values)) }
  { s with calls := s.calls.map fun c => if c.id = call then set c else c }

/-- Variables that are set are there, whatever is set after them. -/
theorem mem_names_withVariables (name : String) (values : List (String × String)) :
    ∀ members : List (String × Stored), name ∈ (withVariables members values).map Prod.fst ↔
      (∃ v ∈ values, v.1 = name) ∨ name ∈ members.map Prod.fst := by
  induction values with
  | nil => simp [withVariables]
  | cons v rest ih =>
    intro members
    rw [withVariables, List.foldl_cons, ← withVariables, ih, Stored.mem_names_insertMember,
      or_left_comm, ← or_assoc]
    simp only [List.mem_cons, exists_eq_or_imp]

/-- The history keeps the variables that it is told. -/
theorem keeps_patched (s : Store) (call : String) (values : List (String × String)) :
    (s.patched call values).Keeps call values := by
  intro c hc hid v hv
  obtain ⟨old, -, rfl⟩ := List.mem_map.mp hc
  split at hid
  · rename_i hold
    simp only [hasField, if_pos hold, Option.bind_some]
    exact Stored.isSome_get?.mpr ((mem_names_withVariables v.1 values _).mpr (Or.inl ⟨v, hv, rfl⟩))
  · contradiction

/-- A rule gives no job to a call that has its target field. -/
theorem not_gives_of_hasField {s : Store} {r : Rule} {name call : String}
    (target : r.targetField = some name)
    (h : ∀ c ∈ s.calls, c.id = call → hasField c name = true) (limit : Int) :
    ¬ s.Gives r limit call := by
  rintro ⟨j, hj, hsub⟩
  obtain ⟨hmem, hnew⟩ := mem_of_arrivals hj
  rw [enqueueFor_fst] at hmem
  obtain ⟨w, hw, hwsub, -⟩ :=
    subject_newRows.mp ⟨j, (List.mem_append.mp hmem).resolve_left hnew, hsub, rfl⟩
  obtain ⟨hc, hwanted⟩ := wanted_of_mem_backlog (mem_backlog_of_mem_chosen hw)
  obtain ⟨-, -, -, hpasses, -⟩ := wanted?_eq_some.mp hwanted
  have hfield := h w.call hc (by simpa using hwsub)
  simp [passes, target, hfield] at hpasses

end Store

/-! ## A call is summed up once -/

namespace Connection

open Store

/-- **Summed up once.** Give jobs to a rule with a target field and no form.
Whenever the job of a row that arrives is handed out and its audit delivers
something, whatever services answer, the variables of its call are set:
their names are different, and one of them is the target field, with the
category as its value if it is the field of the category and the summary
otherwise. As long as the call keeps these variables, no rule with this
target field gives it a job again, whatever became of the jobs and of the
watermark. -/
theorem not_given_after_summary {c : Connection} (numbered : c.store.Numbered) {r : Rule}
    {name : String} (target : r.targetField = some name)
    (formless : r.scorecard.filter (· ≠ 0) = none) {limit : Int} :
    ∀ j ∈ c.store.arrivals (c.enqueueFor r limit).2.store,
      ∃ call ∈ c.store.calls, j.subject = (r.id, some call.id) ∧
        ∀ ops, ∀ x ∈ (c.enqueueFor r limit).2.trace ops, ∀ job ∈ x.1.handedOut x.2, job.id = j.id →
        ∀ (a : Auditor) (σ : Type) (serve : σ → Request → Reply × σ) (s : σ) (g : Guard) d,
          ((Run.new job).finish a (noted serve) (s, []) g).1.outcome? = some (.delivered d) →
          ∃ summary category values, d = .summary summary category
            ∧ Sets a (Text.trimmed call.id) values
                ((Run.new job).finish a (noted serve) (s, []) g).2.2.2
            ∧ (values.map Prod.fst).Nodup
            ∧ values.filter (fun v => v.1 = name)
                = [(name, if name = categoryVariable then category else summary)]
            ∧ ∀ later : Store, later.Keeps call.id values →
                ∀ r' : Rule, r'.targetField = some name → ∀ limit' : Int,
                  ¬ later.Gives r' limit' call.id := by
  intro j hj
  obtain ⟨hstore, hnew⟩ := mem_newRows_of_arrivals numbered hj
  obtain ⟨w, hw, position, -, -, hrow⟩ := mem_rowsFor _ _ _ _ j hnew
  obtain ⟨call, hcall, hwanted⟩ := mem_backlog.mp (mem_backlog_of_mem_chosen hw)
  obtain ⟨rfl, -⟩ := wanted?_eq_some.mp hwanted
  refine ⟨w.call, hcall, by rw [hrow, Row.subject, memberText_paramsFor], ?_⟩
  intro ops x hx job hjob hid a σ serve s g d hdelivered
  have hafter : (c.enqueueFor r limit).2.store.Numbered := hstore ▸ numbered.enqueueFor r limit
  have hmem : j ∈ (c.enqueueFor r limit).2.store.jobs := by
    rw [hstore]
    exact List.mem_append_right _ hnew
  obtain rfl := job_of_handedOut hafter hmem hx hjob hid
  cases hparams : (j.job .inProgress).params with
  | none =>
    -- a job that cannot be read is rejected
    simp [Run.finish, receive, hparams, Run.outcome?] at hdelivered
  | some p =>
    obtain ⟨t, u, rfl⟩ := snapshot_of_params? (congrArg Row.params hrow) hparams
    obtain ⟨summary, category, rfl, hsets⟩ :=
      sets_of_delivered hparams formless serve s g hdelivered
    have hname : r.targetField.bind Text.nonBlank = some name := by
      rw [target, Option.bind_some, Rule.nonBlank_targetField target]
    have hfilter := filter_summaryVariables (snapshot r w position t u) summary category hname
    refine ⟨summary, category, _, rfl, hsets, nodup_summaryVariables _ _ _, hfilter, ?_⟩
    intro later keeps r' target' limit'
    refine not_gives_of_hasField target' (fun c hc hid => ?_) limit'
    have hset : (name, if name = categoryVariable then category else summary)
        ∈ summaryVariables (snapshot r w position t u) summary category :=
      List.mem_of_mem_filter (hfilter ▸ List.mem_singleton_self _)
    exact keeps c hc hid _ hset

/-- A rule that marks its calls with a field, whose name it has blanks
around. -/
def markingRule : Rule :=
  { soleRule.view 0 with target := some " audited " }

/-- The only call is summed up and has the field then, with the summary in
it; before, it is given a job. -/
theorem not_given_after_summary_sole :
    let c : Connection := { store := oneCall }
    oneCall.Gives markingRule 1 "older" ∧
      ∃ job ∈ (c.enqueueFor markingRule 1).2.handedOut (.claim 1), ∃ values,
        Sets obligedAuditor "older" values
            ((Run.new job).finish obligedAuditor (noted oblige) ((), []) .empty).2.2.2
          ∧ values.filter (fun v => v.1 = "audited") = [("audited", "fine")]
          ∧ ¬ (oneCall.patched "older" values).Gives markingRule 1 "older" := by
  intro c
  obtain ⟨j, hj, hid⟩ : ∃ j ∈ c.store.arrivals (c.enqueueFor markingRule 1).2.store,
    j.id = 1 := by decide +kernel
  obtain ⟨job, hjob, hsame, hdelivered⟩ :
      ∃ job ∈ (c.enqueueFor markingRule 1).2.handedOut (.claim 1), job.id = 1
        ∧ ((Run.new job).finish obligedAuditor (noted oblige) ((), []) .empty).1.outcome?
            = some (.delivered (.summary "fine" "")) := by decide +kernel
  obtain ⟨call, hcall, -, hlater⟩ := not_given_after_summary (c := c) ⟨by decide, by decide⟩
    (r := markingRule) (by decide : markingRule.targetField = some "audited") rfl j hj
  obtain rfl := List.mem_singleton.mp hcall
  obtain ⟨_, _, values, hd, hsets, -, hfilter, hnever⟩ := hlater [.claim 1] _ List.mem_cons_self job
    hjob (hsame.trans hid.symm) obligedAuditor Unit oblige () .empty _ hdelivered
  cases hd
  exact ⟨by decide +kernel, job, hjob, values, hsets, hfilter,
    hnever _ (keeps_patched oneCall "older" values) markingRule (by decide) 1⟩

end Connection

end CallAudit
