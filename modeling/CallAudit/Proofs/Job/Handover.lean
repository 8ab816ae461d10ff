/-
CallAudit.Proofs.Job.Handover — whoever is handed a job gets what the
enqueuer gave it.

A job is written by one statement and read by another, much later, when only
its number is left to go by. In between rows are handed out, marked, dropped
and removed, so three things have to come together: the row is the one that
was inserted (`job_of_handedOut`), its parameters are read as they were
written (`params?_paramsFor`), and the job is worked on
(`not_rejected_of_names`).

* `isUuid`, `Kept`, `Store.Typed` — what the columns of the tables hold, as
  far as a job takes it over: identifiers are spelled in one way, and times
  are whole microseconds of the years from one to 9999.
* `handed_over` — the job, whenever it is handed out.
-/
import CallAudit.Audit.Desk
import CallAudit.Proofs.Http.Exchange
import CallAudit.Proofs.Store.Lifecycle
import CallAudit.Proofs.Store.SoleEnqueuer

namespace CallAudit

open CallAudit.Http (Reply Request)
open CallAudit.Text (isBlank trimmed)
open CallAudit.Time (Instant)

/-! ## Identifiers -/

/-- Whether a character is a digit of an identifier. -/
def isHexDigit (c : Char) : Bool :=
  Number.isDigit c || ('a' ≤ c && c ≤ 'f')

/-- Whether a text is the identifier of a call: thirty-two digits in five
groups. -/
def isUuid (s : String) : Bool :=
  s.toList.length = 36 && s.toList.zipIdx.all fun (c, i) =>
    if i ∈ [8, 13, 18, 23] then c = '-' else isHexDigit c

theorem isBlank_of_isHexDigit {c : Char} (h : isHexDigit c = true) : isBlank c = false := by
  rcases (Bool.or_eq_true _ _).mp h with hdigit | hletter
  · exact Text.isBlank_of_isDigit hdigit
  · simp only [Bool.and_eq_true, decide_eq_true_eq, Char.le_def, UInt32.le_iff_toNat_le] at hletter
    have hlo : 97 ≤ c.toNat := hletter.1
    have hhi : c.toNat ≤ 102 := hletter.2
    simp only [isBlank, Bool.or_eq_false_iff, Bool.and_eq_false_iff, decide_eq_false_iff_not,
      beq_eq_false_iff_ne]
    omega

/-- There are no blanks in an identifier. -/
theorem isBlank_of_isUuid {s : String} (h : isUuid s = true) :
    ∀ c ∈ s.toList, isBlank c = false := by
  intro c hc
  obtain ⟨i, hi⟩ := List.mem_iff_getElem?.mp hc
  simp only [isUuid, Bool.and_eq_true, List.all_eq_true] at h
  have hplace := h.2 (c, i) (List.mk_mem_zipIdx_iff_getElem?.mpr hi)
  simp only at hplace
  split at hplace
  · rw [of_decide_eq_true hplace]
    decide
  · exact isBlank_of_isHexDigit hplace

/-- An identifier names a call. -/
theorem namesCall_of_isUuid {p : Params} (h : isUuid p.callId = true) : p.namesCall = true := by
  have hcall : p.call = p.callId := Text.trimmed_eq_self (isBlank_of_isUuid h)
  have hlen : p.callId.toList.length = 36 := by
    simp only [isUuid, Bool.and_eq_true, decide_eq_true_eq] at h
    exact h.1
  rw [Params.namesCall, hcall, Bool.and_eq_true, decide_eq_true_eq, decide_eq_true_eq]
  constructor <;> intro hsame <;> simp [hsame] at hlen

/-! ## Times -/

namespace Time.Instant

/-- A time that is kept as it is and read back: whole microseconds of the
years from one to 9999. -/
structure Kept (t : Instant) : Prop where
  stored : t.stored = t
  year : 1 ≤ t.year ∧ t.year ≤ 9999

theorem nano_stored_lt (t : Instant) : t.stored.nano < 1000000000 := by
  simp only [stored, at_, nano, perSecond]
  omega

theorem Kept.read?_offsetText {t : Instant} (h : t.Kept) : read? t.offsetText = some t := by
  obtain ⟨u, hread, hsame⟩ := Instant.read?_offsetText h.year
  have hnano : t.nano < 1000000000 := h.stored ▸ t.nano_stored_lt
  rw [hread, hsame hnano]

end Time.Instant

/-! ## The tables -/

namespace Store

/-- What the columns of the tables hold. -/
structure Typed (s : Store) : Prop extends Columns s where
  names : ∀ c ∈ s.calls, isUuid c.id = true
  times : ∀ c ∈ s.calls, ∀ t ∈ c.storedAt, t.Kept
  resumes : ∀ e ∈ s.rules, e.resumeAt.Kept

/-- What a listed rule holds of the tables it was listed from. -/
theorem Typed.listed {s : Store} (h : s.Typed) {ceiling : Int} {r : Rule}
    (hr : r ∈ s.runnable ceiling) : r.Fits ∧ r.resumeAt.Kept := by
  obtain ⟨e, he, -, rfl⟩ := mem_runnable hr
  exact ⟨⟨(h.rules e he).minDuration, (h.rules e he).scorecard⟩, h.resumes e he⟩

/-- A row that arrives when a rule is given jobs is one of its new rows. -/
theorem mem_newRows_of_arrivals {c : Connection} (h : c.store.Numbered) {r : Rule} {limit : Int}
    {j : Row} (hj : j ∈ c.store.arrivals (c.enqueueFor r limit).2.store) :
    (c.enqueueFor r limit).2.store = (c.store.enqueueFor r limit).1
      ∧ j ∈ c.store.newRows r limit := by
  have hnone : ∀ {s : Store}, s.jobs = c.store.jobs → j ∉ c.store.arrivals s := fun hjobs hj => by
    rw [arrivals_eq_nil_of_bare (by rw [hjobs])] at hj
    cases hj
  rcases c.enqueueFor_store r limit with hs | hs | hs
  · exact absurd hj (hnone (by rw [hs]))
  · exact absurd hj (hnone (by rw [hs]))
  · refine ⟨hs, ?_⟩
    rwa [hs, arrivals_append rfl (h.enqueueFor r limit).distinct] at hj

end Store

/-! ## At work -/

/-- A job that names a call is never rejected, whatever is in hand and
whatever the services answer. -/
theorem not_rejected_of_names {job : Job} {p : Params} (hparams : job.params = some p)
    (names : p.namesCall = true) (a : Auditor) {σ : Type} (serve : σ → Request → Reply × σ) (s : σ)
    (g : Guard) (why : Rejection) :
    ((Run.new job).finish a serve s g).1.outcome? ≠ some (.rejected why) := by
  simp only [Run.finish, receive, hparams, names, if_true]
  cases g.admit? p.call with
  | none => exact fun h => Outcome.noConfusion (Option.some.inj h)
  | some g =>
    -- what an audit comes to is delivered or abandoned
    have hends : ((a.conduct p p.call).run serve s).1
        = .ofResult ((a.audit p p.call).run serve s).1 := by
      rw [Auditor.conduct, Http.Session.run_bind]
      rfl
    simp only [Run.outcome?, hends]
    cases ((a.audit p p.call).run serve s).1 <;>
      exact fun h => Outcome.noConfusion (Option.some.inj h)

/-- A rule has jobs of the kind that its form asks for. -/
theorem ofForm_eq_scorecard {form : Option Int} :
    Kind.ofTag? (Kind.ofForm form).tag = some .scorecard ↔ (form.filter (· ≠ 0)).isSome = true := by
  unfold Kind.ofForm
  split
  · rename_i h
    exact iff_of_true rfl h
  · rename_i h
    exact iff_of_false (by decide) h

namespace Connection

open Store

/-- **From the enqueuer to the worker.** Give jobs to a rule that was
listed. Every row that arrives is about a call of the domain of the rule and
a recording of it, and whenever its job is handed out, however late, the
parameters are the call, the recording and the rule as it was listed. Scores
are made of the call exactly if the parameters name a form, and the job is
never rejected. -/
theorem handed_over {listed : Store} (known : listed.Typed) {ceiling : Int} {r : Rule}
    (hr : r ∈ listed.runnable ceiling) {c : Connection} (numbered : c.store.Numbered)
    (typed : c.store.Typed) {limit : Int} (long : limit ≤ 9223372036854775807) :
    ∀ j ∈ c.store.arrivals (c.enqueueFor r limit).2.store,
      ∃ call ∈ c.store.calls, call.domain = r.domain ∧ ∃ t, call.storedAt = some t
        ∧ ∃ f ∈ c.store.recordings, f.domain = r.domain ∧ f.call = call.id ∧ ∃ position : Int,
        ∀ ops, ∀ x ∈ (c.enqueueFor r limit).2.trace ops, ∀ job ∈ x.1.handedOut x.2, job.id = j.id →
          job.rule = r.id ∧ job.storedAt = t
            ∧ job.params = some
              { callId := call.id, fileId := f.id, position := position, storedAt := t
                since := r.resumeAt, upTo := none, direction := r.directionFilter
                minDuration := r.minDuration, token := r.token, cognitiveKey := r.cognitiveKey
                defaultPrompt := r.defaultPrompt, saveExplanation := r.saveExplanation
                target := r.targetField, scorecard := r.scorecard }
            ∧ (job.kind? = some .scorecard ↔ (job.params.bind (·.form?)).isSome = true)
            ∧ ∀ (a : Auditor) (σ : Type) (serve : σ → Request → Reply × σ) (s : σ) (g : Guard) why,
                ((Run.new job).finish a serve s g).1.outcome? ≠ some (.rejected why) := by
  intro j hj
  obtain ⟨hstore, hnew⟩ := mem_newRows_of_arrivals numbered hj
  obtain ⟨fits, hresumes⟩ := known.listed hr
  obtain ⟨w, hw, position, hlo, hhi, hrow⟩ := mem_rowsFor _ _ _ _ j hnew
  obtain ⟨call, hcall, hwanted⟩ := mem_backlog.mp (mem_backlog_of_mem_chosen hw)
  obtain ⟨rfl, hstored, hrecorded, hpasses, -⟩ := wanted?_eq_some.mp hwanted
  obtain ⟨f, hf, hfile, hdomain, hof⟩ := recordingOf?_eq_some hrecorded
  have hsame : w.call.domain = r.domain := domain_of_passes hpasses
  have hposition : IsLong position := by
    -- positions are counted from one, and there are no more of them than the limit
    have hlen := List.length_take_le limit.toNat (c.store.backlog r)
    rw [chosen] at hhi
    constructor <;> omega
  have hrecording : IsLong w.recording := hfile ▸ typed.recordings f hf
  have hread : j.params? = some (snapshot r w position w.storedAt r.resumeAt) :=
    params?_paramsFor fits hrecording hposition
      (typed.times _ hcall _ hstored).read?_offsetText hresumes.read?_offsetText
      (congrArg Row.params hrow)
  refine ⟨w.call, hcall, hsame, w.storedAt, hstored, f, hf, hdomain.trans hsame, hof, position, ?_⟩
  intro ops x hx job hjob hid
  have hafter : (c.enqueueFor r limit).2.store.Numbered := hstore ▸ numbered.enqueueFor r limit
  have hmem : j ∈ (c.enqueueFor r limit).2.store.jobs := by
    rw [hstore]
    exact List.mem_append_right _ hnew
  obtain rfl := job_of_handedOut hafter hmem hx hjob hid
  have hparams : (j.job .inProgress).params
      = some (snapshot r w position w.storedAt r.resumeAt) := hread
  have hkind : (j.job .inProgress).kind? = Kind.ofTag? (Kind.ofForm r.scorecard).tag :=
    congrArg Kind.ofTag? (congrArg Row.tag hrow)
  refine ⟨congrArg Row.rule hrow, congrArg Row.storedAt hrow, ?_, ?_, ?_⟩
  · rw [hparams, hfile, snapshot]
  · rw [hkind, hparams]
    exact ofForm_eq_scorecard
  · intro a σ serve s g why
    exact not_rejected_of_names hparams (namesCall_of_isUuid (typed.names _ hcall)) a serve s g why

/-- The only call, with an identifier and a time as the tables have them. -/
def namedCall : Store :=
  { oneCall with
    calls := [{ olderCall with
      id := "0a1b2c3d-0000-4000-8000-00000000000f", storedAt := some ⟨10000⟩ }]
    recordings := [⟨7, 1, "0a1b2c3d-0000-4000-8000-00000000000f"⟩] }

theorem namedCall_typed : namedCall.Typed where
  rules := Shared.oneCall_columns.rules
  recordings := by simp [namedCall, IsLong]
  names := by decide
  times := by
    intro c hc t ht
    obtain rfl := List.mem_singleton.mp hc
    obtain rfl := Option.some.inj ht
    exact ⟨by decide, by decide +kernel⟩
  resumes := by
    intro e he
    obtain rfl := List.mem_singleton.mp he
    exact ⟨by decide, by decide +kernel⟩

/-- The job of the only call is handed out. The direction it was made with
is that of its rule without the blanks. -/
theorem handed_over_named :
    let c : Connection := { store := namedCall }
    ∃ r ∈ namedCall.runnable 1, ∃ job ∈ (c.enqueueFor r 1).2.handedOut (.claim 1),
      ∃ p, job.params = some p ∧ p.callId = "0a1b2c3d-0000-4000-8000-00000000000f"
        ∧ p.fileId = some 7 ∧ p.storedAt = some job.storedAt ∧ p.direction = some "inbound" := by
  intro c
  have hr : soleRule.view 0 ∈ namedCall.runnable 1 := by decide +kernel
  obtain ⟨j, hj, hid⟩ : ∃ j ∈ c.store.arrivals (c.enqueueFor (soleRule.view 0) 1).2.store,
    j.id = 1 := by decide +kernel
  obtain ⟨job, hjob, hsame⟩ : ∃ job ∈ (c.enqueueFor (soleRule.view 0) 1).2.handedOut (.claim 1),
    job.id = 1 := by decide +kernel
  obtain ⟨call, hcall, -, t, -, f, hf, -, -, position, hlater⟩ :=
    handed_over namedCall_typed hr (c := c) ⟨by decide, by decide⟩ namedCall_typed
      (by decide : (1 : Int) ≤ 9223372036854775807) j hj
  obtain ⟨-, htime, hparams, -⟩ :=
    hlater [.claim 1] _ List.mem_cons_self job hjob (hsame.trans hid.symm)
  obtain rfl := List.mem_singleton.mp hcall
  obtain rfl := List.mem_singleton.mp hf
  have hdirection : (soleRule.view 0).directionFilter = some "inbound" := by decide
  exact ⟨_, hr, job, hjob, _, hparams, rfl, rfl, congrArg some htime.symm, hdirection⟩

end Connection

end CallAudit
