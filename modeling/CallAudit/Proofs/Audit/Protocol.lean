/-
CallAudit.Proofs.Audit.Protocol — what an audit asks of services, and in
which order.

* `Errand` — what services are asked for. `Asks` says which requests are
  made for an errand, `useful` which replies let the audit go on: a success
  whose body denotes something that can be worked with.
* `plan` — the errands of an audit once it has a transcript, by the mode of
  its job.
* `Walk` — the plan followed errand by errand, up to the first reply that is
  of no use. `audit` is shown to walk its plan, one lemma for each of its
  steps; what holds of every walk (`Walk.prefix_plan`, `Walk.useful`,
  `Walk.ending`) is then proved by induction on the walk and knows nothing
  of services.
* `polls_of_goes` — a transcript is searched for until a search finds it.
* `request_protocol` — the whole of it for a job and services that answer
  whatever they like.
-/
import CallAudit.Audit.Desk
import CallAudit.Proofs.Admission
import CallAudit.Proofs.Http.Exchange
import CallAudit.Proofs.Results

namespace CallAudit

open CallAudit.Http (Exchange Method Reply Request Session noted)
open CallAudit.Json (Decoder Value)
open CallAudit.CallHistory (Transcript)

/-! ## Errands -/

/-- What is asked of services in an audit. -/
inductive Errand where
  | transcribe
  | search
  | phrases
  | form
  | model
  | patch
  | rate
deriving DecidableEq, Repr

namespace Errand

/-- The stage at which an audit ends if the errand fails. -/
def stage : Errand → Stage
  | transcribe | search => .transcript
  | phrases => .phrases
  | form => .form
  | model => .model
  | patch | rate => .delivery

/-- Whether a request is one that is made for an errand. The model is asked
with a key, so there is no request without one. -/
def Asks (a : Auditor) (p : Params) : Errand → Request → Prop
  | transcribe, r =>
    r = CallHistory.requestTo a.services .post a.services.endpoints.transcript
      (some (.object [("uuid", .array [.string p.call])]))
  | search, r =>
    r = CallHistory.requestTo a.services .post a.services.endpoints.history
      (some (CallHistory.searchBody p.call))
  | phrases, r => ∃ transcript,
    r = CallHistory.requestTo a.services .get
      (Text.fill a.services.endpoints.phrases "\x7bid\x7d" transcript) none
  | form, r => ∃ form, p.form? = some form ∧
    r = CallHistory.requestTo a.services .get
      (Text.fill a.services.endpoints.form "\x7bid\x7d" (String.ofList (Json.intText form))) none
  | model, r => ∃ key system user, LanguageModel.keyFor? a.model p.token = some key ∧
    r = LanguageModel.chatRequest a.model key system user
  | patch, r => ∃ values,
    r = CallHistory.requestTo a.services .patch
      (Text.fill a.services.endpoints.patch "\x7buuid\x7d" p.call)
      (some (CallHistory.patchBody values))
  | rate, r => ∃ form scores, p.form? = some form ∧
    r = CallHistory.requestTo a.services .post a.services.endpoints.rate
      (some (Verdict.Scores.rating p.call form scores))

/-- What the body of a successful answer denotes. -/
def told {α : Type} (d : Decoder α) : Reply → Option α
  | some r => if r.isSuccess then (Decoder.ofText d r.body).toOption else none
  | none => none

/-- Whether a text of the model has something to deliver. -/
def speaks (p : Params) (text : String) : Bool :=
  match p.form? with
  | some _ => !(Verdict.Scores.read text).isEmpty
  | none => !(Verdict.Summary.read text).isEmpty

/-- Whether the reply to an errand is of use. That a call could not be asked
to be transcribed does not matter, since its transcript may be there. -/
def useful (p : Params) : Errand → Reply → Bool
  | transcribe, _ => true
  | search, reply => ((told CallHistory.foundPage reply).bind CallHistory.transcriptOf).isSome
  | phrases, reply => (told CallHistory.phrasePage reply).isSome
  | form, reply => (told Form.decoder reply).isSome
  | model, reply =>
    ((told LanguageModel.choices reply).bind LanguageModel.firstText).any (speaks p)
  | patch, reply | rate, reply => reply.any (·.isSuccess)

/-- The errands of an audit that has a transcript. -/
def plan (p : Params) : List Errand :=
  match p.form? with
  | some _ => [phrases, form, model, rate]
  | none => [phrases, model, patch]

theorem nodup_plan (p : Params) : (plan p).Nodup := by
  unfold plan
  split <;> decide

/-- There is one errand of delivery in a plan. -/
theorem count_delivery_plan (p : Params) :
    (plan p).countP (fun e => e.stage = .delivery) = 1 := by
  unfold plan
  split <;> rfl

/-! ## What replies are read as -/

/-- A reply is read by its body if it is a success, and fails otherwise. -/
theorem told_eq {α : Type} (what : String) (d : Decoder α) (reply : Reply) :
    told d reply = (CallHistory.bodyOf what reply >>= CallHistory.decode what d).toOption := by
  cases reply with
  | none => rfl
  | some r =>
    simp only [told, CallHistory.bodyOf]
    split
    · simp only [bind, Except.bind, CallHistory.decode]
      cases Decoder.ofText d r.body <;> rfl
    · rfl

theorem contentOf_eq (reply : Reply) :
    (told LanguageModel.choices reply).bind LanguageModel.firstText
      = (LanguageModel.contentOf reply).toOption := by
  cases reply with
  | none => rfl
  | some r =>
    simp only [told, LanguageModel.contentOf]
    split
    · cases Decoder.ofText LanguageModel.choices r.body with
      | error f => rfl
      | ok cs =>
        simp only [Except.toOption, Option.bind_some]
        cases LanguageModel.firstText cs <;> rfl
    · cases Decoder.ofText LanguageModel.errorMessage r.body <;> rfl

/-- A reply whose body is not looked at is of use if it is a success. -/
theorem isSuccess_eq (what : String) (reply : Reply) :
    reply.any (·.isSuccess)
      = (CallHistory.bodyOf what reply >>= fun _ => .ok ()).toOption.isSome := by
  cases reply with
  | none => rfl
  | some r =>
    simp only [CallHistory.bodyOf, Option.any_some]
    split
    · rename_i h
      rw [h]
      rfl
    · rename_i h
      rw [Bool.eq_false_iff.mpr h]
      rfl

/-- A key that is found is not blank. -/
theorem keyFor?_source {m : ModelSettings} {token : Option String} {key : String}
    (h : LanguageModel.keyFor? m token = some key) :
    ∃ k, (token = some k ∨ m.key = some k) ∧ Text.nonBlank k = some key := by
  simp only [LanguageModel.keyFor?, Option.or_eq_some_iff, Option.bind_eq_some_iff] at h
  obtain ⟨k, hk, hkey⟩ | ⟨-, k, hk, hkey⟩ := h
  · exact ⟨k, Or.inl hk, hkey⟩
  · exact ⟨k, Or.inr hk, hkey⟩

end Errand

/-! ## Walking a plan -/

/-- The errands of a plan that are done, each with its exchange, and the
result: the plan is followed up to the first reply that is of no use, and
the model is not asked without a key. -/
inductive Walk (a : Auditor) (p : Params) :
    List Errand → List (Errand × Exchange) → Result Delivery → Prop where
  | arrives (d : Delivery) : Walk a p [] [] (.ok d)
  | keyless {rest : List Errand} : LanguageModel.keyFor? a.model p.token = none →
      Walk a p (.model :: rest) [] (.error (.model, .model .noKey))
  | fails {e : Errand} {rest : List Errand} {x : Exchange} (f : Failure) :
      e.Asks a p x.1 → e.useful p x.2 = false →
      Walk a p (e :: rest) [(e, x)] (.error (e.stage, f))
  | goes {e : Errand} {rest : List Errand} {x : Exchange} {made : List (Errand × Exchange)}
      {result : Result Delivery} :
      e.Asks a p x.1 → e.useful p x.2 = true → Walk a p rest made result →
      Walk a p (e :: rest) ((e, x) :: made) result

namespace Walk

variable {a : Auditor} {p : Params} {todo : List Errand} {made : List (Errand × Exchange)}
  {result : Result Delivery}

theorem asks (h : Walk a p todo made result) : ∀ x ∈ made, x.1.Asks a p x.2.1 := by
  induction h with
  | arrives d => simp
  | keyless _ => simp
  | fails f hasks _ => simpa using hasks
  | goes hasks _ _ ih => exact List.forall_mem_cons.mpr ⟨hasks, ih⟩

theorem prefix_plan (h : Walk a p todo made result) : made.map Prod.fst <+: todo := by
  induction h with
  | arrives d => exact List.prefix_rfl
  | keyless _ => exact List.nil_prefix
  | fails f _ _ => exact (List.prefix_cons_inj _).mpr List.nil_prefix
  | goes _ _ _ ih => exact (List.prefix_cons_inj _).mpr ih

/-- Nothing follows a reply that is of no use. -/
theorem useful (h : Walk a p todo made result) :
    ∀ x ∈ made.dropLast, x.1.useful p x.2.2 = true := by
  induction h with
  | arrives d => simp
  | keyless _ => simp
  | fails f _ _ => simp
  | @goes e rest x made result _ huse _ ih =>
    cases made with
    | nil => simp
    | cons y more =>
      rw [List.dropLast_cons_of_ne_nil (List.cons_ne_nil y more)]
      exact List.forall_mem_cons.mpr ⟨huse, ih⟩

/-- A walk ends at the end of its plan with a delivery, at a reply that is
of no use, or before the model for want of a key. -/
theorem ending (h : Walk a p todo made result) :
    (made.map Prod.fst = todo ∧ (∀ x ∈ made, x.1.useful p x.2.2 = true) ∧ ∃ d, result = .ok d) ∨
    (∃ x f, made.getLast? = some x ∧ x.1.useful p x.2.2 = false
      ∧ result = .error (x.1.stage, f)) ∨
    (made.map Prod.fst ++ [.model] <+: todo ∧ (∀ x ∈ made, x.1.useful p x.2.2 = true)
      ∧ LanguageModel.keyFor? a.model p.token = none
      ∧ result = .error (.model, .model .noKey)) := by
  induction h with
  | arrives d => exact Or.inl ⟨rfl, by simp, d, rfl⟩
  | keyless hkey =>
    exact Or.inr (Or.inr ⟨(List.prefix_cons_inj _).mpr List.nil_prefix, by simp, hkey, rfl⟩)
  | @fails e _ x f _ huse => exact Or.inr (Or.inl ⟨(e, x), f, rfl, huse, rfl⟩)
  | @goes e rest x made result _ huse hwalk ih =>
    rcases ih with ⟨hplan, hall, hd⟩ | ⟨y, f, hlast, hy, hresult⟩ | ⟨hplan, hall, hkey, hresult⟩
    · exact Or.inl ⟨by rw [List.map_cons, hplan], List.forall_mem_cons.mpr ⟨huse, hall⟩, hd⟩
    · refine Or.inr (Or.inl ⟨y, f, ?_, hy, hresult⟩)
      rw [List.getLast?_cons, hlast]
      rfl
    · refine Or.inr (Or.inr ⟨?_, List.forall_mem_cons.mpr ⟨huse, hall⟩, hkey, hresult⟩)
      rw [List.map_cons, List.cons_append]
      exact (List.prefix_cons_inj _).mpr hplan

/-- The last errand of a walk that delivers something is a delivery that
succeeded. -/
theorem delivered {d : Delivery} (h : Walk a p (Errand.plan p) made (.ok d)) :
    ∃ x, made.getLast? = some x ∧ (x.1 = .patch ∨ x.1 = .rate) ∧ x.1.Asks a p x.2.1
      ∧ x.2.2.any (·.isSuccess) = true := by
  rcases h.ending with ⟨hplan, hall, -⟩ | ⟨x, f, -, -, hresult⟩ | ⟨-, -, -, hresult⟩
  · have hlast : (made.map Prod.fst).getLast? = some .patch
        ∨ (made.map Prod.fst).getLast? = some .rate := by
      rw [hplan]
      unfold Errand.plan
      split
      · exact Or.inr rfl
      · exact Or.inl rfl
    rw [List.getLast?_map] at hlast
    obtain ⟨x, hx⟩ : ∃ x, made.getLast? = some x := by
      cases hm : made.getLast? with
      | none => simp [hm] at hlast
      | some x => exact ⟨x, rfl⟩
    have hmem := List.mem_of_getLast? hx
    have hkind : x.1 = .patch ∨ x.1 = .rate := by simpa [hx] using hlast
    refine ⟨x, hx, hkind, h.asks x hmem, ?_⟩
    have huse := hall x hmem
    rcases hkind with hk | hk <;> rw [hk] at huse <;> exact huse
  · cases hresult
  · cases hresult

end Walk

/-! ## The steps of an audit -/

section Steps

variable {a : Auditor} {p : Params} {α : Type}

/-- Whatever services answer, a conversation walks a plan. -/
def Walks (a : Auditor) (p : Params) (todo : List Errand) (s : Session (Result Delivery)) : Prop :=
  ∀ log result, s.Goes log result →
    ∃ made, log = made.map Prod.snd ∧ Walk a p todo made result

/-- Whatever services answer, a step is the single exchange of an errand,
and succeeds exactly if the reply is of use. -/
def Does (a : Auditor) (p : Params) (e : Errand) (step : Session (Except Failure α)) : Prop :=
  ∀ log r, step.Goes log r →
    ∃ x, log = [x] ∧ e.Asks a p x.1 ∧ e.useful p x.2 = r.toOption.isSome

/-- A step that fails is the last, and one that succeeds is followed by the
rest. -/
theorem goes_thenAt {stage : Stage} {step : Session (Except Failure α)}
    {next : α → Session (Result Delivery)} {log : List Exchange} {result : Result Delivery}
    (h : (thenAt stage step next).Goes log result) :
    (∃ f, step.Goes log (.error f) ∧ result = .error (stage, f)) ∨
      ∃ before v after, log = before ++ after ∧ step.Goes before (.ok v)
        ∧ (next v).Goes after result := by
  obtain ⟨before, r, after, rfl, hstep, hnext⟩ := Session.goes_bind.mp h
  cases r with
  | error f =>
    obtain ⟨rfl, rfl⟩ := hnext
    rw [List.append_nil]
    exact Or.inl ⟨f, hstep, rfl⟩
  | ok v => exact Or.inr ⟨before, v, after, rfl, hstep, hnext⟩

theorem walks_thenAt {e : Errand} {rest : List Errand} {step : Session (Except Failure α)}
    {next : α → Session (Result Delivery)} (hstep : Does a p e step)
    (hnext : ∀ v, Walks a p rest (next v)) : Walks a p (e :: rest) (thenAt e.stage step next) := by
  intro log result h
  rcases goes_thenAt h with ⟨f, hf, rfl⟩ | ⟨before, v, after, rfl, hv, hafter⟩
  · obtain ⟨x, rfl, hasks, huse⟩ := hstep log _ hf
    exact ⟨[(e, x)], rfl, .fails f hasks huse⟩
  · obtain ⟨x, rfl, hasks, huse⟩ := hstep before _ hv
    obtain ⟨made, rfl, hwalk⟩ := hnext v after result hafter
    exact ⟨(e, x) :: made, rfl, .goes hasks huse hwalk⟩

/-- A request to one of the services does an errand that its reply is read
for. -/
theorem does_call {e : Errand} {what url : String} {method : Method} {body : Option Value}
    {read : String → Except Failure α}
    (hasks : e.Asks a p (CallHistory.requestTo a.services method url body))
    (huse : ∀ reply, e.useful p reply = (CallHistory.bodyOf what reply >>= read).toOption.isSome) :
    Does a p e (CallHistory.call a.services what method url body read) := by
  intro log r h
  obtain ⟨reply, rfl, rfl⟩ := Session.goes_request.mp h
  exact ⟨_, rfl, hasks, huse reply⟩

theorem does_fetchPhrases (transcript : String) :
    Does a p .phrases (CallHistory.fetchPhrases a.services transcript) :=
  does_call ⟨transcript, rfl⟩ fun reply => by rw [Errand.useful, Errand.told_eq "phrases"]

theorem does_fetchForm {form : Int} (hform : p.form? = some form) :
    Does a p .form (CallHistory.fetchForm a.services form) :=
  does_call ⟨form, hform, rfl⟩ fun reply => by rw [Errand.useful, Errand.told_eq "scorecard form"]

theorem does_rate {form : Int} (hform : p.form? = some form) (scores : Verdict.Scores) :
    Does a p .rate (CallHistory.rate a.services p.call form scores) :=
  does_call ⟨form, scores, hform, rfl⟩ (Errand.isSuccess_eq "rate")

theorem does_patch (values : List (String × String)) :
    Does a p .patch (CallHistory.patch a.services p.call values) :=
  does_call ⟨values, rfl⟩ (Errand.isSuccess_eq "patch history")

/-- The model is asked once, with a key and just what it is to be asked, or
not at all. -/
theorem asked_of_goes {system user : String} {log : List Exchange} {r : Except Failure String}
    (h : (a.askModel p system user).Goes log r) :
    (LanguageModel.keyFor? a.model p.token = none ∧ log = [] ∧ r = .error (.model .noKey)) ∨
      ∃ key reply, LanguageModel.keyFor? a.model p.token = some key
        ∧ log = [(LanguageModel.chatRequest a.model key system user, reply)]
        ∧ r = (LanguageModel.contentOf reply).mapError .model := by
  obtain ⟨before, reply, after, rfl, hask, rfl, rfl⟩ := Session.goes_bind.mp h
  unfold LanguageModel.complete at hask
  split at hask
  · rename_i hkey
    obtain ⟨rfl, rfl⟩ := hask
    exact Or.inl ⟨hkey, rfl, rfl⟩
  · rename_i key hkey
    obtain ⟨reply, rfl, rfl⟩ := Session.goes_request.mp hask
    exact Or.inr ⟨key, reply, hkey, rfl, rfl⟩

/-- The model is asked with a key, or not at all. -/
theorem goes_askModel {system user : String} {log : List Exchange} {r : Except Failure String}
    (h : (a.askModel p system user).Goes log r) :
    (LanguageModel.keyFor? a.model p.token = none ∧ log = [] ∧ r = .error (.model .noKey)) ∨
      ∃ x : Exchange, log = [x] ∧ Errand.model.Asks a p x.1
        ∧ r = (LanguageModel.contentOf x.2).mapError .model := by
  rcases asked_of_goes h with hnone | ⟨key, reply, hkey, rfl, rfl⟩
  · exact Or.inl hnone
  · exact Or.inr ⟨_, rfl, ⟨key, system, user, hkey, rfl⟩, rfl⟩

/-- The model is asked, and what it says is worked with if there is
something to deliver in it. -/
theorem walks_model {rest : List Errand} {system user : String}
    {next : String → Session (Result Delivery)}
    (silent : ∀ text, Errand.speaks p text = false →
      next text = .done (.error (.model, .emptyReply)))
    (hnext : ∀ text, Errand.speaks p text = true → Walks a p rest (next text)) :
    Walks a p (.model :: rest) (thenAt .model (a.askModel p system user) next) := by
  intro log result h
  rcases goes_thenAt h with ⟨f, hf, rfl⟩ | ⟨before, text, after, rfl, htext, hafter⟩
  · rcases goes_askModel hf with ⟨hkey, rfl, hr⟩ | ⟨x, rfl, hasks, hr⟩
    · cases hr
      exact ⟨[], rfl, .keyless hkey⟩
    · refine ⟨[(.model, x)], rfl, .fails f hasks ?_⟩
      rw [Errand.useful, Errand.contentOf_eq]
      cases hc : LanguageModel.contentOf x.2 with
      | error g => rfl
      | ok text => simp [hc, Except.mapError] at hr
  · rcases goes_askModel htext with ⟨-, -, hr⟩ | ⟨x, rfl, hasks, hr⟩
    · cases hr
    · have hcontent : LanguageModel.contentOf x.2 = .ok text := mapError_eq_ok.mp hr.symm
      have huse : Errand.model.useful p x.2 = Errand.speaks p text := by
        rw [Errand.useful, Errand.contentOf_eq, hcontent]
        rfl
      cases hspeaks : Errand.speaks p text with
      | false =>
        rw [silent text hspeaks] at hafter
        obtain ⟨rfl, rfl⟩ := hafter
        exact ⟨[(.model, x)], rfl, .fails (e := .model) _ hasks (huse.trans hspeaks)⟩
      | true =>
        obtain ⟨made, rfl, hwalk⟩ := hnext text hspeaks after result hafter
        exact ⟨(.model, x) :: made, rfl, .goes hasks (huse.trans hspeaks) hwalk⟩

theorem walks_arrived (d : Delivery) : Walks a p [] (.done (.ok d)) := by
  rintro log result ⟨rfl, rfl⟩
  exact ⟨[], rfl, .arrives d⟩

theorem walks_sumUp (hform : p.form? = none) (dialogue : String) :
    Walks a p [.model, .patch] (a.sumUp p p.call dialogue) := by
  have hspeaks : ∀ text, Errand.speaks p text = !(Verdict.Summary.read text).isEmpty := by
    intro text
    rw [Errand.speaks, hform]
  refine walks_model ?_ ?_ <;> intro text hs <;> rw [hspeaks] at hs
  · simp only [Bool.not_eq_false'] at hs
    simp only [hs, if_true]
  · simp only [Bool.not_eq_true'] at hs
    simp only [hs, Bool.false_eq_true, if_false]
    exact walks_thenAt (e := .patch) (does_patch _) fun _ => walks_arrived _

theorem walks_score {form : Int} (hform : p.form? = some form) (dialogue : String) :
    Walks a p [.form, .model, .rate] (a.score p p.call form dialogue) := by
  have hspeaks : ∀ text, Errand.speaks p text = !(Verdict.Scores.read text).isEmpty := by
    intro text
    rw [Errand.speaks, hform]
  refine walks_thenAt (e := .form) (does_fetchForm hform) fun questions => ?_
  refine walks_model ?_ ?_ <;> intro text hs <;> rw [hspeaks] at hs
  · simp only [Bool.not_eq_false'] at hs
    simp only [hs, if_true]
  · simp only [Bool.not_eq_true'] at hs
    simp only [hs, Bool.false_eq_true, if_false]
    exact walks_thenAt (e := .rate) (does_rate hform _) fun _ => walks_arrived _

/-! ## Waiting for the transcript -/

/-- The transcript that the reply to a search tells of. -/
def transcriptIn (reply : Reply) : Option Transcript :=
  (Errand.told CallHistory.foundPage reply).bind CallHistory.transcriptOf

/-- A search is an exchange, and finds the transcript that its reply tells
of. One that fails is as if it had found none. -/
theorem goes_findTranscript {delay : Time.Span} {log : List Exchange}
    {r : Except Failure (Option Transcript)}
    (h : (CallHistory.findTranscript a.services p.call delay).Goes log r) :
    ∃ x : Exchange, log = [x] ∧ Errand.search.Asks a p x.1 ∧ transcriptIn x.2 = r.toOption.join := by
  obtain ⟨reply, rfl, rfl⟩ := Session.goes_request.mp h
  refine ⟨_, rfl, rfl, ?_⟩
  rw [transcriptIn, Errand.told_eq "call history"]
  cases CallHistory.bodyOf "call history" reply with
  | error f => rfl
  | ok body =>
    simp only [bind, Except.bind]
    cases CallHistory.decode "call history" CallHistory.foundPage body <;> rfl

/-- A transcript is searched for until a search finds it, at most `n`
times. -/
theorem polls_of_goes : ∀ (n : Nat) (delay : Time.Span) (log : List Exchange)
    (found : Option Transcript), (a.poll p.call n delay).Goes log found →
    (∀ x ∈ log, Errand.search.Asks a p x.1) ∧ log.length ≤ n
      ∧ (∀ x ∈ log.dropLast, Errand.search.useful p x.2 = false)
      ∧ (found.isSome = true → ∃ x ∈ log, Errand.search.useful p x.2 = true)
      ∧ (found = none → log.length = n ∧ ∀ x ∈ log, Errand.search.useful p x.2 = false)
  | 0, _, _, _ => by
      rintro ⟨rfl, rfl⟩
      simp
  | n + 1, delay, log, found => by
      intro h
      obtain ⟨before, r, after, rfl, hfind, hafter⟩ := Session.goes_bind.mp h
      obtain ⟨x, rfl, hasks, htold⟩ := goes_findTranscript hfind
      have huse : Errand.search.useful p x.2 = r.toOption.join.isSome := congrArg Option.isSome htold
      split at hafter
      · -- found
        rename_i t
        obtain ⟨rfl, rfl⟩ := hafter
        refine ⟨by simpa using hasks, by simp, by simp, fun _ => ⟨x, by simp, huse⟩, ?_⟩
        exact fun hnone => by cases hnone
      · rename_i hmissing
        have hx : Errand.search.useful p x.2 = false := by
          rw [huse]
          cases r with
          | error f => rfl
          | ok t =>
            cases t with
            | none => rfl
            | some t => exact absurd rfl (hmissing t)
        obtain ⟨hall, hlen, hdrop, hsome, hnone⟩ :=
          polls_of_goes n a.settings.delayBetweenPolls after found hafter
        refine ⟨?_, by simpa using hlen, ?_, ?_, ?_⟩
        · exact List.forall_mem_cons.mpr ⟨hasks, hall⟩
        · cases after with
          | nil => simp
          | cons y more =>
            rw [List.singleton_append, List.dropLast_cons_of_ne_nil (List.cons_ne_nil y more)]
            exact List.forall_mem_cons.mpr ⟨hx, hdrop⟩
        · intro hfound
          obtain ⟨y, hy, huse⟩ := hsome hfound
          exact ⟨y, List.mem_cons_of_mem x hy, huse⟩
        · intro hfound
          obtain ⟨hlen, hall⟩ := hnone hfound
          exact ⟨by simpa using hlen, List.forall_mem_cons.mpr ⟨hx, hall⟩⟩

end Steps

/-! ## The protocol of an audit -/

/-- The exchanges of an audit: the call is to be transcribed, its transcript
is searched for in `polls`, and the errands `made` follow. -/
structure Proceedings (a : Auditor) (p : Params) (create : Exchange) (polls : List Exchange)
    (made : List (Errand × Exchange)) (o : Outcome) : Prop where
  transcribes : Errand.transcribe.Asks a p create.1
  searches : ∀ x ∈ polls, Errand.search.Asks a p x.1
  /-- There is one search at least, and at most as many as the settings
  say. -/
  searched : 1 ≤ polls.length ∧ polls.length ≤ max 1 a.settings.polls
  /-- The search goes on only after searches that found no transcript. -/
  sought : ∀ x ∈ polls.dropLast, Errand.search.useful p x.2 = false
  /-- Where no search finds one, all are made and nothing follows. -/
  missing : (∀ x ∈ polls, Errand.search.useful p x.2 = false) →
    polls.length = max 1 a.settings.polls ∧ made = []
      ∧ o = .abandoned .transcript (.notReady (max 1 a.settings.polls))
  asks : ∀ x ∈ made, x.1.Asks a p x.2.1
  plan : made.map Prod.fst <+: Errand.plan p
  /-- An errand is done only after replies that were all of use. -/
  useful : ∀ x ∈ made.dropLast, x.1.useful p x.2.2 = true
  /-- No errand is done twice. -/
  once : (made.map Prod.fst).Nodup
  /-- At most one delivery is made. -/
  delivery : made.countP (fun x => x.1.stage = .delivery) ≤ 1
  /-- The model is asked only if the job or the settings have a key that is
  not blank. -/
  key : .model ∈ made.map Prod.fst →
    ∃ k, (p.token = some k ∨ a.model.key = some k) ∧ (Text.nonBlank k).isSome = true
  /-- With a transcript the whole plan is done and something delivered, or
  the audit is abandoned at the stage of the last errand, whose reply was of
  no use, or at the model for want of a key. -/
  ending : (∃ x ∈ polls, Errand.search.useful p x.2 = true) →
    (made.map Prod.fst = Errand.plan p ∧ (∀ x ∈ made, x.1.useful p x.2.2 = true)
      ∧ ∃ d, o = .delivered d) ∨
    (∃ x f, made.getLast? = some x ∧ x.1.useful p x.2.2 = false
      ∧ o = .abandoned x.1.stage f) ∨
    (made.map Prod.fst ++ [.model] <+: Errand.plan p
      ∧ (∀ x ∈ made, x.1.useful p x.2.2 = true)
      ∧ LanguageModel.keyFor? a.model p.token = none
      ∧ o = .abandoned .model (.model .noKey))

/-- What is done of a plan has at most the one delivery of the plan. -/
theorem Walk.count_delivery {a : Auditor} {p : Params} {made : List (Errand × Exchange)}
    {result : Result Delivery} (h : Walk a p (Errand.plan p) made result) :
    made.countP (fun x => x.1.stage = .delivery) ≤ 1 := by
  rw [← Errand.count_delivery_plan p]
  calc made.countP (fun x => x.1.stage = .delivery)
      = (made.map Prod.fst).countP (fun e => e.stage = .delivery) := by
        rw [List.countP_map]
        rfl
    _ ≤ (Errand.plan p).countP (fun e => e.stage = .delivery) :=
        h.prefix_plan.sublist.countP_le

/-- The model is asked only with a key. -/
theorem Walk.key {a : Auditor} {p : Params} {todo : List Errand}
    {made : List (Errand × Exchange)} {result : Result Delivery} (h : Walk a p todo made result)
    (hmodel : .model ∈ made.map Prod.fst) :
    ∃ k, (p.token = some k ∨ a.model.key = some k) ∧ (Text.nonBlank k).isSome = true := by
  obtain ⟨⟨e, x⟩, hx, rfl⟩ := List.mem_map.mp hmodel
  obtain ⟨key, _, _, hkey, -⟩ := h.asks _ hx
  obtain ⟨k, hk, hkey⟩ := Errand.keyFor?_source hkey
  exact ⟨k, hk, by rw [hkey]; rfl⟩

/-- Once its phrases can be fetched, an audit walks its plan. -/
theorem walks_plan (a : Auditor) (p : Params) (t : Transcript) :
    Walks a p (Errand.plan p)
      (thenAt .phrases (CallHistory.fetchPhrases a.services t.id) fun phrases =>
        match p.form? with
        | some form => a.score p p.call form (Conversation.dialogue t.parties phrases)
        | none => a.sumUp p p.call (Conversation.dialogue t.parties phrases)) := by
  unfold Errand.plan
  cases hform : p.form? with
  | none => exact walks_thenAt (does_fetchPhrases t.id) fun _ => walks_sumUp hform _
  | some form => exact walks_thenAt (does_fetchPhrases t.id) fun _ => walks_score hform _

/-- What awaiting the transcript consists of, whatever comes of it. -/
theorem goes_awaitTranscript {a : Auditor} {p : Params} {log : List Exchange}
    {r : Except Failure Transcript} (h : (a.awaitTranscript p.call).Goes log r) :
    ∃ create polls found, log = create :: polls ∧ Errand.transcribe.Asks a p create.1
      ∧ (∃ delay, (a.poll p.call a.attempts delay).Goes polls found)
      ∧ ((found = none ∧ r = .error (.notReady a.attempts)) ∨ ∃ t, found = some t ∧ r = .ok t) := by
  obtain ⟨before, _, after, rfl, hcreate, hafter⟩ := Session.goes_bind.mp h
  obtain ⟨reply, rfl, -⟩ := Session.goes_request.mp hcreate
  obtain ⟨polls, found, last, rfl, hpoll, hlast⟩ := Session.goes_bind.mp hafter
  cases found with
  | none =>
    obtain ⟨rfl, rfl⟩ := hlast
    rw [List.append_nil]
    exact ⟨_, polls, none, rfl, rfl, ⟨_, hpoll⟩, Or.inl ⟨rfl, rfl⟩⟩
  | some t =>
    obtain ⟨rfl, rfl⟩ := hlast
    rw [List.append_nil]
    exact ⟨_, polls, some t, rfl, rfl, ⟨_, hpoll⟩, Or.inr ⟨t, rfl, rfl⟩⟩

/-- An audit is a request to transcribe the call, searches, and a walk along
its plan if they found a transcript. -/
theorem audit_cases {a : Auditor} {p : Params} {log : List Exchange} {result : Result Delivery}
    (h : (a.audit p p.call).Goes log result) :
    ∃ create polls found after, log = create :: polls ++ after
      ∧ Errand.transcribe.Asks a p create.1
      ∧ (∃ delay, (a.poll p.call a.attempts delay).Goes polls found)
      ∧ ((found = none ∧ after = [] ∧ result = .error (.transcript, .notReady a.attempts)) ∨
        (found.isSome = true ∧ ∃ made, after = made.map Prod.snd
          ∧ Walk a p (Errand.plan p) made result)) := by
  rcases goes_thenAt h with ⟨f, hf, rfl⟩ | ⟨before, t, after, rfl, ht, hafter⟩
  · obtain ⟨create, polls, found, rfl, hcreate, hpoll, ⟨rfl, hr⟩ | ⟨t, -, hr⟩⟩ :=
      goes_awaitTranscript hf <;> cases hr
    exact ⟨create, polls, none, [], by simp, hcreate, hpoll, Or.inl ⟨rfl, rfl, rfl⟩⟩
  · obtain ⟨create, polls, found, rfl, hcreate, hpoll, ⟨-, hr⟩ | ⟨t', rfl, hr⟩⟩ :=
      goes_awaitTranscript ht <;> cases hr
    exact ⟨create, polls, some t, after, rfl, hcreate, hpoll,
      Or.inr ⟨rfl, walks_plan a p t after result hafter⟩⟩

/-- Whatever services answer, an audit proceeds by the protocol. -/
theorem proceedings_of_conduct {a : Auditor} {p : Params} {log : List Exchange} {o : Outcome}
    (h : (a.conduct p p.call).Goes log o) :
    ∃ create polls made, log = create :: polls ++ made.map Prod.snd
      ∧ Proceedings a p create polls made o := by
  obtain ⟨log, result, last, rfl, haudit, rfl, rfl⟩ := Session.goes_bind.mp h
  obtain ⟨create, polls, found, after, rfl, hcreate, ⟨delay, hpoll⟩, hcases⟩ := audit_cases haudit
  obtain ⟨hasks, hlen, hdrop, hsome, hnone⟩ := polls_of_goes _ _ _ _ hpoll
  rcases hcases with ⟨rfl, rfl, rfl⟩ | ⟨hfound, made, rfl, hwalk⟩
  · obtain ⟨hlen', hall⟩ := hnone rfl
    refine ⟨create, polls, [], by simp, ?_⟩
    refine
      { transcribes := hcreate, searches := hasks, searched := ?_, sought := hdrop
        missing := fun _ => ⟨hlen', rfl, rfl⟩
        asks := by simp, plan := List.nil_prefix, useful := by simp, once := by simp
        delivery := by simp, key := by simp, ending := ?_ }
    · exact ⟨hlen'.symm ▸ Nat.le_max_left 1 _, hlen⟩
    · rintro ⟨x, hx, huse⟩
      rw [hall x hx] at huse
      cases huse
  · obtain ⟨x, hx, huse⟩ := hsome hfound
    refine ⟨create, polls, made, by simp, ?_⟩
    refine
      { transcribes := hcreate, searches := hasks, searched := ?_, sought := hdrop, missing := ?_
        asks := hwalk.asks, plan := hwalk.prefix_plan, useful := hwalk.useful
        once := hwalk.prefix_plan.sublist.nodup (Errand.nodup_plan p)
        delivery := hwalk.count_delivery, key := hwalk.key, ending := fun _ => ?_ }
    · exact ⟨List.length_pos_of_mem hx, hlen⟩
    · intro hall
      rw [hall x hx] at huse
      cases huse
    · rcases hwalk.ending with ⟨hplan, hall, d, rfl⟩ | ⟨y, f, hlast, hy, rfl⟩ |
        ⟨hplan, hall, hkey, rfl⟩
      · exact Or.inl ⟨hplan, hall, d, rfl⟩
      · exact Or.inr (Or.inl ⟨y, f, hlast, hy, rfl⟩)
      · exact Or.inr (Or.inr ⟨hplan, hall, hkey, rfl⟩)

/-- A call is named by what is neither empty nor zero. -/
theorem Params.namesCall_iff {p : Params} :
    p.namesCall = true ↔ p.call ≠ "" ∧ p.call ≠ "0" := by
  simp [Params.namesCall]

/-- A job with parameters is declined without a request, or its call is
audited. -/
theorem finish_cases {σ : Type} (a : Auditor) {job : Job} {p : Params}
    (hparams : job.params = some p) (g : Guard) (serve : σ → Request → Reply × σ) (s : σ) :
    ∃ o g' s' log, Run.finish a (noted serve) (s, []) g (.new job) = (.ended o, g', s', log) ∧
      ((log = [] ∧ o.isDelivered = false) ∨
        ∃ result, (a.audit p p.call).Goes log result ∧ o = .ofResult result) := by
  simp only [Run.finish, receive, hparams]
  cases p.namesCall with
  | false => exact ⟨_, _, _, _, rfl, Or.inl ⟨rfl, rfl⟩⟩
  | true =>
    simp only [if_true]
    cases g.admit? p.call with
    | none => exact ⟨_, _, _, _, rfl, Or.inl ⟨rfl, rfl⟩⟩
    | some g' =>
      obtain ⟨log, hlog, hgoes⟩ := Session.run_noted serve (a.conduct p p.call) s []
      obtain ⟨before, result, last, rfl, haudit, rfl, hresult⟩ := Session.goes_bind.mp hgoes
      refine ⟨_, _, _, _, rfl, Or.inr ⟨result, ?_, hresult⟩⟩
      rw [hlog, List.nil_append, List.append_nil]
      exact haudit

theorem Outcome.ofResult_eq_delivered {r : Result Delivery} {d : Delivery} :
    Outcome.ofResult r = .delivered d ↔ r = .ok d := by
  cases r <;> simp [Outcome.ofResult]

/-- A job that ends with something delivered has parameters, and it is the
audit of its call that came to it. -/
theorem audit_of_delivered {σ : Type} {a : Auditor} {job : Job} {d : Delivery} {g : Guard}
    {serve : σ → Request → Reply × σ} {s : σ}
    (h : ((Run.new job).finish a (noted serve) (s, []) g).1.outcome? = some (.delivered d)) :
    ∃ p, job.params = some p ∧
      (a.audit p p.call).Goes ((Run.new job).finish a (noted serve) (s, []) g).2.2.2 (.ok d) := by
  cases hparams : job.params with
  | none => simp [Run.finish, receive, hparams, Run.outcome?] at h
  | some p =>
    obtain ⟨o, g', s', log, hrun, hcases⟩ := finish_cases a hparams g serve s
    rw [hrun] at h ⊢
    obtain rfl := Option.some.inj h
    rcases hcases with ⟨-, hdelivered⟩ | ⟨result, haudit, hresult⟩
    · cases hdelivered
    · obtain rfl := Outcome.ofResult_eq_delivered.mp hresult.symm
      exact ⟨p, rfl, haudit⟩

/-- **The protocol of an audit.** A job whose parameters are missing or name
no call is rejected, and one whose call is in hand is turned away, without
a request. For any other job, whatever services answer, the requests are
those of `Proceedings`: the call is to be transcribed, its transcript is
searched for, and the plan of the job is followed as far as every reply is
of use. -/
theorem request_protocol {σ : Type} (a : Auditor) (job : Job) (g : Guard)
    (serve : σ → Request → Reply × σ) (s : σ) :
    ∃ o g' s' log, Run.finish a (noted serve) (s, []) g (.new job) = (.ended o, g', s', log) ∧
      (job.params = none → log = [] ∧ o = .rejected .noParams) ∧
      ∀ p, job.params = some p →
        (p.call = "" ∨ p.call = "0" → log = [] ∧ o = .rejected .noCall) ∧
        (p.call ≠ "" → p.call ≠ "0" → g.holds p.call = true → log = [] ∧ o = .inHand p.call) ∧
        (p.call ≠ "" → p.call ≠ "0" → g.holds p.call = false →
          ∃ create polls made, log = create :: polls ++ made.map Prod.snd
            ∧ Proceedings a p create polls made o) := by
  simp only [Run.finish, receive]
  cases hparams : job.params with
  | none => exact ⟨_, _, _, _, rfl, fun _ => ⟨rfl, rfl⟩, fun p hp => by cases hp⟩
  | some p =>
    simp only [reduceCtorEq, false_implies, true_and, Option.some.injEq, forall_eq']
    cases hnames : p.namesCall with
    | false =>
      have hnone : p.call = "" ∨ p.call = "0" := by
        by_contra hcall
        rw [not_or] at hcall
        rw [Params.namesCall_iff.mpr hcall] at hnames
        cases hnames
      refine ⟨_, _, _, _, rfl, fun _ => ⟨rfl, rfl⟩, ?_, ?_⟩ <;> intro hempty hzero <;>
        exact absurd hnone (not_or.mpr ⟨hempty, hzero⟩)
    | true =>
      obtain ⟨hempty, hzero⟩ := Params.namesCall_iff.mp hnames
      have hnamed : p.call = "" ∨ p.call = "0" → False := by simp [hempty, hzero]
      simp only [if_true]
      cases hadmit : g.admit? p.call with
      | none =>
        refine ⟨_, _, _, _, rfl, fun h => (hnamed h).elim, fun _ _ _ => ⟨rfl, rfl⟩, ?_⟩
        intro _ _ hfree
        rw [Guard.admit?_eq_none.mp hadmit] at hfree
        cases hfree
      | some g' =>
        obtain ⟨log, hlog, hgoes⟩ := Session.run_noted serve (a.conduct p p.call) s []
        refine ⟨_, _, _, _, rfl, fun h => (hnamed h).elim, ?_, fun _ _ _ => ?_⟩
        · intro _ _ hheld
          rw [(Guard.admit?_eq_some.mp hadmit).1] at hheld
          cases hheld
        · rw [hlog, List.nil_append]
          exact proceedings_of_conduct hgoes

/-- An auditor whose services can be told apart by their addresses. -/
def obligedAuditor : Auditor where
  services := ⟨⟨"transcript", "history", "phrases", "patch", "form", "rate"⟩, none, ⟨0⟩⟩
  model := { baseUrl := "model", key := some " key " }
  settings := {}

/-- Services that have an answer to everything. -/
def oblige (s : Unit) (r : Request) : Reply × Unit :=
  let body :=
    if r.url = "history" then
      "\x7b\"items\":[\x7b\"transcripts\":[\x7b\"id\":\"t\"\x7d]\x7d]\x7d"
    else if r.url = "phrases" then "\x7b\x7d"
    else "\x7b\"choices\":[\x7b\"message\":\x7b\"content\":\"Summary: fine\"\x7d\x7d]\x7d"
  (some ⟨200, body⟩, s)

/-- A call that is written with blanks around it is summed up and the summary
delivered, with five requests. -/
theorem request_protocol_summary :
    let p : Params := { callId := " call " }
    ∃ g' s' create polls made,
      Run.finish obligedAuditor (noted oblige) ((), []) .empty
          (.new { (default : Job) with params := some p })
        = (.ended (.delivered (.summary "fine" "")), g', s', create :: polls ++ made.map Prod.snd)
      ∧ (create :: polls ++ made.map Prod.snd).length = 5
      ∧ Proceedings obligedAuditor p create polls made (.delivered (.summary "fine" "")) := by
  intro p
  obtain ⟨o, g', s', log, hrun, -, h⟩ := request_protocol obligedAuditor
    { (default : Job) with params := some p } .empty oblige ()
  obtain ⟨-, -, h⟩ := h p rfl
  obtain ⟨create, polls, made, rfl, hproceed⟩ := h (by decide) (by decide) rfl
  have hout : (Run.finish obligedAuditor (noted oblige) ((), []) .empty
      (.new { (default : Job) with params := some p })).1.outcome?
        = some (.delivered (.summary "fine" "")) := by decide +kernel
  have hlen : (Run.finish obligedAuditor (noted oblige) ((), []) .empty
      (.new { (default : Job) with params := some p })).2.2.2.length = 5 := by decide +kernel
  rw [hrun] at hout hlen
  cases hout
  exact ⟨g', s', create, polls, made, hrun, hlen, hproceed⟩

end CallAudit
