/-
CallAudit.Proofs.Audit.EmptyReply — replies with nothing in them.

The reply of the model to a call that is to be summed up is worked with if
it has a line with one of the labels, and only then. Whether anything
follows the label is not looked at, so a summary that is delivered may well
be empty, and its category too.

* `SumsUp.of_asked` — what a reply of the model leads to, by its labels.
* `HandedIn` — the end of an audit whose last request hands in what follows
  the labels of a reply.
* `delivered_iff_labelled` — all together, for every job without a form and
  whatever services answer.
* `empty_summary_delivered` — labels alone are delivered.
-/
import CallAudit.Proofs.Audit.Steps

namespace CallAudit

open CallAudit.Http (Exchange Reply Request Session noted)
open CallAudit.Verdict (Summary)
open CallAudit.Verdict.Summary (Labelled Says)

variable {a : Auditor} {p : Params} {call dialogue : String} {log : List Exchange}
  {r : Result Delivery}

/-! ## Requests of the model -/

theorem not_asksModel {q : Request} (h : q.authorization = none) : ¬ Errand.model.Asks a p q := by
  rintro ⟨key, system, user, -, rfl⟩
  cases h

/-! ## Summing up -/

namespace SumsUp

/-- What a reply of the model leads to: without a label to nothing, and with
one to a request by which something is handed in. -/
theorem of_asked (h : SumsUp a p call dialogue log r) {x : Exchange} (hx : x ∈ log)
    (hasks : Errand.model.Asks a p x.1) {text : String}
    (htext : LanguageModel.contentOf x.2 = .ok text) :
    (¬ Labelled text ∧ log = [x] ∧ r = .error (.model, .emptyReply)) ∨
      (Labelled text ∧ ∃ answer,
        log = [x, (a.summaryRequest p call (Summary.read text).said (Summary.read text).filed, answer)]
        ∧ ((answer.any (·.isSuccess) = true
              ∧ r = .ok (.summary (Summary.read text).said (Summary.read text).filed))
            ∨ (answer.any (·.isSuccess) = false ∧ ∃ f, r = .error (.delivery, f)))) := by
  have hother : ∀ summary category answer,
      x ≠ (a.summaryRequest p call summary category, answer) := by
    rintro summary category answer rfl
    exact not_asksModel rfl hasks
  cases h with
  | keyless _ => cases hx
  | unheard f _ herror =>
    obtain rfl := List.mem_singleton.mp hx
    rw [herror] at htext
    cases htext
  | unlabelled _ hsaid hempty =>
    obtain rfl := List.mem_singleton.mp hx
    obtain rfl := Except.ok.inj (hsaid.symm.trans htext)
    refine Or.inl ⟨fun hlabelled => ?_, rfl, rfl⟩
    rw [Summary.isEmpty_read.mpr hlabelled] at hempty
    cases hempty
  | @refused _ _ _ answer f _ hsaid hlabels hanswer =>
    obtain rfl : x = _ := by simpa [hother] using hx
    obtain rfl := Except.ok.inj (hsaid.symm.trans htext)
    exact Or.inr ⟨Summary.isEmpty_read.mp hlabels, answer, rfl, Or.inr ⟨hanswer, f, rfl⟩⟩
  | @accepted _ _ _ answer _ hsaid hlabels hanswer =>
    obtain rfl : x = _ := by simpa [hother] using hx
    obtain rfl := Except.ok.inj (hsaid.symm.trans htext)
    exact Or.inr ⟨Summary.isEmpty_read.mp hlabels, answer, rfl, Or.inl ⟨hanswer, rfl⟩⟩

/-- What is delivered was said by the model in a reply with a label. -/
theorem of_ok {d : Delivery} (h : SumsUp a p call dialogue log (.ok d)) :
    ∃ x ∈ log, Errand.model.Asks a p x.1 ∧ ∃ text, LanguageModel.contentOf x.2 = .ok text
      ∧ Labelled text ∧ d = .summary (Summary.read text).said (Summary.read text).filed := by
  cases h with
  | @accepted key text _ _ hkey hsaid hlabels _ =>
    exact ⟨_, List.mem_cons_self, ⟨key, _, _, hkey, rfl⟩, text, hsaid,
      Summary.isEmpty_read.mp hlabels, rfl⟩

end SumsUp

/-! ## A whole audit -/

/-- What follows the labels of a reply is handed in by the last of some
exchanges, and delivered if it is accepted. -/
def HandedIn (a : Auditor) (p : Params) (text : String) (log : List Exchange) (o : Outcome) :
    Prop :=
  let said := (Summary.read text).said
  let filed := (Summary.read text).filed
  ∃ answer, log.getLast? = some (a.summaryRequest p p.call said filed, answer)
    ∧ ((answer.any (·.isSuccess) = true ∧ o = .delivered (.summary said filed))
      ∨ (answer.any (·.isSuccess) = false ∧ ∃ f, o = .abandoned .delivery f))

/-- **Delivered if labelled.** Whatever services answer, a summary that is
delivered for a job without a form was said by the model in a reply with a
label, and it is empty, with an empty category, exactly if nothing follows
the labels that the reply has. Conversely, a reply without a label is the end
of the audit and changes nothing, and after one with a label the call is
patched with what follows the labels, which is delivered if this succeeds. -/
theorem delivered_iff_labelled {σ : Type} (a : Auditor) {job : Job} {p : Params}
    (hparams : job.params = some p) (hform : p.form? = none) (serve : σ → Request → Reply × σ)
    (s : σ) (g : Guard) :
    ∃ o g' s' log, (Run.new job).finish a (noted serve) (s, []) g = (.ended o, g', s', log)
      ∧ (∀ d, o = .delivered d → ∃ x ∈ log, Errand.model.Asks a p x.1
          ∧ ∃ text summary category, LanguageModel.contentOf x.2 = .ok text
            ∧ Says text summary category ∧ d = .summary summary category)
      ∧ ∀ x ∈ log, Errand.model.Asks a p x.1 →
          ∀ text, LanguageModel.contentOf x.2 = .ok text →
            (¬ Labelled text →
              o = .abandoned .model .emptyReply ∧ ∀ y ∈ log, y.1.method ≠ .patch)
            ∧ (Labelled text → HandedIn a p text log o) := by
  obtain ⟨o, g', s', log, hrun, hcases⟩ := finish_cases a hparams g serve s
  refine ⟨o, g', s', log, hrun, ?_, ?_⟩
  · rintro d rfl
    rcases hcases with ⟨-, hdelivered⟩ | ⟨result, haudit, hresult⟩
    · cases hdelivered
    obtain rfl := Outcome.ofResult_eq_delivered.mp hresult.symm
    obtain ⟨before, after, rfl, -, ⟨-, _, herror⟩ | ⟨dialogue, hsums⟩⟩ :=
      summing_of_audit hform haudit
    · cases herror
    obtain ⟨x, hx, hasks, text, hsaid, hlabelled, rfl⟩ := hsums.of_ok
    exact ⟨x, List.mem_append_right before hx, hasks, text, _, _, hsaid,
      Summary.says_read hlabelled, rfl⟩
  · intro x hx hasks text htext
    rcases hcases with ⟨rfl, -⟩ | ⟨result, haudit, rfl⟩
    · cases hx
    obtain ⟨before, after, rfl, hbefore, hafter⟩ := summing_of_audit hform haudit
    -- the question is not among what only consults the history
    have hasked : x ∈ after := by
      rcases List.mem_append.mp hx with hx | hx
      · exact absurd hasks (not_asksModel (hbefore x hx).1)
      · exact hx
    rcases hafter with ⟨rfl, -⟩ | ⟨dialogue, hsums⟩
    · cases hasked
    rcases hsums.of_asked hasked hasks htext with
      ⟨hbare, rfl, rfl⟩ | ⟨hlabelled, answer, rfl, hanswer⟩
    · refine ⟨fun _ => ⟨rfl, fun y hy => ?_⟩, fun h => absurd h hbare⟩
      rcases List.mem_append.mp hy with hy | hy
      · exact (hbefore y hy).2
      · rw [List.mem_singleton.mp hy]
        exact hasks.method (by decide)
    · refine ⟨fun h => absurd hlabelled h, fun _ => ⟨answer, by simp, ?_⟩⟩
      rcases hanswer with ⟨hyes, rfl⟩ | ⟨hno, f, rfl⟩
      · exact Or.inl ⟨hyes, rfl⟩
      · exact Or.inr ⟨hno, f, rfl⟩

/-- Services that have a transcript without phrases, and a model that says
something, given as the text of a JSON string. -/
def saying (content : String) (s : Unit) (r : Request) : Reply × Unit :=
  let body :=
    if r.url = "history" then
      "\x7b\"items\":[\x7b\"transcripts\":[\x7b\"id\":\"t\"\x7d]\x7d]\x7d"
    else if r.url = "phrases" then "\x7b\x7d"
    else "\x7b\"choices\":[\x7b\"message\":\x7b\"content\":\"" ++ content ++ "\"\x7d\x7d]\x7d"
  (some ⟨200, body⟩, s)

/-- The call that is summed up by the model. -/
def summaryJob : Job :=
  { (default : Job) with params := some { callId := "call" } }

/-- The category alone, with other text before it, is delivered. -/
theorem delivered_iff_labelled_category :
    ∃ g' log, (Run.new summaryJob).finish obligedAuditor (noted (saying "Well.\\n  CATEGORY: Sales"))
        ((), []) .empty = (.ended (.delivered (.summary "" "Sales")), g', (), log)
      ∧ ∃ x ∈ log, ∃ text, LanguageModel.contentOf x.2 = .ok text ∧ Says text "" "Sales" := by
  obtain ⟨o, g', s', log, hrun, hdelivered, -⟩ := delivered_iff_labelled obligedAuditor
    (rfl : summaryJob.params = _) rfl (saying "Well.\\n  CATEGORY: Sales") () .empty
  have hout : ((Run.new summaryJob).finish obligedAuditor
      (noted (saying "Well.\\n  CATEGORY: Sales")) ((), []) .empty).1.outcome?
        = some (.delivered (.summary "" "Sales")) := by decide +kernel
  rw [hrun] at hout
  obtain rfl := Option.some.inj hout
  obtain ⟨x, hx, -, text, summary, category, hsaid, hsays, hd⟩ := hdelivered _ rfl
  cases hd
  exact ⟨g', log, hrun, x, hx, text, hsaid, hsays⟩

/-- Labels with nothing after them are delivered as an empty summary with an
empty category, and the call is patched. -/
theorem empty_summary_delivered :
    let run := (Run.new summaryJob).finish obligedAuditor (noted (saying "Summary:\\nCategory:"))
      ((), []) .empty
    run.1.outcome? = some (.delivered (.summary "" ""))
      ∧ run.2.2.2.map (·.1.method) = [.post, .post, .get, .post, .patch] := by
  decide +kernel

end CallAudit
