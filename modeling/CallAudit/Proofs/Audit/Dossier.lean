/-
CallAudit.Proofs.Audit.Dossier — what a delivery was made from.

Between the search that finds the transcript of a call and the request that
hands something in there are up to three others, and each is made from what
the one before it was answered. A name in the wrong place or the reply of
another request would not be noticed: what is handed in is accepted all the
same. So the exchanges of an audit that delivered something are kept here
side by side, with what each of them was made from.

* `Dossier` — the exchanges of such an audit, by what they are for.
* `Heard` — what services told up to the reply of the model: the
  transcript, the names of the parties, the phrases and the reply.
* `messagesIn`, `variablesIn`, `ratingIn` — what those who receive a request
  find in it, each with the lemma that they find what was put there.
* `SummedUp`, `Scored` — what the model was asked and what was handed in,
  by the mode of the job.
* `dossier_of_audit` — the exchanges of an audit that delivers something are
  those of a dossier.
* `delivered_as_sent` — all together, for every job and whatever services
  answer.
-/
import CallAudit.Proofs.Audit.TargetField

namespace CallAudit

open CallAudit.Http (Exchange Method Reply Request Session noted)
open CallAudit.Json (Decoder Value)
open CallAudit.CallHistory (Transcript)
open CallAudit.Verdict (Scores Summary)

/-! ## Templates -/

namespace Text

/-- The first occurrence of a pattern is replaced, if there is one. -/
theorem replaceFirst_of_infix {pattern cs : List Char} (h : pattern <:+: cs) (by_ : List Char) :
    ∃ before after, cs = before ++ (pattern ++ after)
      ∧ replaceFirst pattern by_ cs = before ++ (by_ ++ after) := by
  induction cs with
  | nil =>
    obtain rfl := List.infix_nil.mp h
    exact ⟨[], [], rfl, by simp [replaceFirst]⟩
  | cons c rest ih =>
    by_cases hhere : pattern <+: c :: rest
    · obtain ⟨after, hafter⟩ := hhere
      refine ⟨[], after, hafter.symm, ?_⟩
      rw [replaceFirst, if_pos (List.isPrefixOf_iff_prefix.mpr ⟨after, hafter⟩), ← hafter,
        List.drop_left, List.nil_append]
    · have hlater : pattern <:+: rest := by
        rcases List.infix_cons_iff.mp h with hhead | hlater
        · exact absurd hhead hhere
        · exact hlater
      obtain ⟨before, after, hcs, hreplaced⟩ := ih hlater
      refine ⟨c :: before, after, by rw [hcs, List.cons_append], ?_⟩
      rw [replaceFirst, if_neg (mt List.isPrefixOf_iff_prefix.mp hhere), hreplaced,
        List.cons_append]

end Text

/-! ## What is found in a request -/

namespace Json.Value

/-- The items of an array. -/
def items? : Value → Option (List Value)
  | .array xs => some xs
  | _ => none

/-- The whole number of a number. -/
def whole? : Value → Option Int
  | .number (.whole n) => some n
  | _ => none

end Json.Value

/-- The text of a member. -/
def textIn (name : String) (v : Value) : Option String :=
  (v.get? name).bind Value.string?

/-- The items of a member. -/
def itemsIn (name : String) (v : Value) : Option (List Value) :=
  (v.get? name).bind Value.items?

/-- The texts of two members. -/
def pairIn (first second : String) (v : Value) : Option (String × String) :=
  (textIn first v).bind fun a => (textIn second v).map fun b => (a, b)

/-- The messages of a chat: who is to say it, and what is said. -/
def messagesIn (v : Value) : Option (List (String × String)) :=
  (itemsIn "messages" v).bind fun ms => ms.mapM (pairIn "role" "content")

/-- The variables that are to be set. -/
def variablesIn (v : Value) : Option (List (String × String)) :=
  (itemsIn "variables" v).bind fun vs => vs.mapM (pairIn "name" "value")

/-- A score. -/
def scoreIn (v : Value) : Option Int :=
  (v.get? "score").bind Value.whole?

/-- A rating: the call, the form and the scores. -/
def ratingIn (v : Value) : Option (String × Int × Scores) := do
  let call ← textIn "call_id" v
  let form ← ((v.get? "form").bind (Value.get? "id")).bind Value.whole?
  let scores ← (itemsIn "answers" v).bind fun answers => answers.mapM scoreIn
  let comment ← textIn "comment" v
  return (call, form, ⟨scores, comment⟩)

/-- What was written down one by one is read back one by one. -/
theorem mapM_map_some {α β : Type} {f : α → β} {g : β → Option α} (h : ∀ x, g (f x) = some x)
    (xs : List α) : (xs.map f).mapM g = some xs := by
  induction xs with
  | nil => rfl
  | cons x rest ih => simp [h, ih]

theorem messagesIn_chatBody (m : ModelSettings) (system user : String) :
    messagesIn (LanguageModel.chatBody m system user)
      = some [("system", system), ("user", user)] := rfl

theorem variablesIn_patchBody (values : List (String × String)) :
    variablesIn (CallHistory.patchBody values) = some values := by
  have hread : ∀ v : String × String, pairIn "name" "value"
      (.object [("name", .string v.1), ("value", .string v.2)]) = some v := fun _ => rfl
  exact mapM_map_some hread values

theorem ratingIn_rating (call : String) (form : Int) (scores : Scores) :
    ratingIn (scores.rating call form) = some (call, form, scores) := by
  have hread : ∀ n : Int, scoreIn (.object [("score", Value.int n)]) = some n := fun _ => rfl
  have hscores : (itemsIn "answers" (scores.rating call form)).bind
      (fun answers => answers.mapM scoreIn) = some scores.scores :=
    mapM_map_some hread scores.scores
  rw [ratingIn, hscores]
  rfl

/-! ## The exchanges of a delivery -/

/-- The exchanges of an audit that delivered something. -/
structure Dossier where
  transcribed : Exchange
  /-- The searches that found no transcript. -/
  missed : List Exchange
  found : Exchange
  phrases : Exchange
  /-- The form, if there is one to fill in. -/
  forms : List Exchange
  asked : Exchange
  handedIn : Exchange

namespace Dossier

/-- All exchanges in their order. -/
def log (x : Dossier) : List Exchange :=
  x.transcribed :: (x.missed ++ [x.found]) ++ x.phrases :: (x.forms ++ [x.asked, x.handedIn])

end Dossier

/-- What services told in an audit up to the reply of the model: a transcript
with the names of the parties, the phrases of just this transcript, and the
text of the first choice of the model. -/
structure Heard (a : Auditor) (p : Params) (x : Dossier) (t : Transcript) (phrases : List Phrase)
    (text : String) : Prop where
  transcribed : Errand.transcribe.Asks a p x.transcribed.1
  missed : ∀ y ∈ x.missed, Errand.search.Asks a p y.1 ∧ transcriptIn y.2 = none
  found : Errand.search.Asks a p x.found.1 ∧ transcriptIn x.found.2 = some t
  phrases : x.phrases.1 = CallHistory.requestTo a.services .get
      (Text.fill a.services.endpoints.phrases "\x7bid\x7d" t.id) none
    ∧ Errand.told CallHistory.phrasePage x.phrases.2 = some phrases
  text : ∃ others, Errand.told LanguageModel.choices x.asked.2 = some (some text :: others)

/-- The model was asked something, with the key of the job or the settings. -/
structure Asked (a : Auditor) (p : Params) (x : Dossier) (system user : String) : Prop where
  request : ∃ key, LanguageModel.keyFor? a.model p.token = some key
    ∧ x.asked.1 = LanguageModel.chatRequest a.model key system user
  messages : x.asked.1.body.bind messagesIn = some [("system", system), ("user", user)]

/-- The call was summed up, and its summary and category set as variables. -/
structure SummedUp (a : Auditor) (p : Params) (x : Dossier) (t : Transcript)
    (phrases : List Phrase) (text summary category : String) : Prop where
  mode : p.form? = none ∧ x.forms = []
  asked : Asked a p x Instruction.summarySystem
    (Instruction.summary (Conversation.dialogue t.parties phrases) a.settings.categories
      p.defaultPrompt)
  parsed : summary = (Summary.read text).said ∧ category = (Summary.read text).filed
  handedIn : x.handedIn.1 = a.summaryRequest p p.call summary category
  /-- The call is named where the template has a place for it. -/
  url : "\x7buuid\x7d".toList <:+: a.services.endpoints.patch.toList →
    ∃ before after, a.services.endpoints.patch = before ++ "\x7buuid\x7d" ++ after
      ∧ x.handedIn.1.url = before ++ p.call ++ after
  values : ∃ values, x.handedIn.1.body.bind variablesIn = some values
    ∧ (values.map Prod.fst).Nodup ∧ values.lookup "aiCategory" = some category
    ∧ values.lookup "aiSummary" = some summary

/-- The call was scored by a form, and a rating handed in. -/
structure Scored (a : Auditor) (p : Params) (x : Dossier) (t : Transcript)
    (phrases : List Phrase) (text : String) (form : Int) (scores : Scores) : Prop where
  mode : p.form? = some form
  asked : ∃ y questions, x.forms = [y] ∧ y.1 = a.formRequest form
    ∧ Errand.told Form.decoder y.2 = some questions
    ∧ Asked a p x Instruction.scorecardSystem
        (Instruction.scorecard (Conversation.dialogue t.parties phrases) questions p.explains)
  parsed : scores = Scores.read text ∧ scores.scores ≠ []
  handedIn : x.handedIn.1 = a.ratingRequest p.call form scores
  rating : x.handedIn.1.body.bind ratingIn = some (p.call, form, scores)

/-! ## A whole audit -/

section Audits

variable {a : Auditor} {p : Params} {log : List Exchange}

/-- What is delivered, by the mode of the job. -/
def Delivers (a : Auditor) (p : Params) (x : Dossier) (t : Transcript) (phrases : List Phrase)
    (text : String) : Delivery → Prop
  | .summary summary category => SummedUp a p x t phrases text summary category
  | .scorecard form scores => Scored a p x t phrases text form scores

theorem summedUp_of_exchanges {x : Dossier} {t : Transcript} {phrases : List Phrase}
    {key text : String} (mode : p.form? = none) (forms : x.forms = [])
    (hkey : LanguageModel.keyFor? a.model p.token = some key)
    (asked : x.asked.1
      = a.summaryQuestion p key (Conversation.dialogue t.parties phrases))
    (handedIn : x.handedIn.1
      = a.summaryRequest p p.call (Summary.read text).said (Summary.read text).filed) :
    SummedUp a p x t phrases text (Summary.read text).said (Summary.read text).filed where
  mode := ⟨mode, forms⟩
  asked := ⟨⟨key, hkey, asked⟩, by
    rw [asked]
    exact messagesIn_chatBody a.model _ _⟩
  parsed := ⟨rfl, rfl⟩
  handedIn := handedIn
  url := by
    intro hplace
    obtain ⟨before, after, htemplate, hfilled⟩ :=
      Text.replaceFirst_of_infix hplace p.call.toList
    refine ⟨.ofList before, .ofList after, ?_, ?_⟩
    · apply String.toList_injective
      simp [htemplate]
    · rw [handedIn]
      simp only [Auditor.summaryRequest, CallHistory.requestTo, Text.fill, hfilled]
      apply String.toList_injective
      simp
  values := by
    refine ⟨_, ?_, nodup_summaryVariables p (Summary.read text).said (Summary.read text).filed,
      rfl, rfl⟩
    rw [handedIn]
    exact variablesIn_patchBody _

theorem scored_of_exchanges {x : Dossier} {t : Transcript} {phrases : List Phrase}
    {key text : String} {form : Int} {scores : Scores} {questions : Form} {y : Exchange}
    (mode : p.form? = some form) (forms : x.forms = [y]) (fetched : y.1 = a.formRequest form)
    (told : Errand.told Form.decoder y.2 = some questions)
    (hkey : LanguageModel.keyFor? a.model p.token = some key)
    (asked : x.asked.1
      = a.scoresQuestion p key (Conversation.dialogue t.parties phrases) questions)
    (read : scores = Scores.read text) (some_scores : scores.isEmpty = false)
    (handedIn : x.handedIn.1 = a.ratingRequest p.call form scores) :
    Scored a p x t phrases text form scores where
  mode := mode
  asked := by
    refine ⟨y, questions, forms, fetched, told, ⟨key, hkey, asked⟩, ?_⟩
    rw [asked]
    exact messagesIn_chatBody a.model _ _
  parsed := ⟨read, by simpa [Scores.isEmpty] using some_scores⟩
  handedIn := handedIn
  rating := by
    rw [handedIn]
    exact ratingIn_rating p.call form scores

/-- Whatever services answer, what an audit delivers is made from what they
told. -/
theorem dossier_of_audit {d : Delivery} (h : (a.audit p p.call).Goes log (.ok d)) :
    ∃ x t phrases text, log = x.log ∧ x.handedIn.2.any (·.isSuccess) = true
      ∧ Heard a p x t phrases text ∧ Delivers a p x t phrases text d := by
  obtain ⟨_, t, _, rfl, hawait, hafter⟩ := ok_of_thenAt h
  obtain ⟨create, missed, found, rfl, hcreate, hasks, hfound, hmissed⟩ := awaited_of_goes hawait
  obtain ⟨_, phrases, rest, rfl, hfetch, hmode⟩ := ok_of_thenAt hafter
  obtain ⟨fetched, rfl, htold⟩ := told_of_goes hfetch
  cases hform : p.form? with
  | none =>
    simp only [hform] at hmode
    cases sumsUp_of_goes hmode with
    | @accepted key text reply answer hkey hcontent hlabels hanswer =>
      refine ⟨⟨create, missed, found, (_, fetched), [], (_, reply), (_, answer)⟩, t, phrases, text,
        rfl, hanswer, ?_, ?_⟩
      · exact ⟨hcreate, hmissed, ⟨hasks, hfound⟩, ⟨rfl, htold⟩, choices_of_contentOf hcontent⟩
      · exact summedUp_of_exchanges hform rfl hkey rfl rfl
  | some form =>
    simp only [hform] at hmode
    obtain ⟨key, questions, text, scores, filled, reply, answer, rfl, hquestions, hkey, hcontent,
      hread, hscores, hanswer, rfl⟩ := scored_of_goes hmode
    refine ⟨⟨create, missed, found, (_, fetched), [(_, filled)], (_, reply), (_, answer)⟩, t,
      phrases, text, rfl, hanswer, ?_, ?_⟩
    · exact ⟨hcreate, hmissed, ⟨hasks, hfound⟩, ⟨rfl, htold⟩, choices_of_contentOf hcontent⟩
    · exact scored_of_exchanges hform rfl rfl hquestions hkey rfl hread hscores rfl

end Audits

/-- **Delivered as sent.** Whenever a job ends with something delivered,
whatever services answered, its exchanges are those of a dossier: the
transcript and the names are from the one search that told of a transcript,
the phrases are those of this transcript, the model was asked about just
these phrases and names, what is delivered is what the text of its first
choice says, and the last request hands in just that for the call of the job
and was answered with success. -/
theorem delivered_as_sent {σ : Type} {a : Auditor} {job : Job} {d : Delivery}
    (serve : σ → Request → Reply × σ) (s : σ) (g : Guard)
    (h : ((Run.new job).finish a (noted serve) (s, []) g).1.outcome? = some (.delivered d)) :
    ∃ p x t phrases text, job.params = some p
      ∧ ((Run.new job).finish a (noted serve) (s, []) g).2.2.2 = x.log
      ∧ x.handedIn.2.any (·.isSuccess) = true
      ∧ Heard a p x t phrases text ∧ Delivers a p x t phrases text d := by
  obtain ⟨p, hparams, haudit⟩ := audit_of_delivered h
  obtain ⟨x, t, phrases, text, hdossier⟩ := dossier_of_audit haudit
  exact ⟨p, x, t, phrases, text, hparams, hdossier⟩

/-- Services that tell of a transcript at the second search, with the names
of the parties. -/
def secondSearch (searches : Nat) (r : Request) : Reply × Nat :=
  if r.url = "history" then
    if searches = 0 then (some ⟨200, "\x7b\x7d"⟩, 1)
    else (some ⟨200, "\x7b\"items\":[\x7b\"transcripts\":[\x7b\"id\":7\x7d],"
      ++ "\"from\":\x7b\"name\":\"Ann\"\x7d,\"to\":\x7b\"name\":\"Bob\"\x7d\x7d]\x7d"⟩, searches + 1)
  else if r.url = "phrases" then
    (some ⟨200, "\x7b\"items\":[\x7b\"channel\":1,\"phrase\":\"hello\"\x7d,"
      ++ "\x7b\"channel\":0,\"phrase\":\"hi\"\x7d]\x7d"⟩, searches)
  else if r.url = "model/chat/completions" then
    (some ⟨200, "\x7b\"choices\":[\x7b\"message\":\x7b\"content\":"
      ++ "\"\x7b\\\"answers\\\":[\x7b\\\"score\\\":9.5\x7d,\x7b\\\"score\\\":-1\x7d]\x7d\"\x7d\x7d]\x7d"⟩,
      searches)
  else (some ⟨200, "\x7b\x7d"⟩, searches)

/-- A call is scored by a form: the parties are named by the reply to the
second search, and both scores are handed in. -/
theorem delivered_as_sent_scores :
    let p : Params := { callId := " call ", scorecard := some 3 }
    let job : Job := { (default : Job) with params := some p }
    ∃ x t phrases text,
      ((Run.new job).finish obligedAuditor (noted secondSearch) (0, []) .empty).2.2.2 = x.log
      ∧ x.missed.length = 1 ∧ Heard obligedAuditor p x t phrases text
      ∧ t = ⟨"7", ⟨some "Ann", some "Bob"⟩⟩
      ∧ x.handedIn.1.body.bind ratingIn = some ("call", 3, ⟨[10, -1], ""⟩) := by
  intro p job
  have hcall : p.call = "call" := by decide +kernel
  obtain ⟨hdelivered, hlen, hfound⟩ :
      let run := (Run.new job).finish obligedAuditor (noted secondSearch) (0, []) .empty
      run.1.outcome? = some (.delivered (.scorecard 3 ⟨[10, -1], ""⟩)) ∧ run.2.2.2.length = 7
        ∧ (run.2.2.2.reverse[4]?).bind (fun y => transcriptIn y.2)
          = some ⟨"7", ⟨some "Ann", some "Bob"⟩⟩ := by decide +kernel
  obtain ⟨q, x, t, phrases, text, hq, hlog, -, hheard, hscored⟩ :=
    delivered_as_sent secondSearch 0 .empty hdelivered
  obtain rfl : p = q := Option.some.inj hq
  obtain ⟨y, questions, hforms, -⟩ := hscored.asked
  rw [hlog] at hlen hfound
  refine ⟨x, t, phrases, text, hlog, ?_, hheard, ?_, ?_⟩
  · simp [Dossier.log, hforms] at hlen
    omega
  · have hlast : x.log.reverse[4]? = some x.found := by simp [Dossier.log, hforms]
    rw [hlast, Option.bind_some, hheard.found.2] at hfound
    exact Option.some.inj hfound
  · rw [← hcall]
    exact hscored.rating

end CallAudit
