/-
CallAudit.CallHistory — the services of the call history.

* `Services` — where they are and how they are addressed.
* `Failure` — why what was asked of a service, or a whole audit, failed.
* `createTranscript`, `findTranscript`, `fetchPhrases`, `fetchForm`,
  `rate`, `patch` — what is asked of them, each in a single request.
-/
import CallAudit.Conversation
import CallAudit.Form
import CallAudit.Http.Session
import CallAudit.Settings.Basic
import CallAudit.Text.Lines
import CallAudit.Verdict.Scores

namespace CallAudit

open CallAudit.Http (Method Request Response Reply Session)
open CallAudit.Json (Fault Value Decoder)
open CallAudit.Json.Decoder (field)
open CallAudit.Time (Span)

/-! ## Failures -/

/-- Why the language model gave no reply. -/
inductive ModelFailure where
  | transport
  | api (status : Nat) (message : String)
  | unreadable (fault : Fault)
  | emptyContent
  | noKey
deriving DecidableEq, Repr

/-- A failure of the language model in words. -/
def ModelFailure.text : ModelFailure → String
  | transport => "LLM HTTP error"
  | api status message => s!"LLM API error (status {status}): {message}"
  | unreadable _ => "LLM JSON parse error"
  | emptyContent => "LLM returned empty content"
  | noKey => "no LLM API key on the job or in configuration"

/-- Why an audit came to no end. `what` names what was asked for. -/
inductive Failure where
  | notReady (attempts : Nat)
  | status (what : String) (status : Nat) (body : String)
  | transport (what : String)
  | unreadable (what : String) (fault : Fault)
  | model (failure : ModelFailure)
  | emptyReply
deriving DecidableEq, Repr

namespace Failure

/-- The short name of a failure. -/
def code : Failure → String
  | notReady _ => "TRANSCRIPT_NOT_READY"
  | status .. => "HTTP_STATUS"
  | transport _ => "HTTP_TRANSPORT"
  | unreadable .. => "BAD_RESPONSE"
  | model _ => "LLM"
  | emptyReply => "EMPTY_REPLY"

/-- A failure in words. -/
def text : Failure → String
  | notReady attempts => s!"transcript not ready after {attempts} attempts"
  | status what code body => s!"{what} returned status {code}: {body}"
  | transport what => s!"{what} request failed"
  | unreadable what _ => s!"{what} response did not decode"
  | model failure => failure.text
  | emptyReply => "model reply carried nothing to deliver"

end Failure

/-! ## Addressing the services -/

/-- Where the services are, the token they ask for and how long they may
take. -/
structure Services where
  endpoints : Endpoints
  accessToken : Option String
  timeout : Span

namespace CallHistory

/-- The text of an answer; any other reply is a failure. -/
def bodyOf (what : String) : Reply → Except Failure String
  | none => .error (.transport what)
  | some r => if r.isSuccess then .ok r.body else .error (.status what r.status r.body)

/-- What the text of an answer denotes. -/
def decode {α : Type} (what : String) (d : Decoder α) (body : String) : Except Failure α :=
  (Decoder.ofText d body).mapError (.unreadable what)

/-- A request to one of the services. -/
def requestTo (s : Services) (method : Method) (url : String) (body : Option Value) : Request :=
  { method, url, body, access := s.accessToken, timeout := s.timeout }

/-- A single request to one of the services and what is made of the text of
the answer. -/
def call {α : Type} (s : Services) (what : String) (method : Method) (url : String)
    (body : Option Value) (read : String → Except Failure α) (delay : Span := .seconds 0) :
    Session (Except Failure α) :=
  .request delay (requestTo s method url body) fun reply => bodyOf what reply >>= read

/-! ## Transcripts -/

/-- A call is to be transcribed. -/
def createTranscript (s : Services) (callId : String) : Session (Except Failure Unit) :=
  call s "create transcript" .post s.endpoints.transcript
    (some (.object [("uuid", .array [.string callId])])) fun _ => .ok ()

/-- What a search of the history is asked to tell of a call. -/
def searchFields : List String :=
  ["id", "files", "files_job", "transcripts", "variables", "has_children", "agent_description",
    "direction", "from", "to", "destination", "hold", "amd_ai_logs", "amd_result", "rate_id",
    "allow_evaluation", "form_fields", "parent_id", "transfer_from", "transfer_to", "created_at",
    "hangup_phrase", "user", "duration", "bill_sec", "talk_sec", "cause"]

/-- A search for one call. -/
def searchBody (callId : String) : Value :=
  .object
    [("sort", .string "-created_at"),
     ("fields", .array (searchFields.map Value.string)),
     ("created_at", .object [("from", .int 0)]),
     ("skip_parent", .bool true),
     ("id", .array [.string callId])]

/-- A transcript that can be fetched, and the names of the parties. -/
structure Transcript where
  id : String
  parties : Parties
deriving DecidableEq, Repr

/-- A call as a search finds it. -/
structure Found where
  transcripts : List Value := []
  caller : Option String := none
  callee : Option String := none

/-- A reference to a transcript, which may be any value. -/
def reference : Decoder Value :=
  Decoder.record [field "id" Decoder.anything fun v _ => v] .null

/-- A party, which may have a name. -/
def party : Decoder (Option String) :=
  Decoder.record [field "name" (Decoder.optional Decoder.string) fun n _ => n] none

/-- A call that was found. -/
def found : Decoder Found :=
  Decoder.record
    [field "transcripts" (Decoder.list reference) fun ts f => { f with transcripts := ts },
     field "from" (Decoder.optional party) fun p f => { f with caller := p.join },
     field "to" (Decoder.optional party) fun p f => { f with callee := p.join }]
    {}

/-- What a search finds. -/
def foundPage : Decoder (List Found) :=
  Decoder.record [field "items" (Decoder.list found) fun fs _ => fs] []

/-- The identifier in a reference: a text that is neither empty nor "0", or
a number that is not the whole number zero, as it is written in JSON. -/
def idText : Value → Option String
  | .string s => if s ≠ "" ∧ s ≠ "0" then some s else none
  | .number n => if n.int64? ≠ some 0 then some (String.ofList n.text) else none
  | _ => none

/-- The name of a party, unless it is blank. -/
def partyName (name : Option String) : Option String :=
  name.filter fun name => !Text.allBlank name

/-- The transcript of the first call that was found: its first one, if that
has an identifier. -/
def transcriptOf (fs : List Found) : Option Transcript := do
  let f ← fs.head?
  let id ← f.transcripts.head? >>= idText
  return ⟨id, partyName f.caller, partyName f.callee⟩

/-- The transcript of a call, once there is one. -/
def findTranscript (s : Services) (callId : String) (delay : Span := .seconds 0) :
    Session (Except Failure (Option Transcript)) :=
  call s "call history" .post s.endpoints.history (some (searchBody callId))
    (fun body => (decode "call history" foundPage body).map transcriptOf) delay

/-! ## What a call is audited by -/

/-- The phrases of a transcript; null stands for none. -/
def phrasePage : Decoder (List Phrase) :=
  Decoder.record
    [field "items" (Decoder.optional (Decoder.list Conversation.phrase)) fun ps _ => ps.getD []] []

/-- The phrases of a transcript. -/
def fetchPhrases (s : Services) (transcriptId : String) :
    Session (Except Failure (List Phrase)) :=
  call s "phrases" .get (Text.fill s.endpoints.phrases "\x7bid\x7d" transcriptId) none
    (decode "phrases" phrasePage)

/-- A form. -/
def fetchForm (s : Services) (formId : Int) : Session (Except Failure Form) :=
  call s "scorecard form" .get
    (Text.fill s.endpoints.form "\x7bid\x7d" (String.ofList (Json.intText formId))) none
    (decode "scorecard form" Form.decoder)

/-! ## What comes out of an audit -/

/-- A rating is handed in. -/
def rate (s : Services) (callId : String) (formId : Int) (scores : Verdict.Scores) :
    Session (Except Failure Unit) :=
  call s "rate" .post s.endpoints.rate (some (scores.rating callId formId)) fun _ => .ok ()

/-- Variables of a call, by their names, with their values. -/
def patchBody (values : List (String × String)) : Value :=
  .object
    [("hide_missed", .bool true),
     ("variables", .array (values.map fun v =>
       .object [("name", .string v.1), ("value", .string v.2)]))]

/-- Variables of a call are set. -/
def patch (s : Services) (callId : String) (values : List (String × String)) :
    Session (Except Failure Unit) :=
  call s "patch history" .patch (Text.fill s.endpoints.patch "\x7buuid\x7d" callId)
    (some (patchBody values)) fun _ => .ok ()

end CallHistory

end CallAudit
