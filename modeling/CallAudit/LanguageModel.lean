/-
CallAudit.LanguageModel — asking the language model.

* `keyFor?` — the key a request is made with: that of the job, or else the
  one of the settings.
* `chatRequest` — a request with instructions and a question.
* `contentOf` — the text of the first choice of a reply.
* `complete` — the reply to a question, in a single request.
-/
import CallAudit.CallHistory

namespace CallAudit.LanguageModel

open CallAudit.Http (Request Response Reply Session)
open CallAudit.Json (Value Decoder)
open CallAudit.Json.Decoder (field needed)
open CallAudit.Number (Binary Format)

/-! ## Requests -/

/-- The key a request is made with; a blank one is none. -/
def keyFor? (m : ModelSettings) (ofJob : Option String) : Option String :=
  (ofJob.bind Text.nonBlank).or (m.key.bind Text.nonBlank)

/-- A number of 32 bits as JSON: the shortest decimal that stands for it,
read as a number of 64 bits. -/
def singleNumber (x : Binary) : Json.Number :=
  if x.isZero then .real x
  else
    let (digits, exp) := Format.single.shortest x
    .real ((Format.double.ofDecimal x.neg digits exp).getD x)

/-- A message of a chat. -/
def message (role content : String) : Value :=
  .object [("role", .string role), ("content", .string content)]

/-- What is asked of a model. -/
def chatBody (m : ModelSettings) (system user : String) : Value :=
  .object
    ([("model", .string m.model),
      ("messages", .array [message "system" system, message "user" user])]
      ++ match m.temperature with
        | some x => [("temperature", .number (singleNumber x))]
        | none => [])

/-- The address of the model. -/
def chatUrl (m : ModelSettings) : String :=
  String.ofList (m.baseUrl.toList.reverse.dropWhile (· == '/')).reverse ++ "/chat/completions"

/-- A request made with a key. -/
def chatRequest (m : ModelSettings) (key system user : String) : Request :=
  { method := .post
    url := chatUrl m
    authorization := some ("Bearer " ++ key)
    body := some (chatBody m system user)
    timeout := m.timeout }

/-! ## Replies -/

/-- The message of a choice, which has to be there and may have a text. -/
def choiceMessage : Decoder (Option String) :=
  Decoder.record [field "content" (Decoder.optional Decoder.string) fun c _ => c] none

/-- A choice. -/
def choice : Decoder (Option String) :=
  Decoder.record [needed "message" choiceMessage fun c _ => c] none

/-- The choices of a reply. -/
def choices : Decoder (List (Option String)) :=
  Decoder.record [field "choices" (Decoder.list choice) fun cs _ => cs] []

/-- An error with a message. -/
def errorBody : Decoder String :=
  Decoder.record [needed "message" Decoder.string fun m _ => m] ""

/-- The message of an error that is told as JSON. -/
def errorMessage : Decoder String :=
  Decoder.record [needed "error" errorBody fun m _ => m] ""

/-- The text of the first choice, unless it is blank. -/
def firstText (cs : List (Option String)) : Option String :=
  cs.head?.join.filter fun text => !Text.allBlank text

/-- The text of a reply. -/
def contentOf : Reply → Except ModelFailure String
  | none => .error .transport
  | some r =>
    if r.isSuccess then
      match Decoder.ofText choices r.body with
      | .error fault => .error (.unreadable fault)
      | .ok cs =>
        match firstText cs with
        | some text => .ok text
        | none => .error .emptyContent
    else
      match Decoder.ofText errorMessage r.body with
      | .ok message => .error (.api r.status message)
      | .error _ => .error (.api r.status r.body)

/-- The reply to a question. Without a key nothing is asked. -/
def complete (m : ModelSettings) (ofJob : Option String) (system user : String) :
    Session (Except ModelFailure String) :=
  match keyFor? m ofJob with
  | none => .done (.error .noKey)
  | some key => .request (.seconds 0) (chatRequest m key system user) contentOf

end CallAudit.LanguageModel
