/-
CallAudit.Job.Params — what a job is about: the call, and the rule as it
was when the job was made.

* `Params` — the parameters of a job.
* `Params.decoder`, `Params.value` — the parameters from and as JSON.
* `Payload` — the parameters as they are stored: a JSON value, a text or
  some bytes.
* `Payload.params` — the parameters in a payload. A JSON value that is a
  string holds the text of the parameters.
* `Cell.payload?` — the payload in a cell of a table, if the cell can hold
  one and it can be read.
-/
import CallAudit.Json.Decode
import CallAudit.Json.Stored
import CallAudit.Text.Blank
import CallAudit.Time.Format

namespace CallAudit

open CallAudit.Json (Fault Stored Value Decoder)
open CallAudit.Json.Decoder (field)
open CallAudit.Time (Instant)

/-! ## Parameters -/

/-- The parameters of a job. -/
structure Params where
  callId : String := ""
  fileId : Option Int := none
  position : Option Int := none
  storedAt : Option Instant := none
  /-- Where the rule resumed when the job was made. -/
  since : Option Instant := none
  upTo : Option Instant := none
  direction : Option String := none
  minDuration : Option Int := none
  token : Option String := none
  cognitiveKey : Option String := none
  defaultPrompt : Option String := none
  saveExplanation : Option Bool := none
  target : Option String := none
  scorecard : Option Int := none
deriving DecidableEq, Repr, Inhabited

namespace Params

/-- The form to fill in; form zero stands for none. -/
def form? (p : Params) : Option Int :=
  p.scorecard.filter (· ≠ 0)

/-- Whether scores are to be explained. -/
def explains (p : Params) : Bool :=
  p.saveExplanation.getD false

/-- The identifier of the call without blanks around it. -/
def call (p : Params) : String :=
  Text.trimmed p.callId

/-- Whether the identifier names a call. -/
def namesCall (p : Params) : Bool :=
  p.call ≠ "" && p.call ≠ "0"

/-! ## Reading -/

/-- An instant, given as text. -/
def instant : Decoder Instant :=
  Decoder.filterMap Decoder.string Instant.read?

/-- The fields of the parameters in their order. -/
def fields : List (Decoder.Field Params) :=
  [field "call_id" Decoder.string fun a p => { p with callId := a },
   field "file_id" (Decoder.optional Decoder.int64) fun a p => { p with fileId := a },
   field "position" (Decoder.optional Decoder.int64) fun a p => { p with position := a },
   field "stored_at" (Decoder.optional instant) fun a p => { p with storedAt := a },
   field "from" (Decoder.optional instant) fun a p => { p with since := a },
   field "to" (Decoder.optional instant) fun a p => { p with upTo := a },
   field "call_direction" (Decoder.optional Decoder.string) fun a p => { p with direction := a },
   field "min_call_duration" (Decoder.optional Decoder.int32)
     fun a p => { p with minDuration := a },
   field "token" (Decoder.optional Decoder.string) fun a p => { p with token := a },
   field "cognitive_key" (Decoder.optional Decoder.string)
     fun a p => { p with cognitiveKey := a },
   field "default_prompt" (Decoder.optional Decoder.string)
     fun a p => { p with defaultPrompt := a },
   field "save_explanation" (Decoder.optional Decoder.bool)
     fun a p => { p with saveExplanation := a },
   field "variable" (Decoder.optional Decoder.string) fun a p => { p with target := a },
   field "scorecard" (Decoder.optional Decoder.int32) fun a p => { p with scorecard := a }]

/-- The parameters. All of them may be left out. -/
def decoder : Decoder Params :=
  Decoder.record fields {}

/-! ## Writing -/

/-- A member that is written only if it has a value. -/
def member {α : Type} (name : String) (f : α → Value) : Option α → List (String × Value)
  | some a => [(name, f a)]
  | none => []

/-- An instant as text. -/
def instantValue (t : Instant) : Value :=
  .string t.zulu

/-- The parameters as JSON. The first five members are always there, the
others where they have a value. -/
def value (p : Params) : Value :=
  .object
    ([("call_id", .string p.callId),
      ("file_id", .ofOption Value.int p.fileId),
      ("position", .ofOption Value.int p.position),
      ("stored_at", .ofOption instantValue p.storedAt),
      ("from", .ofOption instantValue p.since)]
      ++ member "to" instantValue p.upTo
      ++ member "call_direction" Value.string p.direction
      ++ member "min_call_duration" Value.int p.minDuration
      ++ member "token" Value.string p.token
      ++ member "cognitive_key" Value.string p.cognitiveKey
      ++ member "default_prompt" Value.string p.defaultPrompt
      ++ member "save_explanation" Value.bool p.saveExplanation
      ++ member "variable" Value.string p.target
      ++ member "scorecard" Value.int p.scorecard)

end Params

/-! ## Payloads -/

/-- The parameters of a job as they are stored. -/
inductive Payload where
  | value (v : Value)
  | text (s : String)
  | bytes (b : List UInt8)

/-- The parameters in a payload. -/
def Payload.params : Payload → Except Fault Params
  | .value (.string s) => Decoder.ofText Params.decoder s
  | .value v => Decoder.ofValue Params.decoder v
  | .text s => Decoder.ofText Params.decoder s
  | .bytes b => Decoder.ofBytes Params.decoder b

/-- A cell of a table. -/
inductive Cell where
  | json (v : Stored)
  | text (s : String)
  | bytes (b : List UInt8)
  | number (n : Int)
  | null

/-- The payload in a cell. A JSON value that cannot be read is no payload:
it is neither a text nor bytes. -/
def Cell.payload? : Cell → Option Payload
  | json v => v.read.toOption.map .value
  | text s => some (.text s)
  | bytes b => some (.bytes b)
  | number _ => none
  | null => none

end CallAudit
