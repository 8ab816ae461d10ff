/-
CallAudit.Conversation — what is said in a call, and by whom.

* `Phrase` — one turn: the channel it was heard on and its text.
* `Parties` — the names of the two parties, as far as they are known.
* `channelOf` — a channel out of any JSON value.
* `speaker` — how a turn is labelled. Channel 0 is the caller, channel 1
  the callee; a turn of anyone else, or of a party without a name, is
  labelled by its channel.
* `dialogue` — the turns in their order, one on a line.
-/
import CallAudit.Json.Decode
import CallAudit.Json.Printer
import CallAudit.Number.Decimal

namespace CallAudit

open CallAudit.Json (Value Decoder)
open CallAudit.Json.Decoder (field)
open CallAudit.Number (saturate64)

/-- One turn of a call. -/
structure Phrase where
  channel : Int
  text : String
deriving DecidableEq, Repr, Inhabited

/-- The names of the two parties. -/
structure Parties where
  caller : Option String
  callee : Option String
deriving DecidableEq, Repr, Inhabited

namespace Conversation

/-! ## Reading -/

/-- A channel. A number is cut to a whole one and brought into the range of
signed 64-bit numbers, a text is read as such a number, and all else is
channel 0. -/
def channelOf : Value → Int
  | .number n => n.int64?.getD (saturate64 n.toBinary.truncated)
  | .string s =>
    (Number.int? (-9223372036854775808) 9223372036854775807 (Text.trim s.toList)).getD 0
  | _ => 0

/-- A phrase; a text that is null is empty. -/
def phrase : Decoder Phrase :=
  Decoder.record
    [field "channel" (Decoder.map channelOf Decoder.anything) fun n p => { p with channel := n },
     field "phrase" (Decoder.optional Decoder.string) fun s p => { p with text := s.getD "" }]
    ⟨0, ""⟩

/-! ## Writing -/

/-- The name of the party on a channel. -/
def partyOn (who : Parties) (channel : Int) : Option String :=
  if channel = 0 then who.caller
  else if channel = 1 then who.callee
  else none

/-- The label of a turn. -/
def speaker (who : Parties) (channel : Int) : List Char :=
  match (partyOn who channel).filter fun name => !name.isEmpty with
  | some name => name.toList
  | none => "Speaker ".toList ++ Json.intText channel

/-- A turn as a line. -/
def turn (who : Parties) (p : Phrase) : List Char :=
  speaker who p.channel ++ (':' :: ' ' :: (p.text.toList ++ ['\n']))

/-- The turns of a call, one on a line. -/
def dialogue (who : Parties) (phrases : List Phrase) : String :=
  String.ofList (phrases.flatMap (turn who))

end Conversation

end CallAudit
