/-
CallAudit.Proofs.Job.Carriers — parameters are the same whatever carries
them.

The parameters of a job are stored as a value, as a text, as the bytes of a
text or as a value that holds a text. A text may give the members in another
order than the value, and with other white space; names that are unknown may
have any values, and the parameters may be given as an array.

* `orderless_fields` — the fields of the parameters may be set in any order.
* `decodeText_denotes` — a text is decoded as the value it denotes.
* `carriers_agree` — all carriers of a value have the same parameters, or
  none that can be read.
-/
import CallAudit.Job.Basic
import CallAudit.Proofs.Json.Order
import CallAudit.Proofs.Json.Printing
import CallAudit.Proofs.Json.Reading
import CallAudit.Proofs.Text.Utf8

namespace CallAudit

open CallAudit.Json (Decoder Denotes Reading Value Written)
open CallAudit.Json.Decoder (Orderless independent_field steady_field steady_optional
  steady_filterMap steady_string steady_bool steady_int)

namespace Params

/-- The parameters may be given in any order. -/
theorem orderless_fields : Orderless fields where
  optional := rfl
  steady := by
    have hinstant : Decoder.Steady instant := steady_filterMap steady_string _
    have hlong : Decoder.Steady Decoder.int64 := steady_int _ _
    have hshort : Decoder.Steady Decoder.int32 := steady_int _ _
    simp only [fields, List.forall_mem_cons, List.not_mem_nil, false_imp_iff, implies_true,
      and_true]
    -- in the order of the fields
    exact ⟨steady_field steady_string, steady_field (steady_optional hlong),
      steady_field (steady_optional hlong), steady_field (steady_optional hinstant),
      steady_field (steady_optional hinstant), steady_field (steady_optional hinstant),
      steady_field (steady_optional steady_string), steady_field (steady_optional hshort),
      steady_field (steady_optional steady_string), steady_field (steady_optional steady_string),
      steady_field (steady_optional steady_string), steady_field (steady_optional steady_bool),
      steady_field (steady_optional steady_string), steady_field (steady_optional hshort)⟩
  independent := by
    -- no two of them set the same part of the record
    simp only [fields, List.pairwise_cons, List.forall_mem_cons, List.not_mem_nil, false_imp_iff,
      implies_true, List.Pairwise.nil, and_true]
    and_intros <;> exact independent_field fun _ _ _ => rfl

/-- A value is decoded as the value with its members ordered, wherever it
stands. -/
theorem decoder_ordered {v : Value} (hv : v.NamesDistinct) {r r' : Reading}
    (henter : r.enter = .ok r') :
    (decoder r v.node).toOption = (Decoder.ofValue decoder v.ordered).toOption :=
  Decoder.record_ordered orderless_fields henter hv {}

/-- The characters of a text are decoded as the value it denotes. -/
theorem decodeText_denotes {t : String} {v : Value} (h : Denotes t v) :
    (Json.decodeText (decoder .text) (t.toList.map some)).toOption
      = (Decoder.ofValue decoder v).toOption := by
  obtain ⟨w, hwritten, hw, hsame⟩ := h
  have hv : v.NamesDistinct := by
    rw [← Json.namesDistinct_ordered, ← hsame, Json.namesDistinct_ordered]
    exact hw
  calc (Json.decodeText (decoder .text) (t.toList.map some)).toOption
      = (decoder .text w.node).toOption := by rw [Json.decodeText_written hwritten]
    _ = (Decoder.ofValue decoder w.ordered).toOption := decoder_ordered hw rfl
    _ = (Decoder.ofValue decoder v.ordered).toOption := by rw [hsame]
    _ = (Decoder.ofValue decoder v).toOption := (decoder_ordered hv rfl).symm

end Params

/-- **Carriers.** A value that is no string, a text that denotes it, the
bytes of such a text and a value that holds such a text have the same
parameters, or none of them has any that can be read. -/
theorem carriers_agree {t : String} {v : Value} (h : Denotes t v) (hv : v.string? = none) :
    Job.paramsOf (.text t) = Job.paramsOf (.value v)
      ∧ Job.paramsOf (.bytes (Text.Utf8.encode t.toList)) = Job.paramsOf (.value v)
      ∧ Job.paramsOf (.value (.string t)) = Job.paramsOf (.value v) := by
  have hvalue : Job.paramsOf (.value v) = (Decoder.ofValue Params.decoder v).toOption := by
    cases v with
    | string s => cases hv
    | _ => rfl
  have htext : Job.paramsOf (.text t) = Job.paramsOf (.value v) := by
    rw [hvalue]
    exact Params.decodeText_denotes h
  refine ⟨htext, ?_, htext⟩
  rw [← htext, Job.paramsOf, Payload.params, Decoder.ofBytes, Text.Utf8.glyphs_encode]
  rfl

/-- A text with white space, in which the members are in another order and
one of them is unknown, is read as the value. -/
theorem carriers_agree_reordered :
    let t := " \x7b\"x\":[null],\"position\":7,\"call_id\":\"c\\n\"\x7d\n"
    let v := Value.object
      [("call_id", .string "c\n"), ("position", .int 7), ("x", .array [.null])]
    Denotes t v ∧ v.string? = none
      ∧ Job.paramsOf (.text t) = some { callId := "c\n", position := some 7 }
      ∧ Job.paramsOf (.bytes (Text.Utf8.encode t.toList)) = Job.paramsOf (.text t)
      ∧ Job.paramsOf (.value (.string t)) = Job.paramsOf (.text t) := by
  intro t v
  let w := Value.object [("x", .array [.null]), ("position", .int 7), ("call_id", .string "c\n")]
  have htext : t.toList = ' ' :: (w.text ++ ['\n']) := by decide +kernel
  have hwhole : w.IsWhole := by
    simp [w, Value.IsWhole, Json.membersWhole, Json.itemsWhole, Value.int, Json.Number.IsWhole]
  have hwritten : Written t w := by
    refine ⟨w.text ++ ['\n'], ['\n'], ?_, Json.writes_text w hwhole _, .char rfl (.none [])⟩
    rw [htext]
    exact .char rfl (.none _)
  have hsame : w.ordered = v.ordered := rfl
  have hdistinct : w.NamesDistinct := show ["x", "position", "call_id"].Nodup by decide
  have hdenotes : Denotes t v := ⟨w, hwritten, hdistinct, hsame⟩
  have hvalue : Job.paramsOf (.value v) = some { callId := "c\n", position := some 7 } := rfl
  obtain ⟨htext, hbytes, hstring⟩ := carriers_agree hdenotes rfl
  exact ⟨hdenotes, rfl, htext.trans hvalue, hbytes.trans htext.symm, hstring.trans htext.symm⟩

end CallAudit
