/-
CallAudit.Proofs.Store.Recognition — the rows by which a rule is known to
have a job for a call.

A row is read twice. A worker decodes its parameters, which may be an
object, an array of the fields in their order or a text of either. The
statement that gives jobs looks for a member of the stored value, and only
an object has members. So the two agree on objects and nowhere else.

* `memberText_of_params?` — the call that is decoded from an object is the
  member that the statement finds.
* `memberText_eq_none` — in any other value it finds nothing.
* `known_iff_object` — with a row that names a call in an object, a rule is
  never given another job for the call. With a row that names it in another
  shape, the statement inserts what it would insert without the row.
* `carried_given_again` — a call that is given a second job, in either of
  the other two shapes.
-/
import CallAudit.Proofs.Json.Record
import CallAudit.Proofs.Json.Stored
import CallAudit.Proofs.Store.Dealing
import CallAudit.Proofs.Store.Qualifying

namespace CallAudit

open CallAudit.Json (Decoder Reading Stored Value)
open CallAudit.Json.Decoder (Owns keeps_field)

/-- Only a string is decoded as a string. -/
theorem Json.Decoder.eq_string_of_node {v : Value} {r : Reading} {s : String}
    (h : string r v.node = .ok s) : v = .string s := by
  cases v with
  | string t =>
    rw [string_node] at h
    exact congrArg Value.string (Except.ok.inj h)
  | null | bool _ | number _ | array _ | object _ =>
    simp [string, Value.node, Json.Node.other] at h

/-- The identifier of the call is taken from the member of its name and from
no other. -/
theorem Params.owns_callId :
    Owns Params.fields "call_id" Decoder.string (fun a p => { p with callId := a }) (·.callId) where
  found := rfl
  sets := fun _ _ => rfl
  others := by
    simp only [fields, List.forall_mem_cons, List.not_mem_nil, false_imp_iff, implies_true,
      and_true]
    refine ⟨fun h => absurd rfl h, ?_⟩
    -- no other field sets the identifier
    and_intros <;> exact fun _ => keeps_field fun _ _ => rfl

namespace Store

/-! ## Two readers of a row -/

/-- What an object is decoded as naming is what its member says. -/
theorem memberText_of_params? {j : Row} {members : List (String × Stored)}
    (hobject : j.params = .object members) {p : Params} (h : j.params? = some p)
    (named : p.callId ≠ "") : j.params.memberText "call_id" = some p.callId := by
  obtain ⟨v, hread, hdecoded⟩ := Row.params?_eq_some.mp h
  rw [hobject] at hread ⊢
  obtain ⟨ms, rfl, hmember⟩ := Stored.get?_of_read hread
  obtain ⟨hmissing, hfound⟩ := Params.owns_callId.of_record (r := Reading.value) rfl hdecoded
  obtain ⟨hnone, hsome⟩ := hmember "call_id"
  cases hget : (Stored.object members).get? "call_id" with
  | none => exact absurd (hmissing (hnone hget)) named
  | some u =>
    obtain ⟨w, hw, hthere⟩ := hsome u hget
    obtain rfl := Decoder.eq_string_of_node (hfound w hthere)
    rw [Stored.memberText, hget, Stored.eq_string_of_value hw]

/-- Only an object has members to be found. -/
theorem memberText_eq_none {v : Stored} (h : ¬ ∃ members, v = .object members) (name : String) :
    v.memberText name = none := by
  have hnone : v.get? name = none :=
    Stored.get?_eq_none.mpr fun members hv => absurd ⟨members, hv⟩ h
  rw [Stored.memberText, hnone]

/-! ## Jobs for a rule that has such a row -/

/-- A call that a row of the rule is known by is given no other job. -/
theorem subject_ne_of_newRows {s : Store} {r : Rule} {limit : Int} {j k : Row} {call : String}
    (hj : j ∈ s.jobs) (hsub : j.subject = (r.id, some call)) (hk : k ∈ s.newRows r limit) :
    k.subject ≠ (r.id, some call) := by
  intro hsame
  obtain ⟨w, hw, hwsub, -⟩ := subject_newRows.mp ⟨k, hk, hsame, rfl⟩
  obtain ⟨-, hwanted⟩ := wanted_of_mem_backlog (mem_backlog_of_mem_chosen hw)
  obtain ⟨-, -, -, -, -, hno⟩ := wanted?_eq_some.mp hwanted
  exact hasJob_eq_false_iff.mp hno j hj (hsub.trans hwsub.symm)

/-- A row that no call is found in makes no difference. -/
theorem chosen_without {s : Store} {before after : List Row} {j : Row}
    (rows : s.jobs = before ++ j :: after) (hnone : j.params.memberText "call_id" = none)
    (r : Rule) (limit : Int) :
    s.chosen r limit = ({ s with jobs := before ++ after } : Store).chosen r limit := by
  refine chosen_congr (by rfl) (by rfl) (fun call => ?_) limit
  simp [hasJob, rows, hnone]

/-- **Recognition.** A rule has a row whose parameters are decoded as those
of a call. If they are an object, the rule is never given another job for
the call, whatever the limit is. If they are not, the rule is given what it
would be given without the row. -/
theorem known_iff_object {s : Store} {before after : List Row} {j : Row}
    (rows : s.jobs = before ++ j :: after) {call : String} (named : call ≠ "")
    (decoded : (j.job .inProgress).callId? = some call) {r : Rule} (own : r.id = j.rule)
    (limit : Int) :
    ∃ new, (s.enqueueFor r limit).1.jobs = s.jobs ++ new
      ∧ ((∃ members, j.params = .object members) → ∀ k ∈ new, k.subject ≠ (r.id, some call))
      ∧ ((¬ ∃ members, j.params = .object members) →
          (({ s with jobs := before ++ after } : Store).enqueueFor r limit).1.jobs
            = before ++ after ++ new) := by
  refine ⟨s.newRows r limit, rfl, ?_, ?_⟩
  · rintro ⟨members, hobject⟩ k hk
    obtain ⟨p, hp, rfl⟩ := Option.map_eq_some_iff.mp decoded
    have hfound := memberText_of_params? hobject hp named
    have hj : j ∈ s.jobs := rows ▸ List.mem_append_right _ List.mem_cons_self
    exact subject_ne_of_newRows hj (Prod.ext own.symm hfound) hk
  · intro hother
    have hsame := chosen_without rows (memberText_eq_none hother "call_id") r limit
    rw [enqueueFor_fst, newRows, newRows, hsame]

/-! ## One call in three shapes -/

/-- Parameters that name the call, as an object, as a text and as an
array. -/
def asObject : Stored := .object [("call_id", .string "older")]

def asText : Stored := .string "\x7b\"call_id\":\"older\"\x7d"

def asArray : Stored := .array [.string "older"]

/-- A row of the only rule with some parameters. -/
def carrier (v : Stored) : Row :=
  ⟨1, 1, 1, 0, v, ⟨10⟩⟩

/-- The only call, and such a row. -/
def carried (v : Stored) : Store :=
  { oneCall with jobs := [carrier v], nextJob := 2 }

/-- With the call in an object no other job for it is inserted. With the
call in a text the rows are those of a store without that row. -/
theorem known_iff_object_older :
    (∀ k ∈ ((carried asObject).enqueueFor (soleRule.view 1) 10).1.jobs.drop 1,
        k.subject ≠ (1, some "older"))
      ∧ ((carried asText).enqueueFor (soleRule.view 1) 10).1.jobs.drop 1
        = (({ oneCall with nextJob := 2 } : Store).enqueueFor (soleRule.view 1) 10).1.jobs := by
  have hrows : ∀ v, (carried v).jobs = [] ++ carrier v :: [] := fun _ => rfl
  have named : "older" ≠ "" := by decide
  constructor
  · obtain ⟨new, hnew, hobject, -⟩ :=
      known_iff_object (hrows asObject) named (by decide +kernel) (r := soleRule.view 1) rfl 10
    rw [hnew]
    exact hobject ⟨_, rfl⟩
  · obtain ⟨new, hnew, -, hother⟩ :=
      known_iff_object (hrows asText) named (by decide +kernel) (r := soleRule.view 1) rfl 10
    have hwithout := hother (by rintro ⟨members, h⟩; cases h)
    rw [hnew]
    exact hwithout.symm

/-- A rule that has a row which names its call in a text or in an array is
given a second job for the call. -/
theorem carried_given_again :
    (((carrier asText).job .inProgress).callId? = some "older"
        ∧ (carried asText).Gives (soleRule.view 1) 1 "older")
      ∧ ((carrier asArray).job .inProgress).callId? = some "older"
        ∧ (carried asArray).Gives (soleRule.view 1) 1 "older" := by
  refine ⟨⟨?_, ?_⟩, ?_, ?_⟩ <;> decide +kernel

end Store

end CallAudit
