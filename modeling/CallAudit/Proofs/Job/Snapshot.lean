/-
CallAudit.Proofs.Job.Snapshot — the parameters that a job is inserted with
are read again.

* `Rule.Fits` — what the columns of a rule hold: its numbers are numbers of
  32 bits.
* `read_paramsFor` — of the value in a new row only the numbers can fail to
  be read; `decode_asRead` is what is decoded from it.
* `params?_paramsFor` — the parameters of a new row, as they are read when
  the job is handed out: the call, the recording and the settings of the
  rule as they were. The times have to be readable from their texts, which
  those of the years from one to 9999 are.
* `snapshot_of_params?` — nothing else can be read from such a row: if it
  can be read at all, the call, the recording and the settings are these.
-/
import CallAudit.Proofs.Json.Record
import CallAudit.Proofs.Json.Stored
import CallAudit.Proofs.Store.Backlog
import CallAudit.Proofs.Time.Reading

namespace CallAudit

open CallAudit.Json (Decoder Reading Stored Value)
open CallAudit.Json.Decoder (Fills)
open CallAudit.Time (Instant)

/-- The numbers of a rule are numbers of 32 bits. -/
structure Rule.Fits (r : Rule) : Prop where
  minDuration : -2147483648 ≤ r.minDuration ∧ r.minDuration ≤ 2147483647
  scorecard : ∀ form ∈ r.scorecard, -2147483648 ≤ form ∧ form ≤ 2147483647

/-- A number of 64 bits. -/
def IsLong (n : Int) : Prop :=
  -9223372036854775808 ≤ n ∧ n ≤ 9223372036854775807

/-- A number of 32 bits is one of 64. -/
theorem isLong_of_bounds {n : Int} (h : -2147483648 ≤ n ∧ n ≤ 2147483647) : IsLong n := by
  constructor <;> omega

/-- A number of 64 bits is read as itself. -/
theorem value_of_isLong {n : Int} (h : IsLong n) (limit : Option Nat) :
    (Stored.int n).node.value limit = .ok (.int n) := by
  refine Stored.value_int ⟨h.1, ?_⟩ limit
  exact h.2.trans (by decide)

/-- A whole number that is read, and decoded within some bounds, is within
them. -/
theorem bounds_of_read {n : Int} {limit : Option Nat} {v : Value} {lo hi : Int} {r : Reading}
    {o : Option Int} (hread : (Stored.int n).node.value limit = .ok v)
    (h : Decoder.optional (Decoder.int lo hi) r v.node = .ok o) : lo ≤ n ∧ n ≤ hi := by
  rw [Stored.int, Stored.node, Json.Decimal.numeral_whole] at hread
  cases hnumber : (Json.wholeNumeral n).value with
  | none =>
    rw [hnumber] at hread
    cases hread
  | some m =>
    rw [hnumber] at hread
    obtain rfl := Except.ok.inj hread
    cases m with
    | whole k =>
      obtain rfl := Json.eq_of_value_wholeNumeral hnumber
      exact Decoder.bounds_of_optional_int h
    | real x => cases h

/-- A time is decoded if its text can be read. -/
theorem instant_node {s : String} {u : Instant} (h : Instant.read? s = some u) (r : Reading) :
    Params.instant r (Value.string s).node = .ok u := by
  simp only [Params.instant, Decoder.filterMap, Decoder.string_node, bind, Except.bind, h]

/-- A time that is decoded has a text that can be read. -/
theorem read_of_optional_instant {s : String} {o : Option Instant} {r : Reading}
    (h : Decoder.optional Params.instant r (Value.string s).node = .ok o) :
    ∃ u, Instant.read? s = some u := by
  obtain ⟨a, ha⟩ := Decoder.of_optional_some Json.Node.noConfusion h
  simp only [Params.instant, Decoder.filterMap, Decoder.string_node, bind, Except.bind] at ha
  cases hs : Instant.read? s with
  | none =>
    rw [hs] at ha
    cases ha
  | some u => exact ⟨u, rfl⟩

theorem text_node (o : Option String) (r : Reading) :
    Decoder.optional Decoder.string r (Value.ofOption .string o).node = .ok o :=
  Decoder.optional_node (fun _ => Json.Node.noConfusion) fun s _ => Decoder.string_node s r

namespace Store

/-- The parameters of a job: the call with its recording, and the rule as it
was. -/
def snapshot (r : Rule) (w : Wanted) (position : Int) (stored since : Instant) : Params :=
  { callId := w.call.id, fileId := w.recording, position := position, storedAt := stored
    since := since, direction := r.directionFilter, minDuration := r.minDuration
    token := r.token, cognitiveKey := r.cognitiveKey, defaultPrompt := r.defaultPrompt
    saveExplanation := r.saveExplanation, target := r.targetField, scorecard := r.scorecard }

/-! ## Reading -/

/-- The parameters of a row as they are read, whatever its numbers are read
as. -/
def asRead (r : Rule) (w : Wanted) (recording position form duration : Value) : Value :=
  .object
    [("from", .string r.resumeAt.offsetText),
     ("token", .ofOption .string r.token),
     ("call_id", .string w.call.id),
     ("file_id", recording),
     ("position", position),
     ("variable", .ofOption .string r.targetField),
     ("scorecard", form),
     ("stored_at", .string w.storedAt.offsetText),
     ("cognitive_key", .ofOption .string r.cognitiveKey),
     ("call_direction", .ofOption .string r.directionFilter),
     ("default_prompt", .ofOption .string r.defaultPrompt),
     ("save_explanation", .bool r.saveExplanation),
     ("min_call_duration", duration)]

/-- Of the parameters of a row only the numbers can fail to be read. -/
theorem read_paramsFor (r : Rule) (w : Wanted) (position : Int) :
    (paramsFor r w position).read = (do
      let recording ← (Stored.int w.recording).node.value (some 126)
      let place ← (Stored.int position).node.value (some 126)
      let form ← (Stored.ofOption .int r.scorecard).node.value (some 126)
      let duration ← (Stored.int r.minDuration).node.value (some 126)
      .ok (asRead r w recording place form duration)) := by
  rw [paramsFor_eq, Stored.read_eq]
  simp [Stored.node, Stored.memberNodes, Json.Node.value, Json.Members.values, Json.Quotation.text,
    Json.deeper, Stored.value_ofOption_string, Value.put, asRead, ok_bind, Except.map]

/-- What is decoded from the parameters of a row, if every number was read as
itself. -/
theorem decode_asRead {r : Rule} (fits : r.Fits) {w : Wanted} {position : Int}
    (hrecording : IsLong w.recording) (hposition : IsLong position) {t u : Instant}
    (hstored : Instant.read? w.storedAt.offsetText = some t)
    (hsince : Instant.read? r.resumeAt.offsetText = some u) :
    Decoder.ofValue Params.decoder
        (asRead r w (.int w.recording) (.int position) (.ofOption .int r.scorecard)
          (.int r.minDuration))
      = .ok (snapshot r w position t u) := by
  have isThere : ∀ n : Int, (Value.int n).node ≠ .null := fun _ => Json.Node.noConfusion
  have hform : Decoder.optional Decoder.int32 ⟨.mismatch, none⟩
      (Value.ofOption .int r.scorecard).node = .ok r.scorecard :=
    Decoder.optional_node isThere fun form hf => Decoder.int_node (fits.scorecard form hf) _
  have henter : Reading.value.enter = .ok ⟨.mismatch, none⟩ := rfl
  refine Decoder.record_node henter ?_ (by simp) rfl
  -- in the order of the members
  exact
    .put rfl (Decoder.optional_some Json.Node.noConfusion (instant_node hsince _)) <|
    .put rfl (text_node _ _) <|
    .put rfl (Decoder.string_node _ _) <|
    .put rfl (Decoder.optional_some (isThere _) (Decoder.int_node hrecording _)) <|
    .put rfl (Decoder.optional_some (isThere _) (Decoder.int_node hposition _)) <|
    .put rfl (text_node _ _) <|
    .put rfl hform <|
    .put rfl (Decoder.optional_some Json.Node.noConfusion (instant_node hstored _)) <|
    .put rfl (text_node _ _) <|
    .put rfl (text_node _ _) <|
    .put rfl (text_node _ _) <|
    .put rfl (Decoder.optional_some Json.Node.noConfusion (Decoder.bool_node _ _)) <|
    .put rfl (Decoder.optional_some (isThere _) (Decoder.int_node fits.minDuration _)) <|
    .done _

/-- The parameters that a row for a call is read with. -/
theorem params?_paramsFor {r : Rule} (fits : r.Fits) {w : Wanted} {position : Int}
    (hrecording : IsLong w.recording) (hposition : IsLong position) {t u : Instant}
    (hstored : Instant.read? w.storedAt.offsetText = some t)
    (hsince : Instant.read? r.resumeAt.offsetText = some u) {j : Row}
    (hj : j.params = paramsFor r w position) :
    j.params? = some (snapshot r w position t u) := by
  have hduration : IsLong r.minDuration := isLong_of_bounds fits.minDuration
  have hform : (Stored.ofOption .int r.scorecard).node.value (some 126)
      = .ok (.ofOption .int r.scorecard) := by
    cases hsome : r.scorecard with
    | none => rfl
    | some form => exact value_of_isLong (isLong_of_bounds (fits.scorecard form hsome)) _
  have hdecoded := decode_asRead fits hrecording hposition hstored hsince
  refine Row.params?_eq_some.mpr
    ⟨asRead r w (.int w.recording) (.int position) (.ofOption .int r.scorecard)
      (.int r.minDuration), ?_, hdecoded⟩
  rw [hj, read_paramsFor, value_of_isLong hrecording, value_of_isLong hposition, hform,
    value_of_isLong hduration]
  rfl

/-- Whatever a row for a call is read with, it is the call and the rule as
they were: a row that can be read has passed every check of the reading. -/
theorem snapshot_of_params? {r : Rule} {w : Wanted} {position : Int} {j : Row}
    (hj : j.params = paramsFor r w position) {p : Params} (h : j.params? = some p) :
    ∃ t u, p = snapshot r w position t u := by
  obtain ⟨v, hread, hdecoded⟩ := Row.params?_eq_some.mp h
  rw [hj, read_paramsFor] at hread
  obtain ⟨recording, hrecording, hread⟩ := ok_of_bind hread
  obtain ⟨place, hplace, hread⟩ := ok_of_bind hread
  obtain ⟨form, hform, hread⟩ := ok_of_bind hread
  obtain ⟨duration, hduration, hread⟩ := ok_of_bind hread
  obtain rfl := Except.ok.inj hread
  have hfills := Decoder.fills_of_record (r := Reading.value) rfl rfl hdecoded
  obtain ⟨_, hfile⟩ := hfills.taken "file_id" recording (by simp) rfl
  obtain ⟨_, hstored⟩ := hfills.taken "stored_at" (.string w.storedAt.offsetText) (by simp) rfl
  obtain ⟨_, hposition⟩ := hfills.taken "position" place (by simp) rfl
  obtain ⟨_, hsince⟩ := hfills.taken "from" (.string r.resumeAt.offsetText) (by simp) rfl
  obtain ⟨_, hminimum⟩ := hfills.taken "min_call_duration" duration (by simp) rfl
  obtain ⟨_, hscorecard⟩ := hfills.taken "scorecard" form (by simp) rfl
  have fits : r.Fits := ⟨bounds_of_read hduration hminimum, fun form hsome => by
    rw [Option.mem_def.mp hsome] at hform
    exact bounds_of_read hform hscorecard⟩
  obtain ⟨t, ht⟩ := read_of_optional_instant hstored
  obtain ⟨u, hu⟩ := read_of_optional_instant hsince
  have hsnapshot := params?_paramsFor fits (bounds_of_read hrecording hfile)
    (bounds_of_read hplace hposition) ht hu hj
  exact ⟨t, u, Option.some.inj (h.symm.trans hsnapshot)⟩

end Store

end CallAudit
