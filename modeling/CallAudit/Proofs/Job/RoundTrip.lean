/-
CallAudit.Proofs.Job.RoundTrip — parameters that are written as JSON are read
again.

* `Params.Fits` — what the fields of parameters hold: numbers of 64 and of
  32 bits, and instants of the years from zero to 9999 outside leap seconds.
* `fills_members` — the members that are written fill in the parameters
  again. A member that is missing leaves its field as it is.
* `params_written` — parameters are read from the value that is written for
  them and from its text, with the members in the order of the fields or in
  the order of their names.
-/
import CallAudit.Proofs.Job.Carriers
import CallAudit.Proofs.Job.Snapshot

namespace CallAudit

open CallAudit.Json (Decoder Reading Value)
open CallAudit.Json.Decoder (Fills field)
open CallAudit.Time (Instant)

/-- A number of 32 bits. -/
def IsShort (n : Int) : Prop :=
  -2147483648 ≤ n ∧ n ≤ 2147483647

/-- An instant that can be told by the clock and in a year of four digits. -/
def Time.Instant.IsCivil (t : Instant) : Prop :=
  0 ≤ t.year ∧ t.year ≤ 9999 ∧ t.nano < 1000000000

namespace Params

/-- What the fields of parameters hold. Texts may be any. -/
structure Fits (p : Params) : Prop where
  fileId : ∀ n ∈ p.fileId, IsLong n
  position : ∀ n ∈ p.position, IsLong n
  storedAt : ∀ t ∈ p.storedAt, t.IsCivil
  since : ∀ t ∈ p.since, t.IsCivil
  upTo : ∀ t ∈ p.upTo, t.IsCivil
  minDuration : ∀ n ∈ p.minDuration, IsShort n
  scorecard : ∀ n ∈ p.scorecard, IsShort n

/-! ## Members that may be missing -/

section
variable {α : Type} {name : String} {f : α → Value} {o : Option α}

/-- A member that is written only if it has a value fills in its field. -/
theorem fills_member {d : Decoder α} {put : Option α → Params → Params} {r : Reading}
    {rest : List (String × Value)} {p q : Params}
    (hfield : fields.find? (fun g => g.name == name) = some (field name (Decoder.optional d) put))
    (hthere : ∀ a, (f a).node ≠ .null) (hvalue : ∀ a ∈ o, d r (f a).node = .ok a)
    (hnone : put none p = p) (hrest : Fills fields r rest (put o p) q) :
    Fills fields r (member name f o ++ rest) p q := by
  cases o with
  | none =>
    rw [hnone] at hrest
    exact hrest
  | some a => exact .put hfield (Decoder.optional_some (hthere a) (hvalue a rfl)) hrest

theorem names_member {rest : List (String × Value)} {names : List String}
    (h : (rest.map Prod.fst).Sublist names) :
    ((member name f o ++ rest).map Prod.fst).Sublist (name :: names) := by
  cases o with
  | none => exact h.cons name
  | some a => exact h.cons_cons name

theorem whole_member {rest : List (String × Value)} (h : ∀ a ∈ o, (f a).IsWhole)
    (hrest : Json.membersWhole rest) : Json.membersWhole (member name f o ++ rest) := by
  cases o with
  | none => exact hrest
  | some a => exact ⟨h a rfl, hrest⟩

theorem whole_ofOption (h : ∀ a ∈ o, (f a).IsWhole) : (Value.ofOption f o).IsWhole := by
  cases o with
  | none => trivial
  | some a => exact h a rfl

end

/-! ## All members -/

/-- The members that are written for parameters. -/
def members (p : Params) : List (String × Value) :=
  ("call_id", .string p.callId) :: ("file_id", .ofOption Value.int p.fileId) ::
    ("position", .ofOption Value.int p.position) ::
    ("stored_at", .ofOption instantValue p.storedAt) ::
    ("from", .ofOption instantValue p.since) ::
    (member "to" instantValue p.upTo ++ (member "call_direction" Value.string p.direction ++
      (member "min_call_duration" Value.int p.minDuration ++ (member "token" Value.string p.token ++
        (member "cognitive_key" Value.string p.cognitiveKey ++
          (member "default_prompt" Value.string p.defaultPrompt ++
            (member "save_explanation" Value.bool p.saveExplanation ++
              (member "variable" Value.string p.target ++
                (member "scorecard" Value.int p.scorecard ++ [])))))))))

theorem value_eq (p : Params) : p.value = .object p.members := by
  simp only [value, members, List.append_assoc, List.cons_append, List.nil_append, List.append_nil]

/-- The members fill in the parameters they were written for. -/
theorem fills_members {p : Params} (fits : p.Fits) (r : Reading) :
    Fills fields r p.members {} p := by
  have isThere : ∀ n : Int, (Value.int n).node ≠ .null := fun _ => Json.Node.noConfusion
  have isText : ∀ s : String, (Value.string s).node ≠ .null := fun _ => Json.Node.noConfusion
  have isTime : ∀ t : Instant, (instantValue t).node ≠ .null := fun _ => Json.Node.noConfusion
  have hstring : ∀ {o : Option String}, ∀ s ∈ o, Decoder.string r (Value.string s).node = .ok s :=
    fun s _ => Decoder.string_node s r
  have hlong : ∀ {o : Option Int}, (∀ n ∈ o, IsLong n) →
      ∀ n ∈ o, Decoder.int64 r (Value.int n).node = .ok n :=
    fun h n hn => Decoder.int_node (h n hn) r
  have hshort : ∀ {o : Option Int}, (∀ n ∈ o, IsShort n) →
      ∀ n ∈ o, Decoder.int32 r (Value.int n).node = .ok n :=
    fun h n hn => Decoder.int_node (h n hn) r
  have htime : ∀ {o : Option Instant}, (∀ t ∈ o, t.IsCivil) →
      ∀ t ∈ o, instant r (instantValue t).node = .ok t :=
    fun h t ht =>
      let ⟨hfrom, hto, hplain⟩ := h t ht
      instant_node (Instant.read?_zulu ⟨hfrom, hto⟩ hplain) r
  -- in the order of the members
  exact
    .put rfl (Decoder.string_node _ _) <|
    .put rfl (Decoder.optional_node isThere (hlong fits.fileId)) <|
    .put rfl (Decoder.optional_node isThere (hlong fits.position)) <|
    .put rfl (Decoder.optional_node isTime (htime fits.storedAt)) <|
    .put rfl (Decoder.optional_node isTime (htime fits.since)) <|
    fills_member rfl isTime (htime fits.upTo) rfl <|
    fills_member rfl isText hstring rfl <|
    fills_member rfl isThere (hshort fits.minDuration) rfl <|
    fills_member rfl isText hstring rfl <|
    fills_member rfl isText hstring rfl <|
    fills_member rfl isText hstring rfl <|
    fills_member rfl (fun _ => Json.Node.noConfusion) (fun b _ => Decoder.bool_node b r) rfl <|
    fills_member rfl isText hstring rfl <|
    fills_member rfl isThere (hshort fits.scorecard) rfl <|
    .done _

/-- The members have the names of the fields, in the same order. -/
theorem names_members (p : Params) : (p.members.map Prod.fst).Sublist (fields.map (·.name)) :=
  .cons_cons _ <| .cons_cons _ <| .cons_cons _ <| .cons_cons _ <| .cons_cons _ <|
    names_member <| names_member <| names_member <| names_member <| names_member <|
      names_member <| names_member <| names_member <| names_member <| .refl []

theorem namesDistinct_value (p : Params) : p.value.NamesDistinct := by
  rw [value_eq]
  exact p.names_members.nodup (by decide)

theorem isWhole_value {p : Params} (fits : p.Fits) : p.value.IsWhole := by
  have hlong : ∀ n, IsLong n → (Value.int n).IsWhole := fun n h =>
    ⟨h.1, Int.le_trans h.2 (by decide)⟩
  have hshort : ∀ n, IsShort n → (Value.int n).IsWhole := fun n h =>
    ⟨Int.le_trans (by decide) h.1, Int.le_trans h.2 (by decide)⟩
  rw [value_eq]
  exact
    ⟨trivial, whole_ofOption fun n hn => hlong n (fits.fileId n hn),
      whole_ofOption fun n hn => hlong n (fits.position n hn),
      whole_ofOption fun _ _ => trivial, whole_ofOption fun _ _ => trivial,
      whole_member (fun _ _ => trivial) <|
      whole_member (fun _ _ => trivial) <|
      whole_member (fun n hn => hshort n (fits.minDuration n hn)) <|
      whole_member (fun _ _ => trivial) <|
      whole_member (fun _ _ => trivial) <|
      whole_member (fun _ _ => trivial) <|
      whole_member (fun _ _ => trivial) <|
      whole_member (fun _ _ => trivial) <|
      whole_member (fun n hn => hshort n (fits.scorecard n hn)) trivial⟩

/-! ## Written and read -/

/-- **Written and read.** Parameters are read from the value that is written
for them and from its text, with the members in the order of the fields or
of their names. -/
theorem params_written {p : Params} (fits : p.Fits) :
    (Payload.value p.value).params = .ok p ∧ (Payload.text p.value.compact).params = .ok p
      ∧ (Payload.value p.value.ordered).params = .ok p
      ∧ (Payload.text p.value.ordered.compact).params = .ok p := by
  have hdistinct := p.namesDistinct_value
  have hdistinct' := Json.namesDistinct_ordered.mpr hdistinct
  have hvalue : (Decoder.ofValue decoder p.value).toOption = some p := by
    rw [value_eq] at hdistinct ⊢
    exact toOption_eq_some.mpr (Decoder.record_node rfl (fills_members fits .value) hdistinct rfl)
  have hordered : (Decoder.ofValue decoder p.value.ordered).toOption = some p := by
    rw [← hvalue]
    exact (decoder_ordered hdistinct rfl).symm
  have htext := decodeText_denotes (Json.denotes_compact (isWhole_value fits) hdistinct)
  have htext' := decodeText_denotes
    (Json.denotes_compact (Json.isWhole_ordered _ (isWhole_value fits)) hdistinct')
  exact ⟨toOption_eq_some.mp hvalue, toOption_eq_some.mp (htext.trans hvalue),
    toOption_eq_some.mp hordered, toOption_eq_some.mp (htext'.trans hordered)⟩

/-- A text that needs escapes, the greatest and the least numbers, the last
nanosecond of a leap day and the first instant of the year zero are read
again. -/
theorem params_written_leap_day :
    let p : Params :=
      { callId := "\"a\\b\"\n", fileId := some 9223372036854775807
        storedAt := some (.at_ 1709251199 999999999), upTo := some (.at_ (-62167219200) 0)
        scorecard := some (-2147483648) }
    p.Fits ∧ (Payload.value p.value).params = .ok p
      ∧ (Payload.text p.value.compact).params = .ok p := by
  intro p
  have hstored : (Instant.at_ 1709251199 999999999).IsCivil := by
    unfold Instant.IsCivil
    decide +kernel
  have hupTo : (Instant.at_ (-62167219200) 0).IsCivil := by
    unfold Instant.IsCivil
    decide +kernel
  have hgreatest : IsLong 9223372036854775807 := ⟨by decide, by decide⟩
  have hleast : IsShort (-2147483648) := ⟨by decide, by decide⟩
  have fits : p.Fits :=
    { fileId := by rintro _ ⟨⟩; exact hgreatest
      position := nofun
      storedAt := by rintro _ ⟨⟩; exact hstored
      since := nofun
      upTo := by rintro _ ⟨⟩; exact hupTo
      minDuration := nofun
      scorecard := by rintro _ ⟨⟩; exact hleast }
  obtain ⟨hvalue, htext, -⟩ := params_written fits
  exact ⟨fits, hvalue, htext⟩

end Params

end CallAudit
