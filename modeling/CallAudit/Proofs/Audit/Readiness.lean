/-
CallAudit.Proofs.Audit.Readiness — what is taken for the identifier of a
transcript.

A transcript is waited for until a search of the history refers to one. A
reference is any JSON value, and it is passed over if it is no text and no
number, or the empty text, "0", or the whole number zero. What is taken is an
identifier in most cases, but a blank text is taken, too, and so is zero where
it is spelled in another way: as "00" in a text, or as a number with a minus
sign, with a point or with an exponent.

* `IsReal` — an identifier that is neither blank nor zero.
* `Refers` — the reference to a transcript in the reply to a search.
* `Withheld`, `Slips` — the references that are passed over, and those that
  are taken although they are no identifiers.
* `awaited_real_iff` — how a transcript is waited for, and when what is taken
  is real.
-/
import CallAudit.Proofs.Audit.Steps
import CallAudit.Proofs.Json.Numbers
import CallAudit.Proofs.Number.Zero

namespace CallAudit

open CallAudit.Http (Exchange Reply Request Session noted)
open CallAudit.Json (Decoder Number Value)
open CallAudit.Json.Decoder (Makes guards_field makes_anything makes_list makes_record makes_true)
open CallAudit.CallHistory (Found Transcript found foundPage idText transcriptOf)
open CallAudit.Number (SpellsZero isNonzero_intText isNonzero_text spellsZero_text)

/-! ## Identifiers -/

/-- An identifier of a transcript is neither blank nor zero. -/
structure IsReal (id : String) : Prop where
  unblank : Text.allBlank id = false
  nonzero : ¬ SpellsZero id

/-- References that are passed over. -/
def Withheld : Value → Prop
  | .string s => s = "" ∨ s = "0"
  | .number n => n = .whole 0
  | _ => True

/-- References that are no identifiers: blank texts, texts that spell zero,
and zeros that are no whole numbers. -/
def Slips : Value → Prop
  | .string s => Text.allBlank s = true ∨ SpellsZero s
  | .number (.real x) => x.isZero = true
  | _ => False

theorem int64?_eq_zero {n : Number} : n.int64? = some 0 ↔ n = .whole 0 := by
  cases n with
  | whole n =>
    constructor
    · intro h
      simp only [Number.int64?] at h
      split at h
      · rw [Option.some.inj h]
      · cases h
    · intro h
      rw [h]
      rfl
  | real x => simp [Number.int64?]

theorem idText_eq_none {v : Value} : idText v = none ↔ Withheld v := by
  cases v with
  | string s => simp [idText, Withheld, or_iff_not_imp_left]
  | number n => simp [idText, Withheld, int64?_eq_zero]
  | _ => simp [idText, Withheld]

/-- A number is written as zero exactly if it is a zero of another kind than
the whole number. -/
theorem isReal_number {n : Number} {id : String} (hn : n.IsDouble)
    (h : idText (.number n) = some id) : IsReal id ↔ ¬ Slips (.number n) := by
  simp only [idText] at h
  split at h
  swap
  · cases h
  rename_i hzero
  obtain rfl := Option.some.inj h
  rw [Ne, int64?_eq_zero] at hzero
  cases n with
  | whole n =>
    have hwritten := isNonzero_intText (n := n) fun heq => hzero (heq ▸ rfl)
    exact ⟨fun _ hslips => hslips, fun _ => ⟨hwritten.not_allBlank, hwritten.not_spellsZero⟩⟩
  | real x =>
    by_cases hx : x.mant = 0
    · have hspells := spellsZero_text hx Json.realNotation
      have hslips : Slips (.number (.real x)) := by simpa [Slips, Number.Binary.isZero] using hx
      exact ⟨fun hreal => absurd hspells hreal.nonzero, fun hno => absurd hslips hno⟩
    · have hwritten := isNonzero_text hx hn Json.realNotation
      have hno : ¬ Slips (.number (.real x)) := by simpa [Slips, Number.Binary.isZero] using hx
      exact ⟨fun _ => hno, fun _ => ⟨hwritten.not_allBlank, hwritten.not_spellsZero⟩⟩

/-- What is taken is real unless it is one of the exceptions. -/
theorem isReal_iff {v : Value} {id : String} (hv : ∀ n, v = .number n → n.IsDouble)
    (h : idText v = some id) : IsReal id ↔ ¬ Slips v := by
  cases v with
  | string s =>
    simp only [idText] at h
    split at h
    · obtain rfl := Option.some.inj h
      constructor
      · rintro ⟨hblank, hzero⟩ (hslips | hslips)
        · rw [hblank] at hslips
          cases hslips
        · exact hzero hslips
      · intro hno
        exact ⟨Bool.eq_false_iff.mpr fun hblank => hno (.inl hblank), fun hzero => hno (.inr hzero)⟩
    · cases h
  | number n => exact isReal_number (hv n rfl) h
  | _ => cases h

/-! ## References -/

/-- The reply to a search has a reference to a transcript of the call: the
first one of the first call that it tells of. -/
def Refers (reply : Reply) (v : Value) : Prop :=
  ∃ call calls others, Errand.told foundPage reply = some (call :: calls)
    ∧ call.transcripts = v :: others

theorem isDouble_found : Makes Number.IsDouble found fun call =>
    ∀ v ∈ call.transcripts, ∀ n, v = .number n → n.IsDouble := by
  have hreference : Makes Number.IsDouble CallHistory.reference
      fun v => ∀ n, v = .number n → n.IsDouble := by
    refine makes_record (List.forall_mem_singleton.mpr (guards_field makes_anything ?_)) nofun
    exact fun _ _ hv _ => hv
  refine makes_record (List.forall_mem_cons.mpr ⟨?_, List.forall_mem_cons.mpr ⟨?_,
    List.forall_mem_singleton.mpr ?_⟩⟩) fun v hv => absurd hv List.not_mem_nil
  · exact guards_field (makes_list hreference) fun _ _ hts _ => hts
  · exact guards_field (makes_true _) fun _ _ _ hcall => hcall
  · exact guards_field (makes_true _) fun _ _ _ hcall => hcall

theorem isDouble_foundPage : Makes Number.IsDouble foundPage fun calls =>
    ∀ call ∈ calls, ∀ v ∈ call.transcripts, ∀ n, v = .number n → n.IsDouble := by
  refine makes_record (List.forall_mem_singleton.mpr (guards_field (makes_list isDouble_found) ?_))
    fun call hcall => absurd hcall List.not_mem_nil
  exact fun _ _ hcalls _ => hcalls

theorem ofText_of_told {α : Type} {d : Decoder α} {reply : Reply} {a : α}
    (h : Errand.told d reply = some a) : ∃ body, Decoder.ofText d body = .ok a := by
  cases reply with
  | none => cases h
  | some r =>
    rw [Errand.told] at h
    split at h
    · exact ⟨r.body, toOption_eq_some.mp h⟩
    · cases h

/-- A reference that is a number was read from digits. -/
theorem isDouble_of_refers {reply : Reply} {v : Value} (h : Refers reply v) :
    ∀ n, v = .number n → n.IsDouble := by
  obtain ⟨call, calls, others, htold, hreference⟩ := h
  obtain ⟨body, hbody⟩ := ofText_of_told htold
  have hcalls := Decoder.of_ofText isDouble_foundPage (fun _ _ => Json.isDouble_value) hbody
  exact hcalls call List.mem_cons_self v (hreference ▸ List.mem_cons_self)

/-- A transcript is told of by a reference that is taken. -/
theorem refers_of_transcriptIn {reply : Reply} {t : Transcript}
    (h : transcriptIn reply = some t) : ∃ v, Refers reply v ∧ idText v = some t.id := by
  obtain ⟨calls, htold, htranscript⟩ := Option.bind_eq_some_iff.mp h
  cases calls with
  | nil => cases htranscript
  | cons call calls =>
    obtain ⟨id, hid, ht⟩ := Option.bind_eq_some_iff.mp htranscript
    obtain ⟨v, hv, hid⟩ := Option.bind_eq_some_iff.mp hid
    obtain ⟨others, hothers⟩ : ∃ others, call.transcripts = v :: others := by
      cases htranscripts : call.transcripts with
      | nil =>
        rw [htranscripts] at hv
        cases hv
      | cons w others =>
        rw [htranscripts] at hv
        obtain rfl := Option.some.inj hv
        exact ⟨others, rfl⟩
    refine ⟨v, ⟨call, calls, others, htold, hothers⟩, ?_⟩
    rw [hid, ← Option.some.inj ht]

/-- Where none is told of, what the reply refers to is passed over. -/
theorem withheld_of_transcriptIn {reply : Reply} (h : transcriptIn reply = none) {v : Value}
    (hv : Refers reply v) : Withheld v := by
  obtain ⟨call, calls, others, htold, hreference⟩ := hv
  rw [transcriptIn, htold, Option.bind_some] at h
  cases hid : idText v with
  | none => exact idText_eq_none.mp hid
  | some id =>
    simp [transcriptOf, hreference, hid] at h

/-! ## Waiting for a transcript -/

/-- A search after which the next one is made: whatever its reply refers to
is passed over. -/
def Missed (a : Auditor) (p : Params) (x : Exchange) : Prop :=
  Errand.search.Asks a p x.1 ∧ ∀ v, Refers x.2 v → Withheld v

/-- **Readiness.** A transcript is waited for until a search refers to one
by something that is not passed over, or as long as there are attempts. What
is taken is neither blank nor zero, unless it is one of the references that
slip through. -/
theorem awaited_real_iff {a : Auditor} {p : Params} {log : List Exchange}
    {r : Except Failure Transcript} (h : (a.awaitTranscript p.call).Goes log r) :
    ∃ create, Errand.transcribe.Asks a p create.1 ∧
      ((r = .error (.notReady a.attempts) ∧ ∃ polls, log = create :: polls
          ∧ polls.length = a.attempts ∧ ∀ x ∈ polls, Missed a p x)
        ∨ ∃ t missed x v, r = .ok t ∧ log = create :: (missed ++ [x])
          ∧ (∀ y ∈ missed, Missed a p y) ∧ Errand.search.Asks a p x.1 ∧ Refers x.2 v
          ∧ idText v = some t.id ∧ (IsReal t.id ↔ ¬ Slips v)) := by
  obtain ⟨create, polls, found, rfl, hcreate, ⟨delay, hpoll⟩, ⟨hfound, hr⟩ | ⟨t, rfl, rfl⟩⟩ :=
    goes_awaitTranscript h
  · obtain ⟨hasks, -, -, -, hnone⟩ := polls_of_goes _ _ _ _ hpoll
    obtain ⟨hlength, huseless⟩ := hnone hfound
    refine ⟨create, hcreate, .inl ⟨hr, polls, rfl, hlength, fun x hx => ⟨hasks x hx, fun v => ?_⟩⟩⟩
    have hmissed : (transcriptIn x.2).isSome = false := huseless x hx
    exact withheld_of_transcriptIn (Option.isNone_iff_eq_none.mp (by simpa using hmissed))
  · obtain ⟨missed, x, rfl, hasks, htold, hmissed⟩ := found_of_goes _ delay polls hpoll
    obtain ⟨v, hv, hid⟩ := refers_of_transcriptIn htold
    refine ⟨create, hcreate, .inr ⟨t, missed, x, v, rfl, rfl, fun y hy => ?_, hasks, hv, hid, ?_⟩⟩
    · exact ⟨(hmissed y hy).1, fun w => withheld_of_transcriptIn (hmissed y hy).2⟩
    · exact isReal_iff (isDouble_of_refers hv) hid

/-- A history that refers to a transcript by one JSON value after the other,
each given as its text. -/
def referring (ids : List String) (_ : Request) : Reply × List String :=
  let body := "\x7b\"items\":[\x7b\"transcripts\":[\x7b\"id\":" ++ ids.headD "null"
    ++ "\x7d]\x7d]\x7d"
  (some ⟨200, body⟩, ids.tail)

/-- The number zero, an empty text and a missing identifier are passed over
and a number is taken. The first reply is that to the request to transcribe
the call. -/
theorem awaited_real_iff_polled :
    let p : Params := { callId := "call" }
    ∃ log, (obligedAuditor.awaitTranscript p.call).Goes log (.ok ⟨"12.5", none, none⟩)
      ∧ ∃ create missed x v, log = create :: (missed ++ [x]) ∧ missed.length = 3
        ∧ (∀ y ∈ missed, Missed obligedAuditor p y) ∧ Refers x.2 v
        ∧ (IsReal "12.5" ↔ ¬ Slips v) := by
  intro p
  let session := obligedAuditor.awaitTranscript p.call
  let ids := ["null", "0", "\"\"", "null", "1.25e1"]
  obtain ⟨log, hlog, hgoes⟩ := Session.run_noted referring session ids []
  have hresult : (session.run (noted referring) (ids, [])).1.toOption
      = some ⟨"12.5", none, none⟩ := by decide +kernel
  have hlength : (session.run (noted referring) (ids, [])).2.2.length = 5 := by decide +kernel
  rw [toOption_eq_some.mp hresult] at hgoes
  rw [hlog, List.nil_append] at hlength
  refine ⟨log, hgoes, ?_⟩
  obtain ⟨create, -, ⟨herror, -⟩ | ⟨t, missed, x, v, hok, rfl, hmissed, -, hv, -, hreal⟩⟩ :=
    awaited_real_iff hgoes
  · cases herror
  · obtain rfl := Except.ok.inj hok
    exact ⟨create, missed, x, v, rfl, by simpa using hlength, hmissed, hv, hreal⟩

/-- The transcript that is waited for where the first search refers to it by
a JSON value. -/
def awaitedBy (id : String) : Option Transcript :=
  ((obligedAuditor.awaitTranscript "call").run referring ["null", id]).1.toOption

/-- A blank text and zeros that are not the whole number are taken. -/
theorem unreal_awaited :
    (awaitedBy "\" \"" = some ⟨" ", none, none⟩ ∧ ¬ IsReal " ")
      ∧ (awaitedBy "\"00\"" = some ⟨"00", none, none⟩ ∧ ¬ IsReal "00")
      ∧ (awaitedBy "0.0" = some ⟨"0.0", none, none⟩ ∧ ¬ IsReal "0.0")
      ∧ awaitedBy "0e5" = some ⟨"0.0", none, none⟩
      ∧ awaitedBy "-0" = some ⟨"-0.0", none, none⟩ ∧ ¬ IsReal "-0.0" := by
  have hblank : ¬ IsReal " " := fun h => absurd h.unblank (by decide)
  have hzeros : ¬ IsReal "00" := fun h => h.nonzero ⟨false, 0, by decide⟩
  have hpoint : ¬ IsReal "0.0" := fun h => h.nonzero ⟨false, -1, by decide⟩
  have hminus : ¬ IsReal "-0.0" := fun h => h.nonzero ⟨true, -1, by decide⟩
  exact ⟨⟨by decide +kernel, hblank⟩, ⟨by decide +kernel, hzeros⟩, ⟨by decide +kernel, hpoint⟩,
    by decide +kernel, by decide +kernel, hminus⟩

end CallAudit
