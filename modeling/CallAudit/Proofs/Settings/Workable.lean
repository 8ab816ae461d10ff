/-
CallAudit.Proofs.Settings.Workable — settings that are loaded can be worked
with.

Every setting goes through a reader of its own, and each reader leaves out
what nobody could work with: an interval or a timeout of no time, a number of
none, a temperature out of range, a blank address. A timeout is looked at
after it was rounded, so one that is too short to be told from none counts as
none. What is left out is replaced by a default, and each default passes the
same test.

* `Number.Binary.value` — the number that a binary number is.
* `Itemized` — the items of a list between commas, in their order.
* `Workable` — what a worker relies on.
* `workable_of_load` — all settings that are loaded are workable.
-/
import CallAudit.Proofs.Settings.PoolSize
import CallAudit.Proofs.Text.Lines
import Mathlib.Algebra.Order.Field.Power
import Mathlib.Algebra.Order.Ring.Rat

namespace CallAudit

/-! ## Binary numbers -/

namespace Number

/-- The number that a binary number is. -/
def Binary.value (x : Binary) : ℚ :=
  (if x.neg then -1 else 1) * (x.mant * 2 ^ x.exp)

/-- The absolute value as a quotient of whole numbers. -/
theorem Binary.ratio_eq (x : Binary) :
    0 < x.ratio.2 ∧ (x.ratio.1 : ℚ) = x.mant * 2 ^ x.exp * x.ratio.2 := by
  obtain ⟨neg, mant, exp⟩ := x
  have hpow : ∀ n : Nat, twoTo n = 2 ^ n := fun _ => rfl
  simp only [ratio, scaled, hpow, one_mul]
  refine ⟨Nat.two_pow_pos _, ?_⟩
  push_cast
  rw [mul_assoc, ← zpow_natCast, ← zpow_natCast, ← zpow_add₀ two_ne_zero]
  congr 2
  omega

/-- Bounds on a number that is not below zero are bounds on its quotient. -/
theorem Binary.value_mem {x : Binary} (hsign : x.neg = false ∨ x.isZero = true) {most : Nat}
    (hmost : x.ratio.1 ≤ most * x.ratio.2) : 0 ≤ x.value ∧ x.value ≤ most := by
  obtain ⟨hpos, hratio⟩ := x.ratio_eq
  have hvalue : x.value = x.mant * 2 ^ x.exp := by
    rcases hsign with hneg | hzero
    · rw [value, hneg, if_neg Bool.false_ne_true, one_mul]
    · have hmant : x.mant = 0 := by simpa [isZero] using hzero
      simp [value, hmant]
  have hbound : x.value * x.ratio.2 ≤ most * x.ratio.2 := by
    rw [hvalue, ← hratio]
    exact_mod_cast hmost
  refine ⟨?_, le_of_mul_le_mul_right hbound (by exact_mod_cast hpos)⟩
  rw [hvalue]
  exact mul_nonneg (Nat.cast_nonneg _) (zpow_nonneg zero_le_two _)

end Number

/-- A setting is not read from blanks. -/
theorem Setting.notBlank_of_read {s : Setting} {env : Variables} {text : String}
    (h : s.read env = some text) : Text.allBlank text = false := by
  have notBlank : ∀ name, env.value? name = some text → Text.allBlank text = false := by
    intro name hname
    simpa using (Option.filter_eq_some_iff.mp hname).2
  rcases Option.or_eq_some_iff.mp h with hname | ⟨-, hlegacy⟩
  · exact notBlank _ hname
  · exact notBlank _ hlegacy

namespace Settings

open CallAudit.Time (Span)
open CallAudit.Text (Tidy)

variable {env : Variables} {s : Setting}

/-! ## What readers give -/

theorem tidy_of_need {url : String} (h : need env s = .ok url) : Tidy url := by
  unfold need at h
  split at h
  · rename_i text hread
    obtain rfl := Except.ok.inj h
    exact Text.tidy_trimmed (Setting.notBlank_of_read hread)
  · cases h

/-- A timeout that is read is some time. -/
theorem pos_of_readTimeout {o : Option Span} (h : readTimeout env s = .ok o) :
    ∀ d ∈ o, 0 < d.nanos := by
  intro d hd
  unfold readTimeout at h
  cases hdelay : readDelay env s with
  | error e =>
    rw [hdelay] at h
    cases h
  | ok given =>
    rw [hdelay] at h
    obtain rfl := Except.ok.inj h
    have hsome := (Option.filter_eq_some_iff.mp hd).2
    simp only [Span.isZero, Bool.not_eq_true', beq_eq_false_iff_ne] at hsome
    omega

/-- An interval that is read is some time. -/
theorem pos_of_readInterval : ∀ d ∈ readInterval env s, 0 < d.nanos := by
  intro d hd
  obtain ⟨n, hn, rfl⟩ := Option.map_eq_some_iff.mp hd
  have hpos := (readCount_bounds hn).1
  simp only [Span.millis]
  omega

/-- A count that is read is one at least. -/
theorem pos_of_readCount {most : Int} : ∀ n ∈ readCount env most s, 1 ≤ n :=
  fun _ hn => (readCount_bounds hn).1

theorem pos_of_toNat_readCount {most : Int} :
    ∀ n ∈ (readCount env most s).map Int.toNat, 1 ≤ n := by
  intro n hn
  obtain ⟨m, hm, rfl⟩ := Option.map_eq_some_iff.mp hn
  have hpos := pos_of_readCount m hm
  omega

/-- A temperature that is read is a number from zero to two. -/
theorem value_of_temperature? {text : String} {x : Number.Binary} (h : temperature? text = some x) :
    0 ≤ x.value ∧ x.value ≤ 2 := by
  obtain ⟨hamount, hmost⟩ := Option.filter_eq_some_iff.mp h
  have hsign := (Option.filter_eq_some_iff.mp hamount).2
  exact Number.Binary.value_mem (by simpa using hsign) (of_decide_eq_true hmost)

/-- An address that is read is none of the words for none, in whatever
case. -/
theorem address?_eq_some {text address : String} (h : address? text = some address) :
    Tidy address
      ∧ ∀ word ∈ ["0", "off", "false", "none"], Text.eqFold address.toList word.toList = false := by
  have hsmall : ∀ word ∈ ["0", "off", "false", "none"],
      word.toList.map Text.foldCase = word.toList := by decide
  unfold address? at h
  split at h
  · cases h
  · rename_i hnone
    obtain ⟨htrim, hne⟩ := Text.nonBlank_eq_some.mp h
    refine ⟨Text.tidy_of_toList_eq htrim hne, fun word hword => ?_⟩
    have hother : (["0", "off", "false", "none"].any fun w =>
        (Text.trim text.toList).map Text.foldCase == w.toList) = false := Bool.eq_false_iff.mpr hnone
    rw [Text.eqFold, hsmall word hword, htrim]
    exact Bool.eq_false_iff.mpr (List.any_eq_false.mp hother word hword)

/-! ## Lists -/

/-- The items of a list: what is left of the parts between commas when they
are trimmed, in their order. -/
def Itemized (text : List Char) (items : List String) : Prop :=
  ∃ parts : List (List Char), [','].intercalate parts = text ∧ (∀ part ∈ parts, ',' ∉ part)
    ∧ items.map String.toList = (parts.map Text.trim).filter (· ≠ [])

theorem itemized_listOf (text : String) : Itemized text.toList (listOf text) := by
  refine ⟨Text.pieces ',' text.toList, Text.intercalate_pieces _ _,
    fun _ => Text.not_mem_pieces, ?_⟩
  unfold listOf
  generalize Text.pieces ',' text.toList = parts
  induction parts with
  | nil => rfl
  | cons part parts ih =>
    rw [List.filterMap_cons, List.map_cons, List.filter_cons]
    cases hitem : Text.nonBlank (String.ofList part) with
    | none =>
      have hnil : Text.trim part = [] := by
        by_contra hne
        have hsome : Text.nonBlank (String.ofList part) = some (String.ofList (Text.trim part)) :=
          Text.nonBlank_eq_some.mpr (by simpa using hne)
        rw [hitem] at hsome
        cases hsome
      simpa [hnil] using ih
    | some item =>
      obtain ⟨htrim, hne⟩ := Text.nonBlank_eq_some.mp hitem
      rw [String.toList_ofList] at htrim hne
      simp [hne, htrim, ih]

/-- An item is tidy and has no comma in it. -/
theorem Itemized.tidy {text : List Char} {items : List String} (h : Itemized text items) :
    ∀ item ∈ items, Tidy item ∧ ',' ∉ item.toList := by
  intro item hitem
  obtain ⟨parts, -, hcomma, hitems⟩ := h
  have hmem : item.toList ∈ (parts.map Text.trim).filter (· ≠ []) :=
    hitems ▸ List.mem_map_of_mem hitem
  obtain ⟨hpart, hne⟩ := List.mem_filter.mp hmem
  obtain ⟨part, hpart, htrim⟩ := List.mem_map.mp hpart
  have hne : Text.trim part ≠ [] := by simpa [htrim] using hne
  refine ⟨Text.tidy_of_toList_eq htrim.symm hne, fun hin => hcomma part hpart ?_⟩
  exact (Text.trim_sublist part).subset (htrim ▸ hin)

/-! ## All settings -/

/-- What a worker relies on. The loops and the clients of the services need
some time to go by, and the rounds something to do; the names and addresses
are as they are written into requests. -/
structure Workable (env : Variables) (c : Settings) : Prop where
  intervals : ∀ d ∈ [c.rounds.enqueueEvery, c.rounds.claimEvery, c.rounds.reapEvery], 0 < d.nanos
  timeouts : ∀ d ∈ [c.timeout, c.model.timeout], 0 < d.nanos
  batch : 1 ≤ c.rounds.batch
  ceiling : 1 ≤ c.rounds.ceiling
  polls : 1 ≤ c.audit.polls
  depth : 1 ≤ c.depth
  workers : 1 ≤ c.workers ∧ c.workers ≤ 10000
  temperature : ∀ x, c.model.temperature = some x → 0 ≤ x.value ∧ x.value ≤ 2
  endpoints : ∀ url ∈ [c.endpoints.transcript, c.endpoints.history, c.endpoints.phrases,
    c.endpoints.patch, c.endpoints.form, c.endpoints.rate], Tidy url
  secrets : ∀ text, c.accessToken = some text ∨ c.model.key = some text →
    Text.allBlank text = false
  categories : ∀ category ∈ c.audit.categories, Tidy category ∧ ',' ∉ category.toList
  order : Itemized ((categoriesSetting.read env).getD "").toList c.audit.categories
  address : ∀ a, c.adminAddress = some a → Tidy a
    ∧ ∀ word ∈ ["0", "off", "false", "none"], Text.eqFold a.toList word.toList = false

/-- What holds of every value that is given and of the default holds in any
case. -/
theorem getD_of_forall {α : Type} {P : α → Prop} {o : Option α} {default : α} (given : ∀ a ∈ o, P a)
    (otherwise : P default) : P (o.getD default) := by
  cases o with
  | none => exact otherwise
  | some a => exact given a rfl

theorem accessToken_of_load {c : Settings} (h : load env = .ok c) :
    c.accessToken = accessTokenSetting.read env := by
  rw [load] at h
  split at h
  · iterate 6
      obtain ⟨_, -, h⟩ := ok_of_bind h
    rw [← Except.ok.inj h]
  · cases h

theorem tidy_of_loadEndpoints {e : Endpoints} (h : loadEndpoints env = .ok e) :
    ∀ url ∈ [e.transcript, e.history, e.phrases, e.patch, e.form, e.rate], Tidy url := by
  obtain ⟨_, htranscript, h⟩ := ok_of_bind h
  obtain ⟨_, hhistory, h⟩ := ok_of_bind h
  obtain ⟨_, hphrases, h⟩ := ok_of_bind h
  obtain ⟨_, hpatch, h⟩ := ok_of_bind h
  obtain ⟨_, hform, h⟩ := ok_of_bind h
  obtain ⟨_, hrate, h⟩ := ok_of_bind h
  obtain rfl := Except.ok.inj h
  simp only [List.forall_mem_cons]
  exact ⟨tidy_of_need htranscript, tidy_of_need hhistory, tidy_of_need hphrases,
    tidy_of_need hpatch, tidy_of_need hform, tidy_of_need hrate, by simp⟩

theorem workable_of_loadModel {m : ModelSettings} (h : loadModel env = .ok m) :
    0 < m.timeout.nanos ∧ (∀ x, m.temperature = some x → 0 ≤ x.value ∧ x.value ≤ 2)
      ∧ m.key = keySetting.read env := by
  obtain ⟨_, htimeout, h⟩ := ok_of_bind h
  obtain rfl := Except.ok.inj h
  refine ⟨getD_of_forall (pos_of_readTimeout htimeout) (by decide), fun x hx => ?_, rfl⟩
  obtain ⟨_, -, hread⟩ := Option.bind_eq_some_iff.mp hx
  exact value_of_temperature? hread

theorem workable_of_loadAudit {a : AuditSettings} (h : loadAudit env = .ok a) :
    1 ≤ a.polls ∧ Itemized ((categoriesSetting.read env).getD "").toList a.categories := by
  obtain ⟨_, -, h⟩ := ok_of_bind h
  obtain ⟨_, -, h⟩ := ok_of_bind h
  obtain rfl := Except.ok.inj h
  refine ⟨getD_of_forall pos_of_toNat_readCount (by decide), ?_⟩
  -- no list is the list of an empty text
  cases categoriesSetting.read env with
  | none => exact itemized_listOf ""
  | some text => exact itemized_listOf text

theorem workable_of_loadRounds {r : RoundSettings} (h : loadRounds env = .ok r) :
    (∀ d ∈ [r.enqueueEvery, r.claimEvery, r.reapEvery], 0 < d.nanos)
      ∧ 1 ≤ r.batch ∧ 1 ≤ r.ceiling := by
  obtain ⟨_, -, h⟩ := ok_of_bind h
  obtain rfl := Except.ok.inj h
  refine ⟨?_, getD_of_forall pos_of_readCount (by decide),
    getD_of_forall pos_of_readCount (by decide)⟩
  simp only [List.forall_mem_cons]
  exact ⟨getD_of_forall pos_of_readInterval (by decide),
    getD_of_forall pos_of_readInterval (by decide),
    getD_of_forall pos_of_readInterval (by decide), by simp⟩

/-- **Workable settings.** Whatever the variables are, settings that are
loaded from them are workable: no interval or timeout is no time, no count is
zero, the workers are not too many, the temperature is in range, the
endpoints, categories and the address are not blank and have no blanks around
them, and no word for no address is taken for one. -/
theorem workable_of_load {c : Settings} (h : load env = .ok c) : Workable env c := by
  have loaded := loaded_of_load h
  have sizes := sizes_of_load h
  obtain ⟨_, htimeout, hc⟩ := loaded.timeout
  have timeout : 0 < c.timeout.nanos := by
    rw [hc]
    exact getD_of_forall (pos_of_readTimeout htimeout) (by decide)
  obtain ⟨modelTimeout, temperature, hkey⟩ := workable_of_loadModel loaded.model
  obtain ⟨polls, order⟩ := workable_of_loadAudit loaded.audit
  obtain ⟨intervals, batch, ceiling⟩ := workable_of_loadRounds loaded.rounds
  refine
    { intervals, timeouts := ?_, batch, ceiling, polls, depth := sizes.depth_pos
      workers := ⟨sizes.workers_pos, sizes.workers_le⟩, temperature
      endpoints := tidy_of_loadEndpoints loaded.endpoints, secrets := ?_
      categories := order.tidy, order, address := ?_ }
  · simp only [List.forall_mem_cons]
    exact ⟨timeout, modelTimeout, by simp⟩
  · rintro text (htoken | hgiven)
    · exact Setting.notBlank_of_read (accessToken_of_load h ▸ htoken)
    · exact Setting.notBlank_of_read (hkey ▸ hgiven)
  · intro a ha
    rw [loaded.adminAddress] at ha
    obtain ⟨_, -, hread⟩ := Option.bind_eq_some_iff.mp ha
    exact address?_eq_some hread

/-- A timeout that rounds to no time, a temperature that rounds to minus zero,
a list with blank items, and a word for no address in capitals. -/
theorem workable_of_load_roundings :
    let env := variablesOf (("HTTP_TIMEOUT_SECS", "1e-10") :: ("OPENAI_TEMPERATURE", "-1e-50")
      :: ("OPENAI_CATEGORIES", " Sales, ,Support ,") :: ("ADMIN_ADDR", " OFF ") :: requiredOnly)
    ∃ c, load env = .ok c ∧ Workable env c ∧ c.timeout = .seconds 30
      ∧ c.model.temperature = some ⟨true, 0, -149⟩ ∧ c.audit.categories = ["Sales", "Support"]
      ∧ c.adminAddress = none := by
  intro env
  obtain ⟨c, hc⟩ := failure?_eq_none.mp (show failure? (load env) = none by decide +kernel)
  have hvalues : (load env).toOption.map (fun c => (c.timeout, c.model.temperature,
      c.audit.categories, c.adminAddress))
        = some (.seconds 30, some ⟨true, 0, -149⟩, ["Sales", "Support"], none) := by
    decide +kernel
  rw [hc] at hvalues
  simp only [Except.toOption, Option.map_some, Option.some.injEq, Prod.mk.injEq] at hvalues
  exact ⟨c, hc, workable_of_load hc, hvalues⟩

end Settings

end CallAudit
