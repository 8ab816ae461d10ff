/-
CallAudit.Proofs.Settings.Outcome — whether settings can be loaded.

What is required is looked for in a fixed order, and the first thing that is
missing is told (`failure?_load`). Of all other texts there is only one that
keeps settings from being loaded: a delay of two to the power of sixty-four
seconds or more, which is a number like any other when it is read and does
not fit when it is made a span of time. Every other text that is no value of
its setting leaves the setting at its default, and leaves the other settings
alone.

* `tunables` — the settings that may refuse a text, each with its default.
* `load_outcomes` — which settings are loaded, and what is told of the
  others.
-/
import CallAudit.Proofs.Results
import CallAudit.Proofs.Settings.Taken

namespace CallAudit.Settings

open CallAudit.Time (Span)

/-! ## Failures -/

/-- The first setting that has to be there and is not. -/
def missing? (env : Variables) : Option Setting :=
  required.find? fun s => (s.read env).isNone

/-- Everything that has to be there is. -/
def Complete (env : Variables) : Prop :=
  (env.value? "DATABASE_URL").isSome ∧ ∀ s ∈ required, (s.read env).isSome

/-- The settings that are lengths of time in seconds. -/
def delays : List Setting :=
  [timeoutSetting, modelTimeoutSetting, delayBeforePollSetting, delayBetweenPollsSetting,
    graceSetting]

/-- A number of seconds that is two to the power of sixty-four or more. -/
def isOverlong (text : String) : Bool :=
  match amount? .double text with
  | some x => 18446744073709551616 ≤ x.ratio.1 / x.ratio.2
  | none => false

/-- One of the delays is too long. -/
def Overlong (env : Variables) : Prop :=
  ∃ s ∈ delays, ∃ text, s.read env = some text ∧ isOverlong text = true

/-- One reason is told if there is one case for it or another. -/
theorem ite_any_cons {ε α : Type} (p : α → Bool) (a : α) (rest : List α) (e : ε) :
    (if (a :: rest).any p then some e else none)
      = (if p a then some e else none).or (if rest.any p then some e else none) := by
  rw [List.any_cons]
  cases p a <;> rfl

theorem failure?_need (env : Variables) (s : Setting) :
    failure? (need env s) = if (s.read env).isNone then some (.missing s) else none := by
  simp only [need]
  cases s.read env <;> rfl

theorem failure?_loadEndpoints (env : Variables) :
    failure? (loadEndpoints env) = (missing? env).map .missing := by
  rw [loadEndpoints]
  refine (failure?_bind fun _ => failure?_bind fun _ => failure?_bind fun _ =>
    failure?_bind fun _ => failure?_bind fun _ => failure?_bind fun _ =>
    failure?_pure _).trans ?_
  simp only [failure?_need, missing?, required, List.find?_cons, List.find?_nil]
  repeat' split
  all_goals simp_all

theorem failure?_delay? (text : String) :
    failure? (delay? text) = if isOverlong text then some .delayTooLong else none := by
  cases hx : amount? .double text with
  | none => simp [delay?, isOverlong, hx, failure?]
  | some x =>
    simp only [delay?, isOverlong, hx, decide_eq_true_eq]
    split <;> rfl

theorem failure?_readDelay (env : Variables) (s : Setting) :
    failure? (readDelay env s)
      = if (s.read env).any isOverlong then some .delayTooLong else none := by
  rw [readDelay_eq]
  cases s.read env with
  | none => rfl
  | some text => exact failure?_delay? text

theorem failure?_readTimeout (env : Variables) (s : Setting) :
    failure? (readTimeout env s)
      = if (s.read env).any isOverlong then some .delayTooLong else none := by
  rw [readTimeout, failure?_map, failure?_readDelay]

/-- What keeps settings from being loaded, in the order in which it is
found. -/
theorem failure?_load (env : Variables) :
    failure? (load env) =
      ((if (env.value? "DATABASE_URL").isNone then some .noDatabase else none).or
        ((missing? env).map .missing)).or
        (if delays.any fun s => (s.read env).any isOverlong then some .delayTooLong else none) := by
  have hmodel : failure? (loadModel env) = failure? (readTimeout env modelTimeoutSetting) := by
    rw [loadModel]
    exact (failure?_bind fun _ => failure?_pure _).trans Option.or_none
  have haudit : failure? (loadAudit env) = (failure? (readDelay env delayBeforePollSetting)).or
      (failure? (readDelay env delayBetweenPollsSetting)) := by
    rw [loadAudit]
    exact failure?_bind fun _ => (failure?_bind fun _ => failure?_pure _).trans Option.or_none
  have hrounds : failure? (loadRounds env) = failure? (readDelay env graceSetting) := by
    rw [loadRounds]
    exact (failure?_bind fun _ => failure?_pure _).trans Option.or_none
  have hdelays : (if delays.any fun s => (s.read env).any isOverlong then
        some Failure.delayTooLong else none)
      = (failure? (readTimeout env timeoutSetting)).or ((failure? (loadModel env)).or
        ((failure? (loadAudit env)).or (failure? (loadRounds env)))) := by
    rw [delays]
    simp only [hmodel, haudit, hrounds, failure?_readTimeout, failure?_readDelay, ite_any_cons,
      List.any_nil, Bool.false_eq_true, if_false, Option.or_none, Option.or_assoc]
  rw [hdelays, ← failure?_loadEndpoints, load]
  cases env.value? "DATABASE_URL" with
  | none => rfl
  | some url =>
    refine (failure?_bind fun _ => failure?_bind fun _ => failure?_bind fun _ =>
      failure?_bind fun _ => failure?_bind fun _ => failure?_bind fun _ =>
      failure?_pure _).trans ?_
    simp only [failure?, Option.none_or, Option.isNone_some, Bool.false_eq_true, if_false,
      Option.or_none]

/-! ## Defaults -/

/-- A setting that may refuse a text, and what it says of the settings if it
takes none. -/
structure Tunable extends Item where
  atDefault : Settings → Prop

/-- The settings that may refuse a text, with their defaults. -/
def tunables : List Tunable :=
  [⟨⟨single "CALL_AUDIT_MIGRATE_ON_STARTUP", .flag⟩, fun c => c.migrates = false⟩,
   ⟨⟨adminAddressSetting, .address⟩, fun c => c.adminAddress = none⟩,
   ⟨⟨timeoutSetting, .timeout⟩, fun c => c.timeout = .seconds 30⟩,
   ⟨⟨temperatureSetting, .temperature⟩, fun c => c.model.temperature = none⟩,
   ⟨⟨modelTimeoutSetting, .timeout⟩, fun c => c.model.timeout = .seconds 30⟩,
   ⟨⟨delayBeforePollSetting, .delay⟩, fun c => c.audit.delayBeforePoll = .seconds 1⟩,
   ⟨⟨delayBetweenPollsSetting, .delay⟩, fun c => c.audit.delayBetweenPolls = .seconds 10⟩,
   ⟨⟨pollsSetting, .count maxNat32⟩, fun c => c.audit.polls = 5⟩,
   ⟨⟨enqueueEverySetting, .count maxNat64⟩, fun c => c.rounds.enqueueEvery = .seconds 10⟩,
   ⟨⟨claimEverySetting, .count maxNat64⟩, fun c => c.rounds.claimEvery = .seconds 1⟩,
   ⟨⟨reapEverySetting, .count maxNat64⟩, fun c => c.rounds.reapEvery = .seconds 1⟩,
   ⟨⟨batchSetting, .count maxInt64⟩, fun c => c.rounds.batch = 10⟩,
   ⟨⟨ceilingSetting, .count maxInt64⟩, fun c => c.rounds.ceiling = 100⟩,
   ⟨⟨graceSetting, .delay⟩, fun c => c.rounds.grace = .seconds 30⟩,
   ⟨⟨workersSetting, .count maxNat64⟩, fun c => c.workers = 100⟩,
   ⟨⟨depthSetting, .count maxNat64⟩, fun c => c.depth = 10⟩]

theorem tunables_items : ∀ t ∈ tunables, t.toItem ∈ items := by
  simp [tunables, items, required]

/-- Loaded settings, part by part. -/
structure Loaded (env : Variables) (c : Settings) : Prop where
  endpoints : loadEndpoints env = .ok c.endpoints
  timeout : ∃ d, readTimeout env timeoutSetting = .ok d ∧ c.timeout = d.getD (.seconds 30)
  model : loadModel env = .ok c.model
  audit : loadAudit env = .ok c.audit
  rounds : loadRounds env = .ok c.rounds
  adminAddress : c.adminAddress = (adminAddressSetting.read env).bind address?
  migrates : c.migrates
    = (((single "CALL_AUDIT_MIGRATE_ON_STARTUP").read env).map isSet).getD false
  workers : c.workers
    = min (((readCount env maxNat64 workersSetting).map Int.toNat).getD 100) Workers.maxWorkers
  depth : c.depth = ((readCount env maxNat64 depthSetting).map Int.toNat).getD 10

theorem loaded_of_load {env : Variables} {c : Settings} (h : load env = .ok c) :
    Loaded env c := by
  rw [load] at h
  cases hdatabase : env.value? "DATABASE_URL" with
  | none =>
    rw [hdatabase] at h
    cases h
  | some url =>
    rw [hdatabase] at h
    obtain ⟨_, -, h⟩ := ok_of_bind h
    obtain ⟨endpoints, hendpoints, h⟩ := ok_of_bind h
    obtain ⟨timeout, htimeout, h⟩ := ok_of_bind h
    obtain ⟨model, hmodel, h⟩ := ok_of_bind h
    obtain ⟨audit, haudit, h⟩ := ok_of_bind h
    obtain ⟨rounds, hrounds, h⟩ := ok_of_bind h
    obtain rfl := Except.ok.inj h
    exact
      { endpoints := hendpoints, timeout := ⟨timeout, htimeout, rfl⟩, model := hmodel
        audit := haudit, rounds := hrounds, adminAddress := rfl, migrates := flag_eq _ env
        workers := rfl, depth := rfl }

section

variable {env : Variables} {s : Setting}

theorem readCount_of_none {most : Int} (h : s.read env = none) : readCount env most s = none := by
  rw [readCount, h]
  rfl

theorem readInterval_of_none (h : s.read env = none) : readInterval env s = none := by
  rw [readInterval, readCount_of_none h]
  rfl

theorem readDelay_of_none (h : s.read env = none) : readDelay env s = .ok none := by
  rw [readDelay, h]

theorem readTimeout_of_none (h : s.read env = none) : readTimeout env s = .ok none := by
  rw [readTimeout, readDelay_of_none h]
  rfl

end

/-- A setting without a text is at its default. -/
theorem atDefault_of_load {env : Variables} {c : Settings} (h : load env = .ok c) :
    ∀ t ∈ tunables, t.setting.read env = none → t.atDefault c := by
  have loaded := loaded_of_load h
  obtain ⟨_, htimeout, hc⟩ := loaded.timeout
  obtain ⟨_, hmodelTimeout, hmodel⟩ := ok_of_bind loaded.model
  obtain ⟨_, hbefore, haudit⟩ := ok_of_bind loaded.audit
  obtain ⟨_, hbetween, haudit⟩ := ok_of_bind haudit
  obtain ⟨_, hgrace, hrounds⟩ := ok_of_bind loaded.rounds
  simp only [tunables, List.forall_mem_cons]
  refine ⟨?_, ?_, ?_, ?_, ?_, ?_, ?_, ?_, ?_, ?_, ?_, ?_, ?_, ?_, ?_, ?_, by simp⟩ <;>
    intro hnone
  · rw [loaded.migrates, hnone]
    rfl
  · rw [loaded.adminAddress, hnone]
    rfl
  · rw [readTimeout_of_none hnone] at htimeout
    obtain rfl := Except.ok.inj htimeout
    exact hc
  · rw [← Except.ok.inj hmodel, hnone]
    rfl
  · rw [readTimeout_of_none hnone] at hmodelTimeout
    obtain rfl := Except.ok.inj hmodelTimeout
    rw [← Except.ok.inj hmodel]
    rfl
  · rw [readDelay_of_none hnone] at hbefore
    obtain rfl := Except.ok.inj hbefore
    rw [← Except.ok.inj haudit]
    rfl
  · rw [readDelay_of_none hnone] at hbetween
    obtain rfl := Except.ok.inj hbetween
    rw [← Except.ok.inj haudit]
    rfl
  · rw [← Except.ok.inj haudit, readCount_of_none hnone]
    rfl
  · rw [← Except.ok.inj hrounds, readInterval_of_none hnone]
    rfl
  · rw [← Except.ok.inj hrounds, readInterval_of_none hnone]
    rfl
  · rw [← Except.ok.inj hrounds, readInterval_of_none hnone]
    rfl
  · rw [← Except.ok.inj hrounds, readCount_of_none hnone]
    rfl
  · rw [← Except.ok.inj hrounds, readCount_of_none hnone]
    rfl
  · rw [readDelay_of_none hnone] at hgrace
    obtain rfl := Except.ok.inj hgrace
    rw [← Except.ok.inj hrounds]
    rfl
  · rw [loaded.workers, readCount_of_none hnone]
    rfl
  · rw [loaded.depth, readCount_of_none hnone]
    rfl

/-! ## Outcomes -/

theorem complete_iff {env : Variables} :
    Complete env ↔ (env.value? "DATABASE_URL").isNone = false ∧ missing? env = none := by
  simp [Complete, missing?, List.find?_eq_none, ← Option.isSome_iff_ne_none]

theorem overlong_iff {env : Variables} :
    Overlong env ↔ (delays.any fun s => (s.read env).any isOverlong) = true := by
  simp only [Overlong, List.any_eq_true, Option.any_eq_true]

/-- **Outcomes of loading.** Settings are loaded exactly if all that is
required is there and no delay is too long; of what is required the first
that is missing is told. A text that its setting refuses is no more than no
text at all: the settings are those of the variables without it, where this
setting has its default. -/
theorem load_outcomes (env : Variables) :
    ((∃ c, load env = .ok c) ↔ Complete env ∧ ¬ Overlong env)
      ∧ (load env = .error .noDatabase ↔ env.value? "DATABASE_URL" = none)
      ∧ (∀ s, load env = .error (.missing s) ↔
          (env.value? "DATABASE_URL").isSome ∧ missing? env = some s)
      ∧ (load env = .error .delayTooLong ↔ Complete env ∧ Overlong env)
      ∧ ∀ t ∈ tunables, ∀ text, t.setting.read env = some text → t.kind.takes text = false →
          load env = load (env.without t.setting) ∧ ∀ c, load env = .ok c → t.atDefault c := by
  have hfailure := failure?_load env
  simp only [← failure?_eq_some, ← failure?_eq_none, complete_iff, overlong_iff, hfailure]
  refine ⟨?_, ?_, ?_, ?_, ?_⟩
  · cases (env.value? "DATABASE_URL") <;> cases missing? env <;> simp
  · cases (env.value? "DATABASE_URL") <;> cases missing? env <;> simp
  · cases (env.value? "DATABASE_URL") <;> cases missing? env <;> simp
  · cases (env.value? "DATABASE_URL") <;> cases missing? env <;> simp
  · intro t ht text hread hrefused
    have hitem := tunables_items t ht
    have hnone : t.taken env = none := by
      rw [Item.taken, hread, Option.filter_some_neg (by simp [hrefused])]
    have hsame := load_without hitem hnone
    exact ⟨hsame.symm, fun c hc =>
      atDefault_of_load (hsame.trans hc) t ht (t.setting.read_without env)⟩

/-- Variables by their names. -/
def variablesOf (vs : List (String × String)) : Variables :=
  fun name => vs.lookup name

/-- All that is required, under the older names. -/
def requiredOnly : List (String × String) :=
  [("DATABASE_URL", "postgres://localhost/audit"),
   ("POST_TRANSCRIPT_URL", "http://h/transcript"), ("POST_HISTORY_URL", "http://h/history"),
   ("GET_URL_TEMPLATE", "http://h/transcript/\x7bid\x7d/phrases"),
   ("PATCH_HISTORY_URL_TEMPLATE", "http://h/history/\x7buuid\x7d"),
   ("SCORECARD_FORM_URL_TEMPLATE", "http://h/forms/\x7bid\x7d"),
   ("SCORECARD_RATE_URL", "http://h/rate")]

/-- A batch of no jobs is refused, and ten are claimed at a time. -/
theorem load_outcomes_no_batch :
    let env := variablesOf (("CLAIM_BATCH", " 0 ") :: requiredOnly)
    (batchSetting.read env = some " 0 " ∧ (Kind.count maxInt64).takes " 0 " = false)
      ∧ load env = load (env.without batchSetting)
      ∧ ∃ c, load env = .ok c ∧ c.rounds.batch = 10 := by
  intro env
  have hread : batchSetting.read env = some " 0 " := by decide +kernel
  have hrefused : (Kind.count maxInt64).takes " 0 " = false := by decide +kernel
  obtain ⟨hloaded, -, -, -, hdefault⟩ := load_outcomes env
  have hcomplete : Complete env := complete_iff.mpr (by decide +kernel)
  have hfits : ¬ Overlong env := fun h => absurd (overlong_iff.mp h) (by decide +kernel)
  obtain ⟨c, hc⟩ := hloaded.mpr ⟨hcomplete, hfits⟩
  obtain ⟨hsame, hbatch⟩ := hdefault ⟨⟨batchSetting, .count maxInt64⟩, fun c => c.rounds.batch = 10⟩
    (by simp [tunables]) " 0 " hread hrefused
  exact ⟨⟨hread, hrefused⟩, hsame, c, hc, hbatch c hc⟩

/-- A timeout of ten to the power of twenty seconds keeps settings from
being loaded although all that is required is there. -/
theorem overlong_timeout_fails :
    let env := variablesOf (("HTTP_TIMEOUT_SECS", "1e20") :: requiredOnly)
    Complete env ∧ load env = .error .delayTooLong ∧ ¬ ∃ c, load env = .ok c := by
  intro env
  have hcomplete : Complete env := complete_iff.mpr (by decide +kernel)
  have hfailure : load env = .error .delayTooLong := failure?_eq_some.mp (by decide +kernel)
  refine ⟨hcomplete, hfailure, fun ⟨c, hc⟩ => ?_⟩
  rw [hfailure] at hc
  cases hc

end CallAudit.Settings
