/-
CallAudit.Proofs.Settings.Taken — what settings are made of: the texts that
are taken, and nothing else.

* `Kind.takes` — the texts a kind of setting takes. A text that is refused is
  no other than none at all.
* `items` — every setting that is read, with its kind. A variable that has
  one name only is a setting whose older name is the same.
* `load_congr` — sources of variables that agree on the text that is taken
  for every setting are loaded alike.
* `taken_without` — a setting without its variables takes no text, and no
  other setting notices, since no two settings share a name.
* `load_without` — so a text that its setting refuses may as well not be
  there.
-/
import CallAudit.Proofs.Text.Blank
import CallAudit.Settings.Load
import Mathlib.Data.List.Pairwise
import Mathlib.Data.List.TakeWhile

namespace CallAudit

/-- A source of variables without those of a setting. -/
def Variables.without (env : Variables) (s : Setting) : Variables :=
  fun name => if name = s.name ∨ name = s.legacy then none else env name

/-- Settings that have no name in common. -/
def Setting.Apart (s r : Setting) : Prop :=
  (s.name ≠ r.name ∧ s.name ≠ r.legacy) ∧ s.legacy ≠ r.name ∧ s.legacy ≠ r.legacy

instance (s r : Setting) : Decidable (s.Apart r) :=
  inferInstanceAs (Decidable ((_ ∧ _) ∧ _ ∧ _))

theorem Setting.read_without (s : Setting) (env : Variables) : s.read (env.without s) = none := by
  simp [Setting.read, Variables.value?, Variables.without]

theorem Setting.read_without_of_apart {s r : Setting} (h : s.Apart r) (env : Variables) :
    s.read (env.without r) = s.read env := by
  obtain ⟨hname, hlegacy⟩ := h
  simp [Setting.read, Variables.value?, Variables.without, hname, hlegacy]

namespace Settings

open CallAudit.Time (Span)

/-! ## Kinds of settings -/

/-- The kinds of settings. -/
inductive Kind where
  | text
  /-- A positive whole number up to a bound. -/
  | count (most : Int)
  | delay
  /-- A delay that is some time. -/
  | timeout
  | temperature
  | address
  | flag
deriving DecidableEq

/-- Whether a text is no delay at all. One that is too long is not taken for
this. -/
def isNoDelay (text : String) : Bool :=
  match delay? text with
  | .ok none => true
  | _ => false

/-- Whether a text is a delay of no time. -/
def isNoTime (text : String) : Bool :=
  match delay? text with
  | .ok (some d) => d.isZero
  | _ => false

/-- Whether a setting of a kind takes a text. A flag is only ever set. -/
def Kind.takes : Kind → String → Bool
  | text, _ => true
  | count most, t => (count? most t).isSome
  | delay, t => !isNoDelay t
  | timeout, t => !(isNoDelay t || isNoTime t)
  | temperature, t => (temperature? t).isSome
  | address, t => (address? t).isSome
  | flag, t => isSet t

/-- A setting and its kind. -/
structure Item where
  setting : Setting
  kind : Kind
deriving DecidableEq

/-- The text of a setting, if it takes it. -/
def Item.taken (i : Item) (env : Variables) : Option String :=
  (i.setting.read env).filter i.kind.takes

/-- A variable that goes by one name. -/
def single (name : String) : Setting := ⟨name, name⟩

/-- The settings that have to be there, in the order they are read. -/
def required : List Setting :=
  [transcriptSetting, historySetting, phrasesSetting, patchSetting, formSetting, rateSetting]

/-- Every setting that is read. -/
def items : List Item :=
  (required.map fun s => ⟨s, .text⟩) ++
  [⟨single "DATABASE_URL", .text⟩, ⟨single "HOSTNAME", .text⟩,
   ⟨single "CALL_AUDIT_MIGRATE_ON_STARTUP", .flag⟩, ⟨workerNameSetting, .text⟩,
   ⟨adminAddressSetting, .address⟩, ⟨logFilterSetting, .text⟩, ⟨accessTokenSetting, .text⟩,
   ⟨timeoutSetting, .timeout⟩, ⟨baseUrlSetting, .text⟩, ⟨keySetting, .text⟩,
   ⟨modelSetting, .text⟩, ⟨temperatureSetting, .temperature⟩, ⟨modelTimeoutSetting, .timeout⟩,
   ⟨categoriesSetting, .text⟩, ⟨delayBeforePollSetting, .delay⟩,
   ⟨delayBetweenPollsSetting, .delay⟩, ⟨pollsSetting, .count maxNat32⟩,
   ⟨enqueueEverySetting, .count maxNat64⟩, ⟨claimEverySetting, .count maxNat64⟩,
   ⟨reapEverySetting, .count maxNat64⟩, ⟨batchSetting, .count maxInt64⟩,
   ⟨ceilingSetting, .count maxInt64⟩, ⟨graceSetting, .delay⟩,
   ⟨workersSetting, .count maxNat64⟩, ⟨depthSetting, .count maxNat64⟩]

/-! ## Values by the text that is taken -/

/-- A reading that makes no more of a text that is refused than of none
looks at the text that is taken alone. -/
theorem read_congr {β : Type} {i : Item} {env other : Variables}
    (same : i.taken env = i.taken other) (f : Option String → β)
    (hrefused : ∀ t, i.kind.takes t = false → f (some t) = f none) :
    f (i.setting.read env) = f (i.setting.read other) := by
  have htaken : ∀ env : Variables, f (i.taken env) = f (i.setting.read env) := by
    intro env
    simp only [Item.taken]
    cases i.setting.read env with
    | none => rfl
    | some t =>
      cases ht : i.kind.takes t with
      | true => rw [Option.filter_some_pos ht]
      | false => rw [Option.filter_some_neg (by simp [ht]), hrefused t ht]
  rw [← htaken env, same, htaken other]

theorem read_single (name : String) (env : Variables) :
    (single name).read env = env.value? name :=
  Option.or_self

theorem delay?_of_isNoDelay {t : String} (h : isNoDelay t = true) : delay? t = .ok none := by
  simp only [isNoDelay] at h
  split at h <;> trivial

theorem readDelay_eq (env : Variables) (s : Setting) :
    readDelay env s = (s.read env).elim (.ok none) delay? := by
  simp only [readDelay]
  cases s.read env <;> rfl

/-- What is refused as a timeout is no delay, or one of no time. -/
theorem timeout_refused {t : String} (h : Kind.timeout.takes t = false) :
    ((delay? t).map (Option.filter fun d => !d.isZero)) = .ok none := by
  have h : isNoDelay t = true ∨ isNoTime t = true := by
    simpa only [Kind.takes, Bool.not_eq_false', Bool.or_eq_true] using h
  rcases h with h | h
  · rw [delay?_of_isNoDelay h]
    rfl
  · simp only [isNoTime] at h
    split at h
    · rename_i d hd
      rw [hd]
      exact congrArg Except.ok (Option.filter_some_neg (by simp [h]))
    · cases h

/-- A blank text is none of the words that set a flag. -/
theorem isSet_of_allBlank {t : String} (h : Text.allBlank t = true) : isSet t = false := by
  have htrim : Text.trim t.toList = [] := Text.trim_eq_nil_iff.mpr h
  simp only [isSet, Text.isWordOf, htrim]
  decide

theorem flag_eq (name : String) (env : Variables) :
    ((env name).map isSet).getD false = (((single name).read env).map isSet).getD false := by
  rw [read_single, Variables.value?]
  cases env name with
  | none => rfl
  | some t =>
    cases hblank : Text.allBlank t with
    | false => rw [Option.filter_some_pos (by simp [hblank])]
    | true =>
      rw [Option.filter_some_neg (by simp [hblank])]
      exact isSet_of_allBlank hblank

/-- Sources of variables that agree on the text that is taken for every
setting are loaded alike. -/
theorem load_congr {env other : Variables} (same : ∀ i ∈ items, i.taken env = i.taken other) :
    load env = load other := by
  have text : ∀ s : Setting, ⟨s, .text⟩ ∈ items → s.read env = s.read other := fun s hs =>
    read_congr (same _ hs) id fun _ h => Bool.noConfusion h
  have count : ∀ (most : Int) (s : Setting), ⟨s, .count most⟩ ∈ items →
      readCount env most s = readCount other most s := fun most s hs =>
    read_congr (same _ hs) (·.bind (count? most)) fun t h => by simpa [Kind.takes] using h
  have delay : ∀ s : Setting, ⟨s, .delay⟩ ∈ items → readDelay env s = readDelay other s :=
    fun s hs => by
      rw [readDelay_eq, readDelay_eq]
      exact read_congr (same _ hs) (fun o => o.elim (.ok none) delay?) fun t h => by
        have hnone : isNoDelay t = true := by simpa [Kind.takes] using h
        exact delay?_of_isNoDelay hnone
  have timeout : ∀ s : Setting, ⟨s, .timeout⟩ ∈ items → readTimeout env s = readTimeout other s :=
    fun s hs => by
      rw [readTimeout, readTimeout, readDelay_eq, readDelay_eq]
      exact read_congr (same _ hs)
        (fun o => (o.elim (.ok none) delay?).map (Option.filter fun d => !d.isZero))
        fun t h => timeout_refused h
  have temperature : (temperatureSetting.read env).bind temperature?
      = (temperatureSetting.read other).bind temperature? :=
    read_congr (same ⟨temperatureSetting, .temperature⟩ (by simp [items])) (·.bind temperature?)
      fun t h => by simpa [Kind.takes] using h
  have address : (adminAddressSetting.read env).bind address?
      = (adminAddressSetting.read other).bind address? :=
    read_congr (same ⟨adminAddressSetting, .address⟩ (by simp [items])) (·.bind address?)
      fun t h => by simpa [Kind.takes] using h
  have flag : ((env "CALL_AUDIT_MIGRATE_ON_STARTUP").map isSet).getD false
      = ((other "CALL_AUDIT_MIGRATE_ON_STARTUP").map isSet).getD false := by
    rw [flag_eq, flag_eq]
    exact read_congr (same ⟨single "CALL_AUDIT_MIGRATE_ON_STARTUP", .flag⟩ (by simp [items]))
      (fun o => (o.map isSet).getD false) fun t h => h
  have value : ∀ name : String, ⟨single name, .text⟩ ∈ items →
      env.value? name = other.value? name :=
    fun name hname => by
      rw [← read_single, ← read_single]
      exact text _ hname
  simp (disch := simp [items, required]) only [load, loadEndpoints, loadModel, loadAudit,
    loadRounds, need, readInterval, text, count, delay, timeout, temperature, address, flag,
    value]

/-! ## One setting less -/

/-- Two items have no name in common. -/
def Item.Apart (i j : Item) : Prop :=
  i.setting.Apart j.setting

instance (i j : Item) : Decidable (i.Apart j) :=
  inferInstanceAs (Decidable (i.setting.Apart j.setting))

instance : Std.Symm Item.Apart where
  symm _ _ h := ⟨⟨h.1.1.symm, h.2.1.symm⟩, h.1.2.symm, h.2.2.symm⟩

theorem apart_items : items.Pairwise Item.Apart := by
  decide +kernel

/-- Without its variables a setting takes no text, and no other setting
notices. -/
theorem taken_without {i j : Item} (hi : i ∈ items) (hj : j ∈ items) (env : Variables) :
    j.taken (env.without i.setting) = if j = i then none else j.taken env := by
  split
  · rename_i h
    rw [h, Item.taken, Setting.read_without]
    rfl
  · rename_i h
    have hapart : j.setting.Apart i.setting := apart_items.forall hj hi h
    rw [Item.taken, Setting.read_without_of_apart hapart, Item.taken]

/-- A setting with a text that it refuses might as well have none. -/
theorem load_without {i : Item} (hi : i ∈ items) {env : Variables} (h : i.taken env = none) :
    load (env.without i.setting) = load env := by
  refine load_congr fun j hj => ?_
  rw [taken_without hi hj]
  split
  · rename_i hji
    rw [hji, h]
  · rfl

end Settings

end CallAudit
