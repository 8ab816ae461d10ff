/-
CallAudit.Settings.Load — settings out of named variables.

* `Variables` — a source of variables.
* `Setting` — a setting by its name and the older name it also goes by.
* `Setting.read` — its value: the variable of its name unless that is
  blank, else the one of the older name unless that is blank.
* `count?`, `delay?`, `temperature?` — values of settings that are numbers.
  A text that is no such number leaves the setting at its default.
* `load` — all settings, read in a fixed order. The first one that is
  required and missing is the error, and so is a delay too long to be one.
-/
import CallAudit.Settings.Basic
import CallAudit.Number.Decimal
import CallAudit.Text.Fold
import CallAudit.Text.Lines
import CallAudit.Workers.Pool

namespace CallAudit

open CallAudit.Number (Binary Format halfEven)
open CallAudit.Time (Span)

/-! ## Variables -/

/-- A source of variables. -/
abbrev Variables := String → Option String

/-- The value of a variable, unless it is blank. -/
def Variables.value? (env : Variables) (name : String) : Option String :=
  (env name).filter fun s => !Text.allBlank s

/-- A setting: its name, and the older name it also goes by. -/
structure Setting where
  name : String
  legacy : String
deriving DecidableEq, Repr

/-- The value of a setting. -/
def Setting.read (s : Setting) (env : Variables) : Option String :=
  (env.value? s.name).or (env.value? s.legacy)

namespace Settings

/-- What keeps settings from being loaded. -/
inductive Failure where
  | noDatabase
  | missing (s : Setting)
  | delayTooLong
deriving DecidableEq, Repr

/-- A failure in words. -/
def Failure.message : Failure → String
  | noDatabase => "DATABASE_URL is missing"
  | missing s => s.name ++ " (or " ++ s.legacy ++ ") is missing"
  | delayTooLong =>
    "cannot convert float seconds to Duration: value is either too big or NaN"

/-! ## Values -/

/-- A positive whole number up to a bound. -/
def count? (most : Int) (s : String) : Option Int :=
  (Number.int? 0 most (Text.trim s.toList)).filter (0 < ·)

/-- The largest signed number of 64 bits. -/
def maxInt64 : Int := 9223372036854775807

/-- The largest unsigned number of 64 bits. -/
def maxNat64 : Int := 18446744073709551615

/-- The largest unsigned number of 32 bits. -/
def maxNat32 : Int := 4294967295

/-- A finite number that is not below zero. A negative number that rounds
to zero is zero. -/
def amount? (f : Format) (s : String) : Option Binary :=
  ((Number.real? (Text.trim s.toList)).bind f.ofReal).filter fun x => !x.neg || x.isZero

/-- A delay in seconds, to the nearest nanosecond, of two equally near ones
the even one. Two to the power of sixty-four seconds are too long. -/
def delay? (s : String) : Except Failure (Option Span) :=
  match amount? .double s with
  | none => .ok none
  | some x =>
    let (n, d) := x.ratio
    if 18446744073709551616 ≤ n / d then .error .delayTooLong
    else .ok (some ⟨halfEven (n * 1000000000) d⟩)

/-- A temperature: a number of 32 bits from zero to two. -/
def temperature? (s : String) : Option Binary :=
  (amount? .single s).filter fun x =>
    let (n, d) := x.ratio
    n ≤ 2 * d

/-- The items of a list between commas; blank ones are left out. -/
def listOf (s : String) : List String :=
  (Text.pieces ',' s.toList).filterMap fun piece => Text.nonBlank (String.ofList piece)

/-- An address to serve on, unless it is a word for none. -/
def address? (s : String) : Option String :=
  if Text.isWordOf ["0", "off", "false", "none"] s then none else Text.nonBlank s

/-- Whether a flag is set. -/
def isSet (s : String) : Bool :=
  Text.isWordOf ["1", "true", "yes", "on"] s

/-! ## Settings by type -/

/-- A setting that has to be there, trimmed. -/
def need (env : Variables) (s : Setting) : Except Failure String :=
  match s.read env with
  | some text => .ok (Text.trimmed text)
  | none => .error (.missing s)

/-- A delay, if the setting has one. -/
def readDelay (env : Variables) (s : Setting) : Except Failure (Option Span) :=
  match s.read env with
  | some text => delay? text
  | none => .ok none

/-- A delay that is some time, if the setting has one. -/
def readTimeout (env : Variables) (s : Setting) : Except Failure (Option Span) :=
  (readDelay env s).map fun d => d.filter fun d => !d.isZero

/-- A positive number, if the setting has one. -/
def readCount (env : Variables) (most : Int) (s : Setting) : Option Int :=
  (s.read env).bind (count? most)

/-- An interval in milliseconds, if the setting has one. -/
def readInterval (env : Variables) (s : Setting) : Option Span :=
  (readCount env maxNat64 s).map fun n => .millis n.toNat

/-! ## Names -/

/-- The name of the worker. -/
def workerNameSetting : Setting := ⟨"CALL_AUDIT_WORKER_ID", "WORKER_ID"⟩

/-- The address the gauge is served on. -/
def adminAddressSetting : Setting := ⟨"CALL_AUDIT_ADMIN_ADDR", "ADMIN_ADDR"⟩

/-- What is logged. -/
def logFilterSetting : Setting := ⟨"CALL_AUDIT_LOG", "LOG_LEVEL"⟩

/-- Where calls are sent to be transcribed. -/
def transcriptSetting : Setting := ⟨"CALL_AUDIT_POST_TRANSCRIPT_URL", "POST_TRANSCRIPT_URL"⟩

/-- Where the history is searched. -/
def historySetting : Setting := ⟨"CALL_AUDIT_POST_HISTORY_URL", "POST_HISTORY_URL"⟩

/-- Where the phrases of a transcript are, by its identifier. -/
def phrasesSetting : Setting := ⟨"CALL_AUDIT_GET_URL_TEMPLATE", "GET_URL_TEMPLATE"⟩

/-- Where the variables of a call are set, by its identifier. -/
def patchSetting : Setting :=
  ⟨"CALL_AUDIT_PATCH_HISTORY_URL_TEMPLATE", "PATCH_HISTORY_URL_TEMPLATE"⟩

/-- Where a form is, by its number. -/
def formSetting : Setting :=
  ⟨"CALL_AUDIT_SCORECARD_FORM_URL_TEMPLATE", "SCORECARD_FORM_URL_TEMPLATE"⟩

/-- Where ratings are handed in. -/
def rateSetting : Setting := ⟨"CALL_AUDIT_SCORECARD_RATE_URL", "SCORECARD_RATE_URL"⟩

/-- The token of the services of the history. -/
def accessTokenSetting : Setting := ⟨"CALL_AUDIT_ACCESS_TOKEN", "ACCESS_TOKEN"⟩

/-- How many seconds an answer of these services is waited for. -/
def timeoutSetting : Setting := ⟨"CALL_AUDIT_HTTP_TIMEOUT_SECS", "HTTP_TIMEOUT_SECS"⟩

/-- Where the language model is. -/
def baseUrlSetting : Setting := ⟨"CALL_AUDIT_OPENAI_BASE_URL", "OPENAI_BASE_URL"⟩

/-- The key of the language model for jobs that have none. -/
def keySetting : Setting := ⟨"CALL_AUDIT_OPENAI_API_KEY", "OPENAI_API_KEY"⟩

/-- The name of the language model. -/
def modelSetting : Setting := ⟨"CALL_AUDIT_OPENAI_MODEL", "OPENAI_MODEL"⟩

/-- The temperature at which the language model is asked. -/
def temperatureSetting : Setting := ⟨"CALL_AUDIT_OPENAI_TEMPERATURE", "OPENAI_TEMPERATURE"⟩

/-- How many seconds a reply of the language model is waited for. -/
def modelTimeoutSetting : Setting := ⟨"CALL_AUDIT_LLM_TIMEOUT_SECS", "LLM_TIMEOUT_SECS"⟩

/-- The categories a call may be put in. -/
def categoriesSetting : Setting := ⟨"CALL_AUDIT_OPENAI_CATEGORIES", "OPENAI_CATEGORIES"⟩

/-- How many seconds pass before the first search for a transcript. -/
def delayBeforePollSetting : Setting := ⟨"CALL_AUDIT_DELAY_BEFORE_POST", "DELAY_BEFORE_POST"⟩

/-- How many seconds pass between two searches. -/
def delayBetweenPollsSetting : Setting :=
  ⟨"CALL_AUDIT_DELAY_BETWEEN_RETRIES", "DELAY_BETWEEN_RETRIES"⟩

/-- How often a transcript is searched for. -/
def pollsSetting : Setting := ⟨"CALL_AUDIT_MAX_RETRIES", "MAX_RETRIES"⟩

/-- How many milliseconds pass between rounds of enqueueing. -/
def enqueueEverySetting : Setting := ⟨"CALL_AUDIT_ENQUEUE_INTERVAL_MS", "ENQUEUE_INTERVAL_MS"⟩

/-- How many milliseconds pass between rounds of claiming. -/
def claimEverySetting : Setting := ⟨"CALL_AUDIT_CLAIM_INTERVAL_MS", "CLAIM_INTERVAL_MS"⟩

/-- How many milliseconds pass between rounds of reaping. -/
def reapEverySetting : Setting := ⟨"CALL_AUDIT_REAP_INTERVAL_MS", "REAP_INTERVAL_MS"⟩

/-- How many jobs are claimed in a round. -/
def batchSetting : Setting := ⟨"CALL_AUDIT_CLAIM_BATCH", "CLAIM_BATCH"⟩

/-- How many jobs a rule may have. -/
def ceilingSetting : Setting := ⟨"CALL_AUDIT_RULE_CEILING", "RULE_CEILING"⟩

/-- How many seconds the workers have to finish. -/
def graceSetting : Setting := ⟨"CALL_AUDIT_SHUTDOWN_GRACE_SECS", "SHUTDOWN_GRACE_SECS"⟩

/-- The number of workers. -/
def workersSetting : Setting := ⟨"CALL_AUDIT_POOL_WORKERS", "POOL_WORKERS"⟩

/-- The number of places in the queue. -/
def depthSetting : Setting := ⟨"CALL_AUDIT_POOL_QUEUE_DEPTH", "POOL_QUEUE_DEPTH"⟩

/-! ## Loading -/

/-- The endpoints, of which each has to be there. -/
def loadEndpoints (env : Variables) : Except Failure Endpoints := do
  let transcript ← need env transcriptSetting
  let history ← need env historySetting
  let phrases ← need env phrasesSetting
  let patch ← need env patchSetting
  let form ← need env formSetting
  let rate ← need env rateSetting
  return { transcript, history, phrases, patch, form, rate }

/-- How the language model is reached and asked. -/
def loadModel (env : Variables) : Except Failure ModelSettings := do
  let timeout ← readTimeout env modelTimeoutSetting
  let start : ModelSettings := {}
  return {
    baseUrl := (baseUrlSetting.read env).getD start.baseUrl
    key := keySetting.read env
    model := (modelSetting.read env).getD start.model
    temperature := (temperatureSetting.read env).bind temperature?
    timeout := timeout.getD start.timeout }

/-- How a call is audited. -/
def loadAudit (env : Variables) : Except Failure AuditSettings := do
  let before ← readDelay env delayBeforePollSetting
  let between ← readDelay env delayBetweenPollsSetting
  let start : AuditSettings := {}
  return {
    categories := ((categoriesSetting.read env).map listOf).getD start.categories
    delayBeforePoll := before.getD start.delayBeforePoll
    delayBetweenPolls := between.getD start.delayBetweenPolls
    polls := ((readCount env maxNat32 pollsSetting).map Int.toNat).getD start.polls }

/-- How often and how much is enqueued, claimed and reaped. -/
def loadRounds (env : Variables) : Except Failure RoundSettings := do
  let grace ← readDelay env graceSetting
  let start : RoundSettings := {}
  return {
    enqueueEvery := (readInterval env enqueueEverySetting).getD start.enqueueEvery
    claimEvery := (readInterval env claimEverySetting).getD start.claimEvery
    reapEvery := (readInterval env reapEverySetting).getD start.reapEvery
    batch := (readCount env maxInt64 batchSetting).getD start.batch
    ceiling := (readCount env maxInt64 ceilingSetting).getD start.ceiling
    grace := grace.getD start.grace }

/-- All settings. -/
def load (env : Variables) : Except Failure Settings := do
  let database ←
    match env.value? "DATABASE_URL" with
    | some url => .ok url
    | none => .error .noDatabase
  let endpoints ← loadEndpoints env
  let timeout ← readTimeout env timeoutSetting
  let model ← loadModel env
  let audit ← loadAudit env
  let rounds ← loadRounds env
  return {
    database, endpoints, model, audit, rounds
    workerName := (workerNameSetting.read env).or (env.value? "HOSTNAME")
    adminAddress := (adminAddressSetting.read env).bind address?
    migrates := ((env "CALL_AUDIT_MIGRATE_ON_STARTUP").map isSet).getD false
    logFilter := (logFilterSetting.read env).getD "info"
    accessToken := accessTokenSetting.read env
    timeout := timeout.getD (.seconds 30)
    workers :=
      min (((readCount env maxNat64 workersSetting).map Int.toNat).getD 100) Workers.maxWorkers
    depth := ((readCount env maxNat64 depthSetting).map Int.toNat).getD 10 }

end Settings

end CallAudit
