/-
CallAudit.Proofs.Settings.PoolSize — settings that no pool can be made from.

Both sizes of the pool are read as positive numbers of 64 bits. The number
of workers is cut to the most that a pool has when the settings are loaded.
The number of places in the queue is taken as it is, while a pool refuses a
queue that is too deep. So among the settings that are loaded without any
complaint there are some that no pool can be made from.

* `readCount_bounds`, `sizes_of_load` — the sizes that settings can have.
* `create?_eq_none_iff` — the queue alone decides whether there is a pool.
* `startable_iff` — which settings a pool can be made from, and the pool.
* `too_deep_to_start` — the shortest queue that is too deep.
-/
import CallAudit.Proofs.Settings.Outcome
import CallAudit.Proofs.Workers.Journal

namespace CallAudit

namespace Workers.Pool

variable {τ : Type}

/-- There is no pool with too long a queue, whatever its workers. -/
theorem create?_eq_none_iff {workers depth : Nat} :
    (create? workers depth : Option (Pool τ)) = none ↔ maxDepth < depth := by
  have hone : ¬ maxDepth < 1 := by decide
  unfold create?
  split
  · rename_i h
    simp only [true_iff]
    omega
  · rename_i h
    simp only [reduceCtorEq, false_iff]
    omega

end Workers.Pool

namespace Settings

open CallAudit.Workers (Pool maxDepth maxWorkers)

variable {env : Variables} {s : Setting}

/-- A number that is read is positive and within its bound. -/
theorem readCount_bounds {most n : Int} (h : readCount env most s = some n) :
    0 < n ∧ n ≤ most := by
  obtain ⟨text, -, hcount⟩ := Option.bind_eq_some_iff.mp h
  obtain ⟨hint, hpos⟩ := Option.filter_eq_some_iff.mp hcount
  obtain ⟨-, hrange⟩ := Option.filter_eq_some_iff.mp hint
  simp only [Bool.and_eq_true, decide_eq_true_eq] at hpos hrange
  exact ⟨hpos, hrange.2⟩

/-- The number of places that is given is more than any queue has. -/
def TooDeep (env : Variables) : Prop :=
  ∃ n, readCount env maxNat64 depthSetting = some n ∧ (maxDepth : Int) < n

/-- The sizes of the pool that loaded settings have. -/
structure Sizes (env : Variables) (c : Settings) : Prop where
  workers_pos : 1 ≤ c.workers
  workers_le : c.workers ≤ maxWorkers
  depth_pos : 1 ≤ c.depth
  tooDeep : maxDepth < c.depth ↔ TooDeep env

theorem sizes_of_load {c : Settings} (h : load env = .ok c) : Sizes env c := by
  have loaded := loaded_of_load h
  refine ⟨?_, ?_, ?_, ?_⟩
  · rw [loaded.workers]
    cases hread : readCount env maxNat64 workersSetting with
    | none => decide
    | some n =>
      have hpos := (readCount_bounds hread).1
      simp only [Option.map_some, Option.getD_some, maxWorkers]
      omega
  · rw [loaded.workers]
    exact Nat.min_le_right _ _
  · rw [loaded.depth]
    cases hread : readCount env maxNat64 depthSetting with
    | none => decide
    | some n =>
      have hpos := (readCount_bounds hread).1
      simp only [Option.map_some, Option.getD_some]
      omega
  · rw [loaded.depth]
    cases hread : readCount env maxNat64 depthSetting with
    | none => simp [TooDeep, hread, maxDepth]
    | some n =>
      have hpos := (readCount_bounds hread).1
      simp only [TooDeep, hread, Option.map_some, Option.getD_some, Option.some.injEq,
        exists_eq_left']
      omega

/-- Settings are loaded if all that is required is there and no delay is too
long. -/
theorem loads_iff : (∃ c, load env = .ok c) ↔ Complete env ∧ ¬ Overlong env := by
  rw [← failure?_eq_none, failure?_load, complete_iff, overlong_iff]
  cases (env.value? "DATABASE_URL") <;> cases missing? env <;> simp

/-- **Settings to start from.** Settings are loaded and no pool can be made
from them exactly if all that is required is there, no delay is too long and
the number of places that is given for the queue is more than any queue has.
From all other settings a pool is made, with the very sizes that they
have. -/
theorem startable_iff (τ : Type) (env : Variables) :
    ((∃ c, load env = .ok c ∧ (Pool.create? c.workers c.depth : Option (Pool τ)) = none) ↔
        Complete env ∧ ¬ Overlong env ∧ TooDeep env)
      ∧ ∀ c, load env = .ok c →
          (1 ≤ c.workers ∧ c.workers ≤ maxWorkers ∧ 1 ≤ c.depth)
          ∧ ∀ p : Pool τ, Pool.create? c.workers c.depth = some p ↔
              ¬ TooDeep env ∧ p = { workers := c.workers, depth := c.depth } := by
  constructor
  · constructor
    · rintro ⟨c, hc, hnone⟩
      obtain ⟨hcomplete, hfits⟩ := loads_iff.mp ⟨c, hc⟩
      exact ⟨hcomplete, hfits, (sizes_of_load hc).tooDeep.mp (Pool.create?_eq_none_iff.mp hnone)⟩
    · rintro ⟨hcomplete, hfits, hdeep⟩
      obtain ⟨c, hc⟩ := loads_iff.mpr ⟨hcomplete, hfits⟩
      exact ⟨c, hc, Pool.create?_eq_none_iff.mpr ((sizes_of_load hc).tooDeep.mpr hdeep)⟩
  · intro c hc
    obtain ⟨hpos, hle, hdepth, hdeep⟩ := sizes_of_load hc
    refine ⟨⟨hpos, hle, hdepth⟩, fun p => ?_⟩
    rw [← hdeep, Nat.not_lt]
    constructor
    · intro hp
      have hfits : ¬ maxDepth < c.depth := fun h => by
        rw [Pool.create?_eq_none_iff.mpr h] at hp
        cases hp
      rw [Pool.create?_eq_some hp, max_eq_right (by omega), min_eq_left hle, max_eq_right hdepth]
      exact ⟨Nat.not_lt.mp hfits, rfl⟩
    · rintro ⟨hfits, rfl⟩
      rw [Pool.create?, if_neg (by omega), max_eq_right (by omega), min_eq_left hle,
        max_eq_right hdepth]

/-- However many workers are asked for, there is a pool with as deep a queue
as can be. -/
theorem startable_iff_deepest :
    let env := variablesOf (("CALL_AUDIT_POOL_WORKERS", "18446744073709551615")
      :: ("CALL_AUDIT_POOL_QUEUE_DEPTH", "2305843009213693951") :: requiredOnly)
    ∃ c, load env = .ok c
      ∧ Pool.create? c.workers c.depth
          = some ({ workers := 10000, depth := 2305843009213693951 } : Pool String) := by
  intro env
  obtain ⟨c, hc⟩ := failure?_eq_none.mp (show failure? (load env) = none by decide +kernel)
  have hworkers : readCount env maxNat64 workersSetting = some 18446744073709551615 := by
    decide +kernel
  have hdepth : readCount env maxNat64 depthSetting = some 2305843009213693951 := by
    decide +kernel
  have hfits : ¬ TooDeep env := by
    rintro ⟨n, hn, hdeep⟩
    rw [hdepth] at hn
    obtain rfl := Option.some.inj hn
    exact absurd hdeep (by decide)
  have loaded := loaded_of_load hc
  refine ⟨c, hc, (((startable_iff String env).2 c hc).2 _).mpr ⟨hfits, ?_⟩⟩
  rw [loaded.workers, loaded.depth, hworkers, hdepth]
  rfl

/-- With one place more than any queue has, settings are loaded like any
others, and there is no pool. -/
theorem too_deep_to_start :
    let env := variablesOf (("CALL_AUDIT_POOL_QUEUE_DEPTH", "2305843009213693952") :: requiredOnly)
    ∃ c, load env = .ok c ∧ c.workers = 100 ∧ c.depth = 2305843009213693952
      ∧ (Pool.create? c.workers c.depth : Option (Pool String)) = none := by
  intro env
  obtain ⟨c, hc⟩ := failure?_eq_none.mp (show failure? (load env) = none by decide +kernel)
  have hworkers : readCount env maxNat64 workersSetting = none := by decide +kernel
  have hdepth : readCount env maxNat64 depthSetting = some 2305843009213693952 := by
    decide +kernel
  have loaded := loaded_of_load hc
  have hplaces : c.depth = 2305843009213693952 := by
    rw [loaded.depth, hdepth]
    rfl
  refine ⟨c, hc, ?_, hplaces, ?_⟩
  · rw [loaded.workers, hworkers]
    rfl
  · rw [Pool.create?_eq_none_iff, hplaces]
    decide

end Settings

end CallAudit
