/-
CallAudit.Proofs.Settings.Names — settings by either of their names.

A setting is looked for under its name and then under an older one, and a
blank variable is passed over. So it does not matter under which of its names
a setting is given, what the older variable says once the newer one is given,
and whether a blank variable is there at all. A few variables have one name
only and are looked up in ways of their own; the flag among them is read even
if it is blank, and is not set then.

* `Variables.renamed`, `Variables.erase` — a source of variables with the
  older variable of a setting under the newer name, and without a variable.
* `read_renamed`, `read_erase_legacy`, `read_erase_blank` — neither changes
  the value of any setting, since no two settings share a name.
* `load_congr_read` — the values of the settings are all that is loaded.
* `load_transparent` — so sources that differ in this way are loaded alike.
-/
import CallAudit.Proofs.Settings.Outcome

namespace CallAudit

/-! ## Sources of variables -/

namespace Variables

/-- A source of variables without one of them. -/
def erase (env : Variables) (name : String) : Variables :=
  fun n => if n = name then none else env n

/-- A source of variables in which the older variable of a setting goes by
the newer name. -/
def renamed (env : Variables) (s : Setting) : Variables :=
  fun n => if n = s.name then env s.legacy else if n = s.legacy then none else env n

theorem value?_erase (env : Variables) (name n : String) :
    (env.erase name).value? n = if n = name then none else env.value? n := by
  simp only [value?, erase]
  split <;> rfl

theorem value?_renamed (env : Variables) (s : Setting) (n : String) :
    (env.renamed s).value? n
      = if n = s.name then env.value? s.legacy else if n = s.legacy then none else env.value? n := by
  simp only [value?, renamed]
  split
  · rfl
  · split <;> rfl

end Variables

namespace Setting

variable {s r : Setting} {env : Variables}

/-- A variable that is blank or not there is not missed. -/
theorem read_erase_blank {name : String} (h : env.value? name = none) (r : Setting) :
    r.read (env.erase name) = r.read env := by
  have hvalue : ∀ n, (env.erase name).value? n = env.value? n := fun n => by
    rw [Variables.value?_erase]
    split
    · rename_i hn
      rw [hn, h]
    · rfl
  rw [read, read, hvalue, hvalue]

/-- Once a setting is given under its name, the older variable is not
missed. -/
theorem read_erase_legacy (two : s.legacy ≠ s.name) (h : (env.value? s.name).isSome)
    (hr : r = s ∨ r.Apart s) : r.read (env.erase s.legacy) = r.read env := by
  rcases hr with rfl | ⟨hname, hlegacy⟩
  · obtain ⟨text, htext⟩ := Option.isSome_iff_exists.mp h
    rw [read, read, Variables.value?_erase, if_neg two.symm, htext]
    rfl
  · simp only [read, Variables.value?_erase, hname.2, hlegacy.2, if_false]

/-- What is given under the older name may as well be given under the newer
one, if nothing is there. -/
theorem read_renamed (h : env.value? s.name = none) (hr : r = s ∨ r.Apart s) :
    r.read (env.renamed s) = r.read env := by
  rcases hr with rfl | ⟨hname, hlegacy⟩
  · simp only [read, Variables.value?_renamed, if_true, h, Option.none_or]
    split <;> simp
  · simp only [read, Variables.value?_renamed, hname.1, hname.2, hlegacy.1, hlegacy.2, if_false]

end Setting

namespace Settings

/-! ## All settings -/

/-- Every setting that is read. -/
def settings : List Setting :=
  items.map (·.setting)

/-- Two settings are the same, or have no name in common. -/
theorem eq_or_apart {s r : Setting} (hs : s ∈ settings) (hr : r ∈ settings) :
    r = s ∨ r.Apart s := by
  obtain ⟨i, hi, rfl⟩ := List.mem_map.mp hs
  obtain ⟨j, hj, rfl⟩ := List.mem_map.mp hr
  by_cases hsame : j = i
  · exact .inl (congrArg Item.setting hsame)
  · exact .inr (apart_items.forall hj hi hsame)

/-- Sources of variables that give every setting the same value are loaded
alike. -/
theorem load_congr_read {env other : Variables}
    (same : ∀ s ∈ settings, s.read env = s.read other) : load env = load other :=
  load_congr fun i hi => by
    rw [Item.taken, Item.taken, same i.setting (List.mem_map_of_mem hi)]

/-- **Either name.** The same settings are loaded, or the same failure is
told, if the older variable of a setting is given the newer name where that
is blank or not there; if it is left out where the newer one is there; and if
any variable that is blank is left out. In all, only the values of the
settings count: the newer variable unless it is blank, or else the older one
unless that is. -/
theorem load_transparent (env : Variables) :
    (∀ s ∈ settings, env.value? s.name = none → load (env.renamed s) = load env)
      ∧ (∀ s ∈ settings, s.legacy ≠ s.name → (env.value? s.name).isSome →
          load (env.erase s.legacy) = load env)
      ∧ (∀ name, env.value? name = none → load (env.erase name) = load env)
      ∧ ∀ other : Variables, (∀ s ∈ settings, s.read other = s.read env) →
          load other = load env := by
  refine ⟨fun s hs hnone => ?_, fun s hs two hsome => ?_, fun name hnone => ?_,
    fun other => load_congr_read⟩
  · exact load_congr_read fun r hr => Setting.read_renamed hnone (eq_or_apart hs hr)
  · exact load_congr_read fun r hr => Setting.read_erase_legacy two hsome (eq_or_apart hs hr)
  · exact load_congr_read fun r _ => Setting.read_erase_blank hnone r

/-- The number of searches is given under its older name below a blank newer
one, and the number of workers under both names. -/
theorem load_transparent_mixed :
    let env := variablesOf (("CALL_AUDIT_MAX_RETRIES", " ") :: ("MAX_RETRIES", "7")
      :: ("CALL_AUDIT_POOL_WORKERS", "3") :: ("POOL_WORKERS", "9") :: requiredOnly)
    env.value? pollsSetting.name = none ∧ (env.value? workersSetting.name).isSome
      ∧ load (env.renamed pollsSetting) = load env
      ∧ load (env.erase "POOL_WORKERS") = load env
      ∧ load (env.erase "CALL_AUDIT_MAX_RETRIES") = load env
      ∧ ∃ c, load env = .ok c ∧ c.audit.polls = 7 ∧ c.workers = 3 := by
  intro env
  have hblank : env.value? pollsSetting.name = none := by decide +kernel
  have hgiven : (env.value? workersSetting.name).isSome := by decide +kernel
  obtain ⟨hrenamed, hshadowed, herased, -⟩ := load_transparent env
  obtain ⟨c, hc⟩ := failure?_eq_none.mp (show failure? (load env) = none by decide +kernel)
  have loaded := loaded_of_load hc
  obtain ⟨_, -, haudit⟩ := ok_of_bind loaded.audit
  obtain ⟨_, -, haudit⟩ := ok_of_bind haudit
  have hpolls : readCount env maxNat32 pollsSetting = some 7 := by decide +kernel
  have hworkers : readCount env maxNat64 workersSetting = some 3 := by decide +kernel
  refine ⟨hblank, hgiven, hrenamed _ (by simp [settings, items, required]) hblank,
    hshadowed workersSetting (by simp [settings, items, required]) (by decide) hgiven,
    herased _ hblank, c, hc, ?_, ?_⟩
  · rw [← Except.ok.inj haudit, hpolls]
    rfl
  · rw [loaded.workers, hworkers]
    rfl

end Settings

end CallAudit
