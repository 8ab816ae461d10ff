/-
CallAudit.Proofs.Json.Record — what a record is decoded to from an object of
its fields.

* `Fills` — members that fill in a record, one after the other: each has the
  name of a field, and its value is one that the field takes. The order of
  the members is that of the object, not of the fields, and fields may be
  left out.
* `record_node` — an object whose members fill in a record, none of them
  twice, is decoded to this record.
* `fills_of_record` — the way back: an object that is decoded has filled in
  a record, so the decoder of its field has taken each of its members
  (`Fills.taken`).
* `int_node`, `optional_node` — the simple decoders on values written for
  them.
* `record_known` — members whose names are unknown are passed over, whatever
  JSON stands there.
-/
import CallAudit.Json.Decode
import CallAudit.Proofs.Json.Nodes

namespace CallAudit.Json.Decoder

/-! ## Simple values -/

theorem int_node {lo hi n : Int} (h : lo ≤ n ∧ n ≤ hi) (r : Reading) :
    int lo hi r (Value.int n).node = .ok n := by
  simp only [int, Value.int, Value.node, if_pos h]

theorem string_node (s : String) (r : Reading) : string r (Value.string s).node = .ok s := rfl

theorem bool_node (b : Bool) (r : Reading) : bool r (Value.bool b).node = .ok b := rfl

/-- A value that is not null is there. -/
theorem optional_some {α : Type} {d : Decoder α} {r : Reading} {v : Value} {a : α}
    (hv : v.node ≠ .null) (h : d r v.node = .ok a) : optional d r v.node = .ok (some a) := by
  unfold optional
  split
  · rename_i hnull
    exact absurd hnull hv
  · rw [h]
    rfl

/-- A value that may be missing is null where it is. -/
theorem optional_node {α : Type} {d : Decoder α} {f : α → Value} {r : Reading} {o : Option α}
    (hf : ∀ a, (f a).node ≠ .null) (h : ∀ a ∈ o, d r (f a).node = .ok a) :
    optional d r (Value.ofOption f o).node = .ok o := by
  cases o with
  | none => rfl
  | some a => exact optional_some (hf a) (h a rfl)

/-- What is there is not taken for null. -/
theorem of_optional_some {α : Type} {d : Decoder α} {r : Reading} {v : Value} {o : Option α}
    (hv : v.node ≠ .null) (h : optional d r v.node = .ok o) : ∃ a, d r v.node = .ok a := by
  unfold optional at h
  split at h
  · rename_i hnull
    exact absurd hnull hv
  · cases hd : d r v.node with
    | error f =>
      rw [hd] at h
      cases h
    | ok a => exact ⟨a, rfl⟩

/-- A number that is decoded is within the bounds. -/
theorem bounds_of_optional_int {lo hi n : Int} {o : Option Int} {r : Reading}
    (h : optional (int lo hi) r (Value.int n).node = .ok o) : lo ≤ n ∧ n ≤ hi := by
  obtain ⟨a, ha⟩ := of_optional_some Node.noConfusion h
  simp only [int, Value.int, Value.node] at ha
  split at ha
  · assumption
  · cases ha

/-! ## Records -/

variable {σ : Type}

/-- Members that fill in a record. -/
inductive Fills (fields : List (Field σ)) (r : Reading) :
    List (String × Value) → σ → σ → Prop where
  | done (s : σ) : Fills fields r [] s s
  | member {name : String} {v : Value} {rest : List (String × Value)} {f : Field σ} {s t u : σ} :
      fields.find? (fun f => f.name == name) = some f → f.set r v.node s = .ok t →
      Fills fields r rest t u → Fills fields r ((name, v) :: rest) s u

/-- A member that a decoder takes is put into its place. -/
theorem Fills.put {α : Type} {fields : List (Field σ)} {r : Reading} {name : String}
    {d : Decoder α} {put : α → σ → σ} {v : Value} {a : α} {rest : List (String × Value)} {s u : σ}
    (hfield : fields.find? (fun f => f.name == name) = some (field name d put))
    (hvalue : d r v.node = .ok a) (hrest : Fills fields r rest (put a s) u) :
    Fills fields r ((name, v) :: rest) s u := by
  refine .member hfield ?_ hrest
  simp only [field, hvalue]
  rfl

/-- A name that is not given again has not been seen by those after it. -/
theorem fresh_cons {name : String} {ms : List (String × Value)} {seen : List String}
    (hname : name ∉ ms.map Prod.fst) (hfresh : ∀ m ∈ ms, m.1 ∉ seen) :
    ∀ m ∈ ms, m.1 ∉ name :: seen := by
  intro m hm hseen
  rcases List.mem_cons.mp hseen with heq | hseen
  · exact hname (List.mem_map.mpr ⟨m, hm, heq⟩)
  · exact hfresh m hm hseen

/-- Where no field is required none is missing. -/
theorem all_optional {fields : List (Field σ)}
    (hoptional : fields.all (fun f => !f.required) = true) (seen : List String) :
    (fields.all fun f => !f.required || seen.contains f.name) = true :=
  List.all_eq_true.mpr fun f hf => by
    rw [List.all_eq_true.mp hoptional f hf, Bool.true_or]

theorem takeMembers_of_fills {fields : List (Field σ)} {r : Reading}
    {ms : List (String × Value)} {s u : σ} (h : Fills fields r ms s u) :
    ∀ seen : List String, (ms.map Prod.fst).Nodup → (∀ m ∈ ms, m.1 ∉ seen) →
      takeMembers fields r seen s (memberNodes ms)
        = .ok ((ms.map Prod.fst).reverse ++ seen, u) := by
  induction h with
  | done s => exact fun seen _ _ => rfl
  | @member name v rest f s t u hfield hset _ ih =>
    intro seen hnodup hfresh
    obtain ⟨hname, hnodup⟩ := List.nodup_cons.mp hnodup
    have hunseen : seen.contains name = false := by
      have := hfresh _ List.mem_cons_self
      simpa using this
    have hrest := ih (name :: seen) hnodup
      (fresh_cons hname fun m hm => hfresh m (List.mem_cons_of_mem _ hm))
    simp only [memberNodes, takeMembers, Quotation.text, bind, Except.bind, hfield, hunseen,
      Bool.false_eq_true, if_false, hset, hrest, List.map_cons, List.reverse_cons,
      List.append_assoc, List.singleton_append]

/-- An object whose members fill in a record is decoded to it. -/
theorem record_node {fields : List (Field σ)} {r r' : Reading} {ms : List (String × Value)}
    {s u : σ} (henter : r.enter = .ok r') (h : Fills fields r' ms s u)
    (hnodup : (ms.map Prod.fst).Nodup) (hoptional : fields.all (fun f => !f.required) = true) :
    record fields s r (Value.object ms).node = .ok u := by
  have htake := takeMembers_of_fills h [] hnodup fun m _ => List.not_mem_nil
  simp only [record, Value.node, henter, bind, Except.bind, htake, all_optional hoptional, if_true]

/-! ## Unknown members -/

/-- The names that the fields of a record have. -/
def names (fields : List (Field σ)) : List String :=
  fields.map Field.name

theorem find?_isSome_iff {fields : List (Field σ)} {name : String} :
    (fields.find? fun f => f.name == name).isSome = true ↔ name ∈ names fields := by
  simp [names, List.find?_isSome]

theorem takeMembers_known (fields : List (Field σ)) (r : Reading) {ms : List (String × Node)}
    (hskip : ∀ m ∈ ms, m.2.skip = none) (seen : List String) (s : σ) :
    takeMembers fields r seen s (Members.of ms)
      = takeMembers fields r seen s (Members.of (ms.filter fun m => m.1 ∈ names fields)) := by
  induction ms generalizing seen s with
  | nil => rfl
  | cons m ms ih =>
    obtain ⟨name, n⟩ := m
    obtain ⟨hn, hskip⟩ := List.forall_mem_cons.mp hskip
    cases hfield : fields.find? fun f => f.name == name with
    | none =>
      have hunknown : name ∉ names fields := by
        rw [← find?_isSome_iff, hfield]
        exact Bool.false_ne_true
      rw [List.filter_cons_of_neg (by simpa using hunknown), ← ih hskip]
      simp only [Members.of, takeMembers, Quotation.text, bind, Except.bind, hfield, hn]
    | some f =>
      have hknown : name ∈ names fields := by
        rw [← find?_isSome_iff, hfield]
        rfl
      rw [List.filter_cons_of_pos (by simpa using hknown)]
      simp only [Members.of, takeMembers, Quotation.text, bind, Except.bind, hfield]
      split
      · rfl
      · cases f.set r n s with
        | error fault => rfl
        | ok t => exact ih hskip (name :: seen) t

/-- **Unknown members.** A record is decoded from the members that have the
names of its fields. -/
theorem record_known (fields : List (Field σ)) (start : σ) (r : Reading)
    {ms : List (String × Node)} (hskip : ∀ m ∈ ms, m.2.skip = none) :
    record fields start r (.object (Members.of ms))
      = record fields start r
          (.object (Members.of (ms.filter fun m => m.1 ∈ names fields))) := by
  simp only [record, takeMembers_known fields _ hskip]

/-! ## The way back -/

/-- Each member of an object that fills in a record was taken by the decoder
of its field. -/
theorem Fills.taken {α : Type} {fields : List (Field σ)} {r : Reading}
    {ms : List (String × Value)} {s u : σ} (h : Fills fields r ms s u) (name : String) (v : Value)
    (hmem : (name, v) ∈ ms) {d : Decoder α} {put : α → σ → σ}
    (hfield : fields.find? (fun f => f.name == name) = some (field name d put)) :
    ∃ a, d r v.node = .ok a := by
  induction h with
  | done s => cases hmem
  | member hfound hset _ ih =>
    rcases List.mem_cons.mp hmem with heq | hmem
    · obtain ⟨rfl, rfl⟩ := Prod.mk.inj heq
      obtain rfl := Option.some.inj (hfound.symm.trans hfield)
      simp only [field] at hset
      cases hd : d r v.node with
      | error f =>
        rw [hd] at hset
        cases hset
      | ok a => exact ⟨a, rfl⟩
    · exact ih hmem

/-- A member that was taken has an unknown name and was passed over, or its
name was given for the first time and its field has taken it. -/
theorem takeMembers_cons {fields : List (Field σ)} {r : Reading} {name : String} {v : Value}
    {rest : List (String × Value)} {seen : List String} {s : σ} {taken : List String × σ}
    (h : takeMembers fields r seen s (memberNodes ((name, v) :: rest)) = .ok taken) :
    (fields.find? (fun f => f.name == name) = none
        ∧ takeMembers fields r seen s (memberNodes rest) = .ok taken)
      ∨ ∃ f t, fields.find? (fun f => f.name == name) = some f ∧ name ∉ seen
          ∧ f.set r v.node s = .ok t
          ∧ takeMembers fields r (name :: seen) t (memberNodes rest) = .ok taken := by
  simp only [memberNodes, takeMembers, Quotation.text, bind, Except.bind] at h
  cases hfield : fields.find? fun f => f.name == name with
  | none =>
    simp only [hfield] at h
    split at h
    · cases h
    · exact Or.inl ⟨rfl, h⟩
  | some f =>
    simp only [hfield] at h
    split at h
    · cases h
    · rename_i hunseen
      cases hset : f.set r v.node s with
      | error fault =>
        rw [hset] at h
        cases h
      | ok t =>
        rw [hset] at h
        exact Or.inr ⟨f, t, rfl, by simpa using hunseen, hset, h⟩

/-- Members whose names are known and that are all taken have filled in the
record. -/
theorem fills_of_takeMembers {fields : List (Field σ)} {r : Reading}
    {ms : List (String × Value)} {seen : List String} {s : σ} {taken : List String × σ}
    (known : (ms.all fun m => (fields.find? fun f => f.name == m.1).isSome) = true)
    (h : takeMembers fields r seen s (memberNodes ms) = .ok taken) :
    Fills fields r ms s taken.2 := by
  induction ms generalizing seen s with
  | nil =>
    obtain rfl := Except.ok.inj h
    exact .done s
  | cons m rest ih =>
    rw [List.all_cons, Bool.and_eq_true] at known
    obtain ⟨hknown, known⟩ := known
    rcases takeMembers_cons h with ⟨hnone, -⟩ | ⟨f, t, hfield, -, hset, hrest⟩
    · rw [hnone] at hknown
      cases hknown
    · exact .member hfield hset (ih known hrest)

/-- What a record is decoded to from an object is what its members make of
the start. -/
theorem takeMembers_of_record {fields : List (Field σ)} {r r' : Reading}
    {ms : List (String × Value)} {s u : σ} (henter : r.enter = .ok r')
    (h : record fields s r (Value.object ms).node = .ok u) :
    ∃ seen, takeMembers fields r' [] s (memberNodes ms) = .ok (seen, u) := by
  simp only [record, Value.node, henter, bind, Except.bind] at h
  cases htake : takeMembers fields r' [] s (memberNodes ms) with
  | error f =>
    rw [htake] at h
    cases h
  | ok taken =>
    rw [htake] at h
    simp only at h
    split at h
    · obtain rfl := Except.ok.inj h
      exact ⟨taken.1, rfl⟩
    · cases h

/-- An object whose members are known has filled in the record it is decoded
to. -/
theorem fills_of_record {fields : List (Field σ)} {r r' : Reading} {ms : List (String × Value)}
    {s u : σ} (henter : r.enter = .ok r')
    (known : (ms.all fun m => (fields.find? fun f => f.name == m.1).isSome) = true)
    (h : record fields s r (Value.object ms).node = .ok u) : Fills fields r' ms s u := by
  obtain ⟨seen, htake⟩ := takeMembers_of_record henter h
  exact fills_of_takeMembers known htake

/-! ## One field -/

/-- A field that leaves a part of the record as it is. -/
def Field.Keeps {α : Type} (f : Field σ) (part : σ → α) : Prop :=
  ∀ (r : Reading) (n : Node) (s t : σ), f.set r n s = .ok t → part t = part s

theorem keeps_field {α β : Type} {name : String} {d : Decoder β} {put : β → σ → σ} {part : σ → α}
    (h : ∀ b s, part (put b s) = part s) : (field name d put).Keeps part := by
  intro r n s t hset
  simp only [field] at hset
  cases hd : d r n with
  | error f =>
    rw [hd] at hset
    cases hset
  | ok b =>
    rw [hd] at hset
    obtain rfl := Except.ok.inj hset
    exact h b s

/-- A part of a record that one of the fields sets and no other touches. -/
structure Owns {α : Type} (fields : List (Field σ)) (name : String) (d : Decoder α)
    (put : α → σ → σ) (part : σ → α) : Prop where
  found : fields.find? (fun f => f.name == name) = some (field name d put)
  sets : ∀ a s, part (put a s) = a
  others : ∀ f ∈ fields, f.name ≠ name → f.Keeps part

namespace Owns

variable {α : Type} {fields : List (Field σ)} {name : String} {d : Decoder α} {put : α → σ → σ}
  {part : σ → α}

/-- A member of another name does not touch the part. -/
theorem keeps (owns : Owns fields name d put part) {other : String} (hne : other ≠ name)
    {f : Field σ} (hfield : fields.find? (fun f => f.name == other) = some f) : f.Keeps part := by
  have hname : f.name = other := by simpa using List.find?_some hfield
  exact owns.others f (List.mem_of_find?_eq_some hfield) (hname ▸ hne)

/-- Once the name was seen, the part stays as it is. -/
theorem of_seen (owns : Owns fields name d put part) {r : Reading} {ms : List (String × Value)}
    {seen : List String} {s : σ} {taken : List String × σ} (hseen : name ∈ seen)
    (h : takeMembers fields r seen s (memberNodes ms) = .ok taken) : part taken.2 = part s := by
  induction ms generalizing seen s with
  | nil =>
    obtain rfl := Except.ok.inj h
    rfl
  | cons m rest ih =>
    rcases takeMembers_cons h with ⟨-, hrest⟩ | ⟨f, t, hfield, hunseen, hset, hrest⟩
    · exact ih hseen hrest
    · have hne : m.1 ≠ name := fun heq => hunseen (heq ▸ hseen)
      rw [ih (List.mem_cons_of_mem _ hseen) hrest, owns.keeps hne hfield r _ s t hset]

/-- The part is what the member of the name is decoded to, and what it was
if there is no such member. -/
theorem of_takeMembers (owns : Owns fields name d put part) {r : Reading}
    {ms : List (String × Value)} {seen : List String} {s : σ} {taken : List String × σ}
    (h : takeMembers fields r seen s (memberNodes ms) = .ok taken) :
    ((Value.object ms).get? name = none → part taken.2 = part s)
      ∧ ∀ v, (Value.object ms).get? name = some v → d r v.node = .ok (part taken.2) := by
  induction ms generalizing seen s with
  | nil =>
    obtain rfl := Except.ok.inj h
    exact ⟨fun _ => rfl, fun v hv => by cases hv⟩
  | cons m rest ih =>
    obtain ⟨other, v⟩ := m
    by_cases hname : other = name
    · -- the member is the one of the name, so its field takes it
      subst hname
      have hget : (Value.object ((other, v) :: rest)).get? other = some v := by
        simp [Value.get?]
      rcases takeMembers_cons h with ⟨hnone, -⟩ | ⟨f, t, hfield, -, hset, hrest⟩
      · rw [owns.found] at hnone
        cases hnone
      · obtain rfl := Option.some.inj (hfield.symm.trans owns.found)
        have hpart := owns.of_seen List.mem_cons_self hrest
        rw [hget]
        refine ⟨fun hnone => (Option.some_ne_none v hnone).elim, fun u hu => ?_⟩
        obtain rfl := Option.some.inj hu
        simp only [field] at hset
        cases hd : d r v.node with
        | error fault =>
          rw [hd] at hset
          cases hset
        | ok a =>
          rw [hd] at hset
          obtain rfl := Except.ok.inj hset
          rw [hpart, owns.sets]
    · have hget : (Value.object ((other, v) :: rest)).get? name = (Value.object rest).get? name := by
        simp [Value.get?, hname]
      rw [hget]
      rcases takeMembers_cons h with ⟨-, hrest⟩ | ⟨f, t, hfield, -, hset, hrest⟩
      · exact ih hrest
      · rw [← owns.keeps hname hfield r _ s t hset]
        exact ih hrest

/-- **One field.** Whatever else an object holds, a part of the record it is
decoded to depends on the member of one name alone. -/
theorem of_record (owns : Owns fields name d put part) {r r' : Reading}
    (henter : r.enter = .ok r') {ms : List (String × Value)} {s u : σ}
    (h : record fields s r (Value.object ms).node = .ok u) :
    ((Value.object ms).get? name = none → part u = part s)
      ∧ ∀ v, (Value.object ms).get? name = some v → d r' v.node = .ok (part u) := by
  obtain ⟨seen, htake⟩ := takeMembers_of_record henter h
  exact owns.of_takeMembers htake

end Owns

end CallAudit.Json.Decoder
