/-
CallAudit.Proofs.Json.Order — the order of members means nothing to a
record.

The members of an object are put into a record one after the other, and
what comes of it is the same in any order, as long as no name is given
twice: each member is put where its name says, and fields do not get in each
other's way. Which member is found to be wrong first does depend on the
order, so two orders are compared by the record alone and not by the fault.

* `Decoder.Steady` — a decoder to which neither the order of members nor the
  place of a value matters; the simple decoders are such.
* `Orderless` — fields that may be set in any order.
* `record_ordered` — a record is decoded from a value and from the ordered
  one alike, at any place.
-/
import CallAudit.Json.Printer
import CallAudit.Proofs.Json.Grammar
import CallAudit.Proofs.Json.Record
import CallAudit.Proofs.Results
import Mathlib.Data.List.Nodup
import Mathlib.Data.List.Pairwise
import Mathlib.Data.List.Perm.Basic

namespace CallAudit.Json

/-! ## Ordered members -/

theorem insertByName_perm (name : String) (v : Value) (ms : List (String × Value)) :
    (insertByName name v ms).Perm ((name, v) :: ms) := by
  induction ms with
  | nil => exact .refl _
  | cons m ms ih =>
    rw [insertByName]
    split
    · exact .refl _
    · exact (ih.cons m).trans (.swap _ _ _)

theorem orderedMembers_perm (ms : List (String × Value)) :
    (orderedMembers ms).Perm (ms.map fun m => (m.1, m.2.ordered)) := by
  induction ms with
  | nil => exact .refl _
  | cons m ms ih => exact (insertByName_perm _ _ _).trans (ih.cons _)

theorem namesDistinct_ordered {v : Value} : v.ordered.NamesDistinct ↔ v.NamesDistinct := by
  cases v with
  | object ms =>
    have hnames : ((orderedMembers ms).map Prod.fst).Perm (ms.map Prod.fst) := by
      simpa [Function.comp_def] using (orderedMembers_perm ms).map Prod.fst
    exact hnames.nodup_iff
  | _ => exact Iff.rfl

/-! ## Values that are skipped -/

mutual

/-- Whatever the value of an unknown member is, it can be passed over. -/
theorem skip_node : ∀ v : Value, v.node.skip = none
  | .null | .bool _ | .number _ | .string _ => rfl
  | .array items => skip_itemNodes items
  | .object members => skip_memberNodes members

theorem skip_itemNodes : ∀ vs : List Value, (itemNodes vs).skip = none
  | [] => rfl
  | v :: rest => by rw [itemNodes, Items.skip, skip_node v, skip_itemNodes rest]; rfl

theorem skip_memberNodes : ∀ ms : List (String × Value), (memberNodes ms).skip = none
  | [] => rfl
  | (_, v) :: rest => by
    rw [memberNodes, Members.skip, skip_node v, skip_memberNodes rest]
    rfl

end

namespace Decoder

/-! ## Decoders -/

/-- A decoder to which neither the place of a value nor the order of members
matters. -/
def Steady {α : Type} (d : Decoder α) : Prop :=
  ∀ (r : Reading) (v : Value), (d r v.node).toOption = (d .value v.ordered.node).toOption

theorem steady_string : Steady string := by
  rintro r (_ | _ | _ | _ | _ | _) <;> rfl

theorem steady_bool : Steady bool := by
  rintro r (_ | _ | _ | _ | _ | _) <;> rfl

theorem steady_int (lo hi : Int) : Steady (int lo hi) := by
  rintro r (_ | _ | _ | _ | _ | _) <;> rfl

theorem steady_filterMap {α β : Type} {d : Decoder α} (h : Steady d) (f : α → Option β) :
    Steady (filterMap d f) := by
  intro r v
  simp only [filterMap, toOption_bind, h r v]

theorem steady_optional {α : Type} {d : Decoder α} (h : Steady d) : Steady (optional d) := by
  intro r v
  have there : ∀ (r : Reading) (n : Node), n ≠ .null →
      (optional d r n).toOption = (d r n).toOption.map some := by
    intro r n hn
    unfold optional
    split
    · exact absurd rfl hn
    · exact toOption_map _ _
  cases v with
  | null => rfl
  | _ => rw [there _ _ Node.noConfusion, there _ _ Node.noConfusion, h]

/-! ## Fields -/

variable {σ : Type}

/-- A field to whose value neither place nor order matters. -/
def Field.Steady (f : Field σ) : Prop :=
  ∀ (r : Reading) (v : Value) (s : σ),
    (f.set r v.node s).toOption = (f.set .value v.ordered.node s).toOption

/-- Two fields that do not get in each other's way: the record is the same
whichever is set first. -/
def Field.Independent (f g : Field σ) : Prop :=
  ∀ (r : Reading) (m n : Node) (s : σ),
    ((f.set r m s).toOption.bind fun t => (g.set r n t).toOption)
      = (g.set r n s).toOption.bind fun t => (f.set r m t).toOption

theorem steady_field {α : Type} {name : String} {d : Decoder α} {put : α → σ → σ}
    (h : d.Steady) : (field name d put).Steady := by
  intro r v s
  simp only [field, toOption_map, h r v]

theorem independent_field {α β : Type} {name other : String} {d : Decoder α} {e : Decoder β}
    {put : α → σ → σ} {set : β → σ → σ} (h : ∀ a b s, set b (put a s) = put a (set b s)) :
    (field name d put).Independent (field other e set) := by
  intro r m n s
  simp only [field, toOption_map]
  cases (d r m).toOption <;> cases (e r n).toOption <;> simp [h]

instance : Std.Symm (Field.Independent (σ := σ)) where
  symm _ _ h r m n s := (h r n m s).symm

/-- Fields that may be given in any order, and left out. -/
structure Orderless (fields : List (Field σ)) : Prop where
  optional : fields.all (fun f => !f.required) = true
  steady : ∀ f ∈ fields, f.Steady
  independent : fields.Pairwise Field.Independent

/-! ## Objects -/

/-- A member put into a record. One whose name is unknown is passed over. -/
def place (fields : List (Field σ)) (r : Reading) (s? : Option σ) (m : String × Value) : Option σ :=
  s?.bind fun s =>
    match fields.find? fun f => f.name == m.1 with
    | none => some s
    | some f => (f.set r m.2.node s).toOption

theorem foldl_place_none (fields : List (Field σ)) (r : Reading) (ms : List (String × Value)) :
    ms.foldl (place fields r) none = none := by
  induction ms with
  | nil => rfl
  | cons m ms ih => exact ih

/-- Members with different names are put into the record one by one. -/
theorem takeMembers_place (fields : List (Field σ)) (r : Reading) {ms : List (String × Value)}
    {seen : List String} (hnodup : (ms.map Prod.fst).Nodup) (hfresh : ∀ m ∈ ms, m.1 ∉ seen)
    (s : σ) :
    (takeMembers fields r seen s (memberNodes ms)).toOption.map Prod.snd
      = ms.foldl (place fields r) (some s) := by
  induction ms generalizing seen s with
  | nil => rfl
  | cons m ms ih =>
    obtain ⟨name, v⟩ := m
    obtain ⟨hname, hnodup⟩ := List.nodup_cons.mp hnodup
    have hunseen : seen.contains name = false := by
      have := hfresh _ List.mem_cons_self
      simpa using this
    have hrest : ∀ m ∈ ms, m.1 ∉ seen := fun m hm => hfresh m (List.mem_cons_of_mem _ hm)
    rw [List.foldl_cons, place, Option.bind_some]
    simp only [memberNodes, takeMembers, Quotation.text, bind, Except.bind]
    cases hfield : fields.find? fun f => f.name == name with
    | none => simpa only [skip_node] using ih hnodup hrest s
    | some f =>
      simp only [hunseen, Bool.false_eq_true, if_false]
      cases f.set r v.node s with
      | error fault => exact (foldl_place_none fields r ms).symm
      | ok t => exact ih hnodup (fresh_cons hname hrest) t

/-- A record is decoded from an object by putting its members into it. -/
theorem record_object {fields : List (Field σ)}
    (hoptional : fields.all (fun f => !f.required) = true) {r r' : Reading}
    (henter : r.enter = .ok r') {ms : List (String × Value)} (hnodup : (ms.map Prod.fst).Nodup)
    (s : σ) :
    (record fields s r (Value.object ms).node).toOption = ms.foldl (place fields r') (some s) := by
  rw [← takeMembers_place fields r' hnodup (fun m _ => List.not_mem_nil) s]
  simp only [record, Value.node, henter, bind, Except.bind, all_optional hoptional, if_true]
  cases takeMembers fields r' [] s (memberNodes ms) <;> rfl

/-- Of two members with different names either may be put into the record
first. -/
theorem place_comm {fields : List (Field σ)} (h : Orderless fields) (r : Reading)
    {m n : String × Value} (hne : m.1 ≠ n.1) (s? : Option σ) :
    place fields r (place fields r s? m) n = place fields r (place fields r s? n) m := by
  cases s? with
  | none => rfl
  | some s =>
    simp only [place, Option.bind_some]
    cases hf : fields.find? fun f => f.name == m.1 with
    | none => cases hg : fields.find? fun f => f.name == n.1 <;> simp
    | some f =>
      cases hg : fields.find? fun f => f.name == n.1 with
      | none => simp
      | some g =>
        have hname : f.name = m.1 := by simpa using List.find?_some hf
        have hother : g.name = n.1 := by simpa using List.find?_some hg
        have hfg : f ≠ g := fun heq => hne (by rw [← hname, ← hother, heq])
        exact h.independent.forall (List.mem_of_find?_eq_some hf) (List.mem_of_find?_eq_some hg)
          hfg r m.2.node n.2.node s

/-- So members with different names may be put into it in any order. -/
theorem foldl_place_perm {fields : List (Field σ)} (h : Orderless fields) (r : Reading)
    {ms ns : List (String × Value)} (hperm : ms.Perm ns) (hnodup : (ms.map Prod.fst).Nodup)
    (s? : Option σ) : ms.foldl (place fields r) s? = ns.foldl (place fields r) s? := by
  refine hperm.foldl_eq' (fun m hm n hn s? => ?_) s?
  by_cases heq : m.1 = n.1
  · rw [List.inj_on_of_nodup_map hnodup hm hn heq]
  · exact place_comm h r heq s?

/-- A member and the ordered one are put into the record alike. -/
theorem place_ordered {fields : List (Field σ)} (h : Orderless fields) (r : Reading)
    (s? : Option σ) (m : String × Value) :
    place fields r s? m = place fields .value s? (m.1, m.2.ordered) := by
  cases s? with
  | none => rfl
  | some s =>
    simp only [place, Option.bind_some]
    cases hf : fields.find? fun f => f.name == m.1 with
    | none => rfl
    | some f => exact h.steady f (List.mem_of_find?_eq_some hf) r m.2 s

theorem foldl_place_ordered {fields : List (Field σ)} (h : Orderless fields) (r : Reading)
    {ms : List (String × Value)} (hnodup : (ms.map Prod.fst).Nodup) (s? : Option σ) :
    ms.foldl (place fields r) s? = (orderedMembers ms).foldl (place fields .value) s? := by
  have hnames : ((ms.map fun m => (m.1, m.2.ordered)).map Prod.fst).Nodup := by
    simpa [Function.comp_def] using hnodup
  have hplace : place fields r = fun s? m => place fields .value s? (m.1, m.2.ordered) := by
    funext s? m
    exact place_ordered h r s? m
  calc ms.foldl (place fields r) s?
      = ms.foldl (fun s? m => place fields .value s? (m.1, m.2.ordered)) s? := by rw [hplace]
    _ = (ms.map fun m => (m.1, m.2.ordered)).foldl (place fields .value) s? := by
        rw [List.foldl_map]
    _ = (orderedMembers ms).foldl (place fields .value) s? :=
        foldl_place_perm h .value (orderedMembers_perm ms).symm hnames s?

/-! ## Arrays -/

/-- The items of an array are taken one by one for the fields in their
order. -/
theorem takeItems_ordered {fields : List (Field σ)} (h : ∀ f ∈ fields, f.Steady) (r : Reading)
    (vs : List Value) (s : σ) :
    (takeItems r fields s (itemNodes vs)).toOption
      = (takeItems .value fields s (itemNodes (orderedItems vs))).toOption := by
  induction fields generalizing vs s with
  | nil => cases vs <;> rfl
  | cons f fields ih =>
    have hrest : ∀ g ∈ fields, g.Steady := fun g hg => h g (List.mem_cons_of_mem _ hg)
    cases vs with
    | nil =>
      simp only [orderedItems, itemNodes, takeItems]
      split
      · rfl
      · exact ih hrest [] s
    | cons v vs =>
      simp only [orderedItems, itemNodes, takeItems, toOption_bind, h f List.mem_cons_self r v s]
      congr 1
      funext t
      exact ih hrest vs t

/-! ## Records -/

/-- **Order and place.** A record is decoded from a value as it is from the
value with its members ordered, wherever the value stands. -/
theorem record_ordered {fields : List (Field σ)} (h : Orderless fields) {r r' : Reading}
    (henter : r.enter = .ok r') {v : Value} (hv : v.NamesDistinct) (s : σ) :
    (record fields s r v.node).toOption = (record fields s .value v.ordered.node).toOption := by
  have hvalue : Reading.value.enter = .ok .value := rfl
  cases v with
  | object ms =>
    have hordered : (Value.object ms).ordered.NamesDistinct := namesDistinct_ordered.mpr hv
    rw [record_object h.optional henter hv, foldl_place_ordered h r' hv]
    exact (record_object h.optional hvalue hordered s).symm
  | array vs =>
    simp only [record, Value.node, Value.ordered, henter, hvalue, bind, Except.bind]
    exact takeItems_ordered h.steady r' vs s
  | _ => rfl

end Decoder

end CallAudit.Json
