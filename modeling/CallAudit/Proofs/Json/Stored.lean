/-
CallAudit.Proofs.Json.Stored — what is read of a stored value.

The text of a stored value is always JSON (`shows_text`), so the only things
a reader can stumble over are its own limits: the depth of the value and the
size of its numbers (`read_isOk_iff`).

* `Decimal.numeral`, `Stored.node` — a number and a value as their texts show
  them.
* `read_eq` — to read a stored value is to keep its node.
* `Stored.depth`, `Stored.InRange` — how deep a value nests, and whether all
  of its numbers are in range.
* `get?_of_read` — a member of the value that was read is what was read of
  the member of that name.
* `eq_of_value_wholeNumeral` — a whole number that is read as one is read as
  itself.
-/
import CallAudit.Json.Stored
import CallAudit.Proofs.Json.Printing
import CallAudit.Proofs.Json.Reading
import CallAudit.Proofs.Results

namespace CallAudit.Json

open CallAudit.Number (digitValue isDigit)

/-! ## Numbers -/

namespace Decimal

/-- The digits of a number. -/
def numeral (d : Decimal) : Numeral :=
  ⟨d.mantissa < 0, d.whole.map digitValue, d.part.map (List.map digitValue), none⟩

theorem digits_part {d : Decimal} {ds : List Char} (h : d.part = some ds) : Digits ds := by
  unfold part at h
  split at h
  · cases h
  · obtain rfl := Option.some.inj h
    have hdigits := digits_toDigits (d.mantissa.natAbs % Number.tenTo d.scale)
    refine ⟨by simp, fun c hc => ?_⟩
    rcases List.mem_append.mp hc with hzero | hdigit
    · rw [List.eq_of_mem_replicate hzero]
      rfl
    · exact hdigits.digits c hdigit

theorem spelled_text (d : Decimal) : d.numeral.Spelled d.text := by
  have hwhole : Digits d.whole := digits_toDigits _
  have hzero : d.whole.head? = some '0' → d.whole = ['0'] := fun h => by
    rw [whole, head?_toDigits h]
    rfl
  have hsign : Sign (d.mantissa < 0) (if d.mantissa < 0 then ['-'] else []) := by
    split
    · rename_i h
      rw [decide_eq_true h]
      exact .minus
    · rename_i h
      rw [decide_eq_false h]
      exact .plus
  have hpart : Part (d.part.map (List.map digitValue))
      (d.part.elim [] fun digits => '.' :: digits) := by
    cases ho : d.part with
    | none => exact .none
    | some ds => exact .point (digits_part ho)
  have := Numeral.Spelled.mk hsign hwhole hzero hpart .none
  rwa [List.append_nil] at this

/-- A whole number in digits. -/
theorem numeral_whole (n : Int) : (Decimal.mk n 0).numeral = wholeNumeral n := by
  simp [numeral, whole, part, wholeNumeral, Number.tenTo]

end Decimal

/-- Digits of which none is left out make the number they are the digits
of. -/
theorem eq_of_gatherWhole {ds : List Nat} {n m : Nat} (h : gatherWhole n ds = (m, 0)) :
    m = ds.foldl (fun n d => 10 * n + d) n := by
  induction ds generalizing n with
  | nil => exact (congrArg Prod.fst h).symm
  | cons d ds ih =>
    rw [gatherWhole] at h
    split at h
    · exact ih h
    · simp at h

theorem realOf_ne_whole (neg : Bool) (n : Nat) (e k : Int) : realOf neg n e ≠ some (.whole k) := by
  intro h
  obtain ⟨x, -, hx⟩ := Option.bind_eq_some_iff.mp h
  obtain ⟨y, -, hy⟩ := Option.map_eq_some_iff.mp hx
  cases hy

/-- A whole number that is read as one is read as itself. -/
theorem eq_of_value_wholeNumeral {n k : Int} (h : (wholeNumeral n).value = some (.whole k)) :
    k = n := by
  cases hgather : gatherWhole 0 ((Nat.toDigits 10 n.natAbs).map digitValue) with
  | mk m dropped =>
    simp only [Numeral.value, wholeNumeral, hgather] at h
    split at h
    · exact absurd h (realOf_ne_whole _ _ _ _)
    · rename_i hall
      obtain rfl : dropped = 0 := by omega
      have hm : m = n.natAbs := by
        rw [eq_of_gatherWhole hgather, List.foldl_map]
        exact Nat.ofDigitChars_ten_toDigits
      split at h
      · rename_i hpos
        obtain rfl := Number.whole.inj (Option.some.inj h)
        simp only [Bool.not_eq_true', decide_eq_false_iff_not] at hpos
        omega
      · rename_i hneg
        simp only [Bool.not_eq_true', decide_eq_false_iff_not, not_not] at hneg
        split at h
        · obtain rfl := Number.whole.inj (Option.some.inj h)
          omega
        · exact absurd h (realOf_ne_whole _ _ _ _)

/-! ## Members that are kept -/

/-- Of a name the value that was put last is kept. -/
theorem Value.get?_put (name key : String) (v : Value) (ms : List (String × Value)) :
    (Value.object (put ms key v)).get? name
      = if key = name then some v else (Value.object ms).get? name := by
  induction ms with
  | nil => by_cases hname : key = name <;> simp [put, get?, hname]
  | cons m ms ih =>
    obtain ⟨k, u⟩ := m
    simp only [get?] at ih
    unfold put
    by_cases hkey : k = key
    · by_cases hname : key = name <;> simp [get?, hkey, hname]
    · by_cases hname : k = name
      · subst hname
        simp [get?, hkey, Ne.symm hkey]
      · simp [get?, hkey, hname, ih]

namespace Stored

/-! ## Text -/

mutual

/-- A stored value as its text shows it. -/
def node : Stored → Node
  | .null => .null
  | .bool b => .bool b
  | .number d => .number d.numeral.value
  | .string s => .string (.whole (.ok s))
  | .array items => .array (itemNodes items)
  | .object members => .object (memberNodes members)

def itemNodes : List Stored → Items
  | [] => .closed
  | v :: rest => .cons v.node (itemNodes rest)

def memberNodes : List (String × Stored) → Members
  | [] => .closed
  | (name, v) :: rest => .cons (.whole (.ok name)) v.node (memberNodes rest)

end

theorem quoted_letters (s : String) : Quoted (.whole (.ok s)) (s.toList.flatMap escape) := by
  have := Quoted.text (letters_flatMap s.toList)
  rwa [String.ofList_toList] at this

/-- White space of one character. -/
theorem space_one (t : List Char) : Space (' ' :: t) t :=
  .char rfl (.none t)

mutual

/-- The text of a value shows its node, whatever follows. -/
theorem shows_text : ∀ (v : Stored) (u : List Char), Shows (.node v.node) (v.text ++ u) u
  | .null, u => .null u
  | .bool true, u => .true u
  | .bool false, u => .false u
  | .number d, u => .number u d.spelled_text
  | .string s, u => by
    have := Shows.string u (quoted_letters s)
    simpa [text, node, quoted] using this
  | .array [], u => .emptyArray (.none _)
  | .array (v :: rest), u => by
    rw [text, List.cons_append, List.append_assoc]
    exact .array (.none _) (shows_items rest (shows_text v _))
  | .object [], u => .emptyObject (.none _)
  | .object ((name, v) :: rest), u => by
    have hmembers := shows_members name rest (shows_text v (membersText rest ++ u))
    simpa [text, node, memberNodes] using Shows.object (.none _) hmembers

theorem shows_items : ∀ (rest : List Stored) {n : Node} {t u : List Char},
    Shows (.node n) t (itemsText rest ++ u) → Shows (.items (.cons n (itemNodes rest))) t u
  | [], _, _, _, hv => .lastItem hv (.none _)
  | w :: rest, _, _, _, hv => by
    simp only [itemsText, List.cons_append, List.append_assoc] at hv
    exact .item hv (.none _) (space_one _) (shows_items rest (shows_text w _))

theorem shows_members : ∀ (name : String) (rest : List (String × Stored)) {n : Node}
    {t u : List Char}, Shows (.node n) t (membersText rest ++ u) →
      Shows (.members (.cons (.whole (.ok name)) n (memberNodes rest)))
        (quoted name ++ ':' :: ' ' :: t) u
  | name, [], _, t, _, hv => by
    have := Shows.lastMember (quoted_letters name) (.none (':' :: ' ' :: t)) (space_one t) hv
      (.none _)
    simpa [quoted, memberNodes] using this
  | name, (next, w) :: rest, _, t, u, hv => by
    simp only [membersText, List.cons_append, List.append_assoc] at hv
    have hrest := shows_members next rest (shows_text w (membersText rest ++ u))
    have := Shows.member (quoted_letters name) (.none (':' :: ' ' :: t)) (space_one t) hv (.none _)
      (space_one _) hrest
    simpa [quoted, memberNodes] using this

end

/-! ## Reading -/

/-- To read a stored value is to keep its node. -/
theorem read_eq (v : Stored) : v.read = v.node.value (some 127) := by
  have hshown : Shown v.text v.node := by
    refine ⟨v.text, [], .none _, ?_, .none []⟩
    simpa using v.shows_text []
  exact decodeText_shown hshown _

/-- A whole number of 64 bits is read as itself. -/
theorem value_int {n : Int} (h : (Number.whole n).IsWhole) (limit : Option Nat) :
    (Stored.int n).node.value limit = .ok (.int n) := by
  rw [int, node, Decimal.numeral_whole, value_wholeNumeral h]
  rfl

/-- A text that may be absent is read as it is. -/
theorem value_ofOption_string (o : Option String) (limit : Option Nat) :
    (Stored.ofOption .string o).node.value limit = .ok (.ofOption .string o) := by
  cases o <;> rfl

/-- Only a string is read as a string. -/
theorem eq_string_of_value {v : Stored} {limit : Option Nat} {s : String}
    (h : v.node.value limit = .ok (.string s)) : v = .string s := by
  cases v with
  | string t =>
    obtain rfl := Value.string.inj (Except.ok.inj h)
    rfl
  | null | bool _ => cases h
  | number d =>
    cases hnumber : d.numeral.value <;> simp [node, Node.value, hnumber] at h
  | array items =>
    obtain ⟨_, -, h⟩ := ok_of_bind h
    obtain ⟨_, -, h⟩ := ok_of_bind h
    cases h
  | object members =>
    obtain ⟨_, -, h⟩ := ok_of_bind h
    obtain ⟨_, -, h⟩ := ok_of_bind h
    cases h

mutual

/-- How deep a value nests. -/
def depth : Stored → Nat
  | .array items => itemsDepth items + 1
  | .object members => membersDepth members + 1
  | _ => 0

def itemsDepth : List Stored → Nat
  | [] => 0
  | v :: rest => max v.depth (itemsDepth rest)

def membersDepth : List (String × Stored) → Nat
  | [] => 0
  | (_, v) :: rest => max v.depth (membersDepth rest)

end

mutual

/-- The digits of every number in a value stand for a number that is in
range. -/
def InRange : Stored → Prop
  | .number d => d.numeral.value.isSome
  | .array items => ItemsInRange items
  | .object members => MembersInRange members
  | _ => True

def ItemsInRange : List Stored → Prop
  | [] => True
  | v :: rest => v.InRange ∧ ItemsInRange rest

def MembersInRange : List (String × Stored) → Prop
  | [] => True
  | (_, v) :: rest => v.InRange ∧ MembersInRange rest

end

mutual

/-- A value can be kept within a depth if it nests no deeper and all of its
numbers are in range. -/
theorem exists_value_iff : ∀ (v : Stored) (n : Nat),
    (∃ a, v.node.value (some n) = .ok a) ↔ v.depth ≤ n ∧ v.InRange
  | .null, _ => by simp [node, Node.value, depth, InRange]
  | .bool _, _ => by simp [node, Node.value, depth, InRange]
  | .string _, _ => by simp [node, Node.value, depth, InRange, Quotation.text, Except.map]
  | .number d, _ => by
    cases hvalue : d.numeral.value <;> simp [node, Node.value, depth, InRange, hvalue]
  | .array items, 0 => by simp [node, Node.value, deeper, depth, bind, Except.bind]
  | .array items, n + 1 => by
    rw [depth, InRange, Nat.succ_le_succ_iff, ← exists_items_iff items n]
    cases h : (itemNodes items).values (some n) <;>
      simp [node, Node.value, deeper, h, bind, Except.bind, pure, Except.pure]
  | .object members, 0 => by simp [node, Node.value, deeper, depth, bind, Except.bind]
  | .object members, n + 1 => by
    rw [depth, InRange, Nat.succ_le_succ_iff, ← exists_members_iff members n []]
    cases h : (memberNodes members).values (some n) [] <;>
      simp [node, Node.value, deeper, h, bind, Except.bind, pure, Except.pure]

theorem exists_items_iff : ∀ (vs : List Stored) (n : Nat),
    (∃ as, (itemNodes vs).values (some n) = .ok as) ↔ itemsDepth vs ≤ n ∧ ItemsInRange vs
  | [], _ => by simp [itemNodes, Items.values, itemsDepth, ItemsInRange]
  | v :: rest, n => by
    rw [itemsDepth, ItemsInRange, Nat.max_le, and_and_and_comm, ← exists_value_iff v n,
      ← exists_items_iff rest n]
    simp only [itemNodes, Items.values, bind, Except.bind]
    cases v.node.value (some n) <;> cases (itemNodes rest).values (some n) <;>
      simp [pure, Except.pure]

theorem exists_members_iff : ∀ (ms : List (String × Stored)) (n : Nat)
    (before : List (String × Value)),
    (∃ as, (memberNodes ms).values (some n) before = .ok as)
      ↔ membersDepth ms ≤ n ∧ MembersInRange ms
  | [], _, _ => by simp [memberNodes, Members.values, membersDepth, MembersInRange]
  | (name, v) :: rest, n, before => by
    rw [membersDepth, MembersInRange, Nat.max_le, and_and_and_comm, ← exists_value_iff v n]
    simp only [memberNodes, Members.values, Quotation.text, bind, Except.bind]
    cases v.node.value (some n) with
    | error f => simp
    | ok a =>
      rw [← exists_members_iff rest n (Value.put before name a)]
      simp

end

/-- **Readable values.** A stored value can be read if it nests no deeper
than 127 levels and all of its numbers are in range. -/
theorem read_isOk_iff (v : Stored) : (∃ a, v.read = .ok a) ↔ v.depth ≤ 127 ∧ v.InRange := by
  rw [read_eq]
  exact exists_value_iff v 127

/-! ## Members -/

/-- Only an object has members, and only under the names it gives. -/
theorem get?_eq_none {name : String} {v : Stored} :
    v.get? name = none ↔ ∀ members, v = .object members → name ∉ members.map Prod.fst := by
  cases v with
  | object members =>
    simp only [get?, Option.map_eq_none_iff, List.find?_eq_none, List.mem_reverse,
      Stored.object.injEq, forall_eq', List.mem_map, not_exists, not_and, beq_iff_eq]
  | null | bool _ | number _ | string _ | array _ => simp [get?]

theorem isSome_get? {name : String} {ms : List (String × Stored)} :
    ((Stored.object ms).get? name).isSome = true ↔ name ∈ ms.map Prod.fst := by
  rw [Option.isSome_iff_ne_none, ne_eq, get?_eq_none]
  simp

theorem mem_names_insertMember (m : String × Stored) (name : String) :
    ∀ ms : List (String × Stored),
      name ∈ (insertMember m ms).map Prod.fst ↔ m.1 = name ∨ name ∈ ms.map Prod.fst
  | [] => by simp [insertMember, eq_comm]
  | k :: rest => by
    rw [insertMember]
    split
    · rename_i hsame
      simp [← hsame, eq_comm]
    · split
      · simp [eq_comm]
      · rw [List.map_cons, List.mem_cons, mem_names_insertMember m name rest, or_left_comm]
        simp

theorem get?_cons (name key : String) (v : Stored) (rest : List (String × Stored)) :
    (Stored.object ((key, v) :: rest)).get? name
      = ((Stored.object rest).get? name).or (if key = name then some v else none) := by
  simp only [get?, List.reverse_cons, List.find?_append, Option.map_or, List.find?_singleton,
    beq_iff_eq]
  split <;> rfl

/-- Of the members that are kept on top of others, the one of a name is the
last that was given, and what was there before if none was. -/
theorem get?_of_values : ∀ (ms : List (String × Stored)) {limit : Option Nat}
    {before after : List (String × Value)}, (memberNodes ms).values limit before = .ok after →
      ∀ name, ((Stored.object ms).get? name = none →
          (Value.object after).get? name = (Value.object before).get? name)
        ∧ ∀ v, (Stored.object ms).get? name = some v →
          ∃ w, v.node.value limit = .ok w ∧ (Value.object after).get? name = some w
  | [], _, _, _, h, name => by
    obtain rfl := Except.ok.inj h
    exact ⟨fun _ => rfl, nofun⟩
  | (key, u) :: rest, limit, before, after, h, name => by
    rw [memberNodes, Members.values] at h
    obtain ⟨_, hkey, h⟩ := ok_of_bind h
    obtain rfl := Except.ok.inj hkey
    obtain ⟨w, hw, h⟩ := ok_of_bind h
    obtain ⟨hmissing, hfound⟩ := get?_of_values rest h name
    rw [get?_cons]
    cases hrest : (Stored.object rest).get? name with
    | some v =>
      refine ⟨nofun, fun v' hv => ?_⟩
      obtain rfl := Option.some.inj hv
      exact hfound v hrest
    | none =>
      rw [hmissing hrest, Value.get?_put]
      by_cases hname : key = name
      · rw [if_pos hname, if_pos hname]
        refine ⟨nofun, fun v hv => ?_⟩
        obtain rfl := Option.some.inj hv
        exact ⟨w, hw, rfl⟩
      · rw [if_neg hname, if_neg hname]
        exact ⟨fun _ => rfl, nofun⟩

/-- An object is read as an object, in which the member of a name is what is
read of the stored one. -/
theorem get?_of_read {ms : List (String × Stored)} {a : Value}
    (h : (Stored.object ms).read = .ok a) :
    ∃ members, a = .object members ∧ ∀ name,
      ((Stored.object ms).get? name = none → a.get? name = none)
        ∧ ∀ v, (Stored.object ms).get? name = some v →
          ∃ w, v.node.value (some 126) = .ok w ∧ a.get? name = some w := by
  rw [read_eq, node, Node.value] at h
  obtain ⟨_, hdeeper, h⟩ := ok_of_bind h
  obtain rfl := Except.ok.inj hdeeper
  obtain ⟨members, hmembers, h⟩ := ok_of_bind h
  obtain rfl := Except.ok.inj h
  exact ⟨members, rfl, fun name => get?_of_values ms hmembers name⟩

end Stored

end CallAudit.Json
