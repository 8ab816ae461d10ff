/-
CallAudit.Proofs.Json.Numbers — what holds of the numbers in whatever is
read.

Every number in a node that was read from a text is the value of a numeral,
and what is decoded from such a node has its numbers from it. So what holds of
the values of all numerals holds of every number that a text is decoded to,
whether or not the text is JSON and wherever the number stands in it.

* `Number.IsDouble` — a binary number that is no finer than sixty-four bits
  are; `isDouble_value` — the value of a numeral is such a number.
* `Node.All` — something holds of all numbers in a node; `all_readText` — it
  holds in a node that was read.
* `Makes`, `Field.Guards` — what a decoder makes of nodes with such numbers
  and what a field keeps of a record, for each way of putting decoders
  together; `of_ofText` — what a text is decoded to.
-/
import CallAudit.Json.Decode
import CallAudit.Proofs.Number.Nearest
import CallAudit.Proofs.Results

namespace CallAudit.Json

open CallAudit.Number (Binary Format least_le_of_ofRatio)

/-! ## Numerals -/

/-- A number of sixty-four bits is no finer than the format. -/
def Number.IsDouble : Number → Prop
  | .whole _ => True
  | .real x => Format.double.least ≤ x.exp

theorem least_le_of_scaleTen {fuel : Nat} {x y : Binary} {e : Int}
    (hx : Format.double.least ≤ x.exp) (h : scaleTen fuel x e = some y) :
    Format.double.least ≤ y.exp := by
  induction fuel generalizing x e with
  | zero =>
    obtain rfl := Option.some.inj h
    exact Int.le_refl _
  | succ fuel ih =>
    rw [scaleTen] at h
    split at h
    · split at h
      · exact least_le_of_ofRatio h
      · exact least_le_of_ofRatio h
    split at h
    · obtain rfl := Option.some.inj h
      exact hx
    split at h
    · cases h
    · obtain ⟨z, hz, hrest⟩ := Option.bind_eq_some_iff.mp h
      exact ih (least_le_of_ofRatio hz) hrest

theorem isDouble_realOf {neg : Bool} {n : Nat} {e : Int} {v : Number}
    (h : realOf neg n e = some v) : v.IsDouble := by
  obtain ⟨x, hx, hscale⟩ := Option.bind_eq_some_iff.mp h
  obtain ⟨y, hy, rfl⟩ := Option.map_eq_some_iff.mp hscale
  have hleast : Format.double.least ≤ y.exp :=
    least_le_of_scaleTen (least_le_of_ofRatio hx) hy
  exact hleast

/-- The value of a numeral. -/
theorem isDouble_value {x : Numeral} {v : Number} (h : x.value = some v) : v.IsDouble := by
  simp only [Numeral.value] at h
  split at h
  · split at h
    · exact isDouble_realOf h
    split at h
    · obtain rfl := Option.some.inj h
      trivial
    split at h
    · obtain rfl := Option.some.inj h
      trivial
    · exact isDouble_realOf h
  · exact isDouble_realOf h

/-! ## Nodes -/

mutual

/-- Something holds of all numbers in a node. -/
def Node.All (P : Number → Prop) : Node → Prop
  | .number (some n) => P n
  | .array items => items.All P
  | .object members => members.All P
  | _ => True

def Items.All (P : Number → Prop) : Items → Prop
  | .cons head tail => head.All P ∧ tail.All P
  | _ => True

def Members.All (P : Number → Prop) : Members → Prop
  | .cons _ value tail => value.All P ∧ tail.All P
  | _ => True

end

section Reading

variable {P : Number → Prop}

/-- What begins like a number and is none has no number in it. -/
theorem all_of_needDigits {cs : List Text.Utf8.Glyph} {node : Node}
    (h : needDigits cs = .error node) : node.All P := by
  unfold needDigits at h
  split at h
  · obtain rfl := Except.error.inj h
    trivial
  · obtain rfl := Except.error.inj h
    trivial
  · cases h

/-- Of steps that may fail with such a node each fails so, if any does. -/
theorem all_of_bind {α β : Type} {x : Except Node α} {f : α → Except Node β} {node : Node}
    (h : (x >>= f) = .error node) (hx : ∀ n, x = .error n → n.All P)
    (hf : ∀ a n, f a = .error n → n.All P) : node.All P := by
  cases x with
  | error n =>
    obtain rfl := Except.error.inj h
    exact hx n rfl
  | ok a => exact hf a node h

theorem all_of_readWhole {cs : List Text.Utf8.Glyph} {node : Node}
    (h : readWhole cs = .error node) : node.All P := by
  refine all_of_bind h (fun n hn => all_of_needDigits hn) fun found n hn => ?_
  simp only at hn
  split at hn
  · obtain rfl := Except.error.inj hn
    trivial
  · cases hn

/-- Digits that have to be there are all that can be missing. -/
theorem all_of_digits {α : Type} {cs : List Text.Utf8.Glyph} {node : Node}
    {f : List Nat × List Text.Utf8.Glyph → α}
    (h : (needDigits cs >>= fun found => Except.ok (f found)) = .error node) : node.All P :=
  all_of_bind h (fun _ hn => all_of_needDigits hn) fun _ _ hn => nomatch hn

theorem all_of_readPart {cs : List Text.Utf8.Glyph} {node : Node}
    (h : readPart cs = .error node) : node.All P := by
  unfold readPart at h
  split at h
  · exact all_of_digits h
  · cases h

theorem all_of_readExponent {cs : List Text.Utf8.Glyph} {node : Node}
    (h : readExponent cs = .error node) : node.All P := by
  simp only [readExponent] at h
  split at h
  · split at h
    · split at h <;> exact all_of_digits h
    · cases h
  · cases h

theorem all_of_readUnsigned {neg : Bool} {cs : List Text.Utf8.Glyph} {node : Node}
    (h : readUnsigned neg cs = .error node) : node.All P := by
  refine all_of_bind h (fun n hn => all_of_readWhole hn) fun whole n hn => ?_
  refine all_of_bind hn (fun n hn => all_of_readPart hn) fun part n hn => ?_
  exact all_of_bind hn (fun n hn => all_of_readExponent hn) fun _ _ hn => nomatch hn

theorem all_readNumeral (hP : ∀ (x : Numeral) (n : Number), x.value = some n → P n)
    (cs : List Text.Utf8.Glyph) : (readNumeral cs).1.All P := by
  unfold readNumeral
  simp only
  split
  · rename_i x rest _
    cases hvalue : x.value with
    | none => trivial
    | some n => exact hP x n hvalue
  · rename_i node hread
    split at hread <;> exact all_of_readUnsigned hread

theorem all_readWord (node : Node) (hnode : node.All P) (word : List Char)
    (cs : List Text.Utf8.Glyph) : (readWord node word cs).1.All P := by
  induction word generalizing cs with
  | nil => exact hnode
  | cons c word ih =>
    cases cs with
    | nil => trivial
    | cons g rest =>
      rw [readWord]
      split
      · exact ih rest
      · trivial

/-- Everything that is read has only numbers that numerals stand for. All
five readers spend their fuel on each other, so the induction is on the fuel
of all of them at once. -/
theorem all_read (hP : ∀ (x : Numeral) (n : Number), x.value = some n → P n) (fuel : Nat) :
    (∀ cs, (readNode fuel cs).1.All P) ∧ (∀ first cs, (readItems fuel first cs).1.All P)
      ∧ (∀ cs, (readItem fuel cs).1.All P) ∧ (∀ first cs, (readMembers fuel first cs).1.All P)
      ∧ ∀ cs, (readMember fuel cs).1.All P := by
  induction fuel with
  | zero => exact ⟨fun _ => trivial, fun _ _ => trivial, fun _ => trivial, fun _ _ => trivial,
      fun _ => trivial⟩
  | succ fuel ih =>
    obtain ⟨hnode, hitems, hitem, hmembers, hmember⟩ := ih
    refine ⟨fun cs => ?_, fun first cs => ?_, fun cs => ?_, fun first cs => ?_, fun cs => ?_⟩
    · rw [readNode]
      split
      · trivial
      · exact all_readWord .null trivial _ _
      · exact all_readWord (.bool true) trivial _ _
      · exact all_readWord (.bool false) trivial _ _
      · trivial
      · exact hitems true _
      · exact hmembers true _
      · split
        · exact all_readNumeral hP _
        · trivial
    · rw [readItems]
      split
      · trivial
      · trivial
      · split
        · exact hitem _
        split
        · split
          · exact ⟨trivial, trivial⟩
          · exact hitem _
        · trivial
    · rw [readItem]
      have hfirst := hnode cs
      split
      · rename_i node hread
        rw [hread] at hfirst
        exact ⟨hfirst, trivial⟩
      · rename_i node rest hread
        rw [hread] at hfirst
        exact ⟨hfirst, hitems false rest⟩
    · rw [readMembers]
      split
      · trivial
      · trivial
      · split
        · exact hmember _
        split
        · split
          · exact ⟨trivial, trivial⟩
          · exact hmember _
        · trivial
    · rw [readMember]
      split
      · exact ⟨trivial, trivial⟩
      · split
        · exact ⟨trivial, trivial⟩
        split
        · exact ⟨trivial, trivial⟩
        · rename_i rest _
          have hvalue := hnode rest
          split
          · rename_i node hread
            rw [hread] at hvalue
            exact ⟨hvalue, trivial⟩
          · rename_i node after hread
            rw [hread] at hvalue
            exact ⟨hvalue, hmembers false after⟩
        · exact ⟨trivial, trivial⟩
      · exact ⟨trivial, trivial⟩

/-- So it is in the node of a whole text. -/
theorem all_readText (hP : ∀ (x : Numeral) (n : Number), x.value = some n → P n)
    (cs : List Text.Utf8.Glyph) : (readText cs).1.All P :=
  (all_read hP _).1 cs

end Reading

/-! ## Decoders -/

namespace Decoder

variable {P : Number → Prop} {α σ : Type}

/-- What a decoder makes of nodes with such numbers only. -/
def Makes (P : Number → Prop) (d : Decoder α) (Q : α → Prop) : Prop :=
  ∀ (r : Reading) (n : Node) (a : α), n.All P → d r n = .ok a → Q a

/-- What a field keeps of a record when it is set from such a node. -/
def Field.Guards (P : Number → Prop) (f : Field σ) (Q : σ → Prop) : Prop :=
  ∀ (r : Reading) (n : Node) (s t : σ), n.All P → Q s → f.set r n s = .ok t → Q t

/-- Nothing but a number is kept as one. -/
theorem eq_number_of_value {depth : Option Nat} {node : Node} {n : Number}
    (h : node.value depth = .ok (.number n)) : node = .number (some n) := by
  cases node with
  | number m =>
    cases m with
    | none => cases h
    | some m => rw [Value.number.inj (Except.ok.inj h)]
  | string q =>
    rw [Node.value] at h
    cases htext : q.text with
    | error f =>
      rw [htext] at h
      cases h
    | ok text =>
      rw [htext] at h
      cases h
  | array items =>
    rw [Node.value] at h
    obtain ⟨_, -, h⟩ := ok_of_bind h
    obtain ⟨_, -, h⟩ := ok_of_bind h
    cases h
  | object members =>
    rw [Node.value] at h
    obtain ⟨_, -, h⟩ := ok_of_bind h
    obtain ⟨_, -, h⟩ := ok_of_bind h
    cases h
  | _ => cases h

theorem makes_anything : Makes P anything fun v => ∀ n, v = .number n → P n := by
  rintro r node _ hnode hv n rfl
  obtain rfl := eq_number_of_value hv
  exact hnode

theorem makes_true (d : Decoder α) : Makes P d fun _ => True :=
  fun _ _ _ _ _ => trivial

theorem items_makes {d : Decoder α} {Q : α → Prop} (hd : Makes P d Q) (r : Reading) :
    ∀ (ns : Items) (as : List α), ns.All P → items d r ns = .ok as → ∀ a ∈ as, Q a
  | .closed, _, _, h => by
    obtain rfl := Except.ok.inj h
    exact fun a ha => absurd ha List.not_mem_nil
  | .cons head tail, _, hns, h => by
    rw [items] at h
    obtain ⟨a, ha, h⟩ := ok_of_bind h
    obtain ⟨as, has, h⟩ := ok_of_bind h
    obtain rfl := Except.ok.inj h
    exact List.forall_mem_cons.mpr ⟨hd r head a hns.1 ha, items_makes hd r tail as hns.2 has⟩

theorem makes_list {d : Decoder α} {Q : α → Prop} (hd : Makes P d Q) :
    Makes P (list d) fun as => ∀ a ∈ as, Q a := by
  intro r node as hnode h
  cases node with
  | array ns =>
    obtain ⟨r', -, hitems⟩ := ok_of_bind h
    exact items_makes hd r' ns as hnode hitems
  | _ => cases h

theorem guards_field {name : String} {d : Decoder α} {put : α → σ → σ} {R : α → Prop}
    {Q : σ → Prop} (hd : Makes P d R) (hput : ∀ a s, R a → Q s → Q (put a s)) :
    (field name d put).Guards P Q := by
  intro r n s t hn hs h
  simp only [field] at h
  cases ha : d r n with
  | error f =>
    rw [ha] at h
    cases h
  | ok a =>
    rw [ha] at h
    obtain rfl := Except.ok.inj h
    exact hput a s (hd r n a hn ha) hs

section Records

variable {fields : List (Field σ)} {Q : σ → Prop} (hfields : ∀ f ∈ fields, f.Guards P Q)
  (r : Reading)
include hfields

theorem takeMembers_guards : ∀ (ms : Members) (seen : List String) (s : σ)
    (taken : List String × σ), ms.All P → Q s → takeMembers fields r seen s ms = .ok taken →
      Q taken.2
  | .closed, _, _, _, _, hs, h => by
    obtain rfl := Except.ok.inj h
    exact hs
  | .cons key value tail, seen, s, taken, hms, hs, h => by
    rw [takeMembers] at h
    obtain ⟨name, -, h⟩ := ok_of_bind h
    cases hfield : fields.find? fun f => f.name == name with
    | none =>
      simp only [hfield] at h
      split at h
      · cases h
      · exact takeMembers_guards tail seen s taken hms.2 hs h
    | some f =>
      simp only [hfield] at h
      split at h
      · cases h
      · obtain ⟨t, hset, h⟩ := ok_of_bind h
        have ht := hfields f (List.mem_of_find?_eq_some hfield) r value s t hms.1 hs hset
        exact takeMembers_guards tail (name :: seen) t taken hms.2 ht h

end Records

theorem takeItems_guards {Q : σ → Prop} (r : Reading) : ∀ (fields : List (Field σ)),
    (∀ f ∈ fields, f.Guards P Q) → ∀ (ns : Items) (s t : σ), ns.All P → Q s →
      takeItems r fields s ns = .ok t → Q t
  | [], _, .closed, s, t, _, hs, h => by
    obtain rfl := Except.ok.inj h
    exact hs
  | [], _, .cut _, _, _, _, _, h => nomatch h
  | [], _, .cons _ _, _, _, _, _, h => nomatch h
  | f :: fields, hfields, .closed, s, t, hns, hs, h => by
    rw [takeItems] at h
    split at h
    · cases h
    · exact takeItems_guards r fields (List.forall_mem_cons.mp hfields).2 .closed s t hns hs h
  | f :: fields, _, .cut _, _, _, _, _, h => nomatch h
  | f :: fields, hfields, .cons head tail, s, t, hns, hs, h => by
    rw [takeItems] at h
    obtain ⟨hf, hrest⟩ := List.forall_mem_cons.mp hfields
    obtain ⟨u, hset, h⟩ := ok_of_bind h
    exact takeItems_guards r fields hrest tail u t hns.2 (hf r head s u hns.1 hs hset) h

/-- A record has what each of its fields keeps. -/
theorem makes_record {fields : List (Field σ)} {start : σ} {Q : σ → Prop}
    (hfields : ∀ f ∈ fields, f.Guards P Q) (hstart : Q start) :
    Makes P (record fields start) Q := by
  intro r node t hnode h
  cases node with
  | array ns =>
    obtain ⟨r', -, hitems⟩ := ok_of_bind h
    exact takeItems_guards r' fields hfields ns start t hnode hstart hitems
  | object ms =>
    obtain ⟨r', -, h⟩ := ok_of_bind h
    obtain ⟨taken, htaken, h⟩ := ok_of_bind h
    simp only at h
    split at h
    · obtain rfl := Except.ok.inj h
      exact takeMembers_guards hfields r' ms [] start taken hnode hstart htaken
    · cases h
  | _ => cases h

/-- **Numbers.** What a decoder makes of nodes whose numbers are those of
numerals, it makes of every text that it decodes. -/
theorem of_ofText {d : Decoder α} {Q : α → Prop} (hd : Makes P d Q)
    (hP : ∀ (x : Numeral) (n : Number), x.value = some n → P n) {s : String} {a : α}
    (h : ofText d s = .ok a) : Q a := by
  obtain ⟨b, hb, h⟩ := ok_of_bind h
  have hab : b = a := by
    simp only at h
    split at h
    · exact Except.ok.inj h
    · cases h
    · cases h
  exact hab ▸ hd .text _ b (all_readText hP _) hb

end Decoder

end CallAudit.Json
