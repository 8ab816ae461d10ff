/-
CallAudit.Proofs.Json.Printing — the text of a value is one of the texts
that denote it.

* `letters_escape` — a string in quotes is spelled so that it is the same
  string.
* `spelled_intText` — a whole number in digits; it is the same number if it
  fits in 64 bits, signed or unsigned.
* `intText_inj` — a whole number is told from its digits.
* `Value.IsWhole` — a value with no numbers but those.
* `written_compact` — the text of such a value is written for it.
-/
import CallAudit.Proofs.Json.Order
import Mathlib.Data.Nat.Digits.Defs

namespace CallAudit.Json

open CallAudit.Number (isDigit digitValue digitsValue)
open CallAudit.Text.Utf16 (isLead isTrail)

/-! ## Strings -/

theorem hexDigit?_hexDigit : ∀ n, n < 16 → hexDigit? (some (hexDigit n)) = some n := by
  decide

/-- Two hexadecimal digits are enough for a control character. -/
theorem hex4?_low {n : Nat} (h : n < 256) :
    hex4? (some '0') (some '0') (some (hexDigit (n / 16))) (some (hexDigit (n % 16))) = some n := by
  have hzero : hexDigit? (some '0') = some 0 := rfl
  have hhigh := hexDigit?_hexDigit (n / 16) (by omega)
  have hlow := hexDigit?_hexDigit (n % 16) (by omega)
  simp only [hex4?, hzero, hhigh, hlow, bind, Option.bind, pure, Option.some.injEq]
  omega

/-- A character is spelled by its escape. -/
theorem letters_escape {c : Char} {cs t : List Char} (h : Letters cs t) :
    Letters (c :: cs) (escape c ++ t) := by
  unfold escape
  -- the seven characters that have a letter
  iterate 7
    split
    case isTrue hc =>
      subst hc
      exact .letter rfl h
  split
  case isTrue hlow =>
    have hlead : isLead c.toNat = false := by
      simp only [isLead, Bool.and_eq_false_iff, decide_eq_false_iff_not]
      omega
    have htrail : isTrail c.toNat = false := by
      simp only [isTrail, Bool.and_eq_false_iff, decide_eq_false_iff_not]
      omega
    have hunit := Letters.unit (hex4?_low (by omega)) hlead htrail h
    rwa [Char.ofNat_toNat] at hunit
  case isFalse hquote hback _ _ _ _ _ hlow => exact .plain (Nat.le_of_not_lt hlow) hquote hback h

theorem letters_flatMap (cs : List Char) : Letters cs (cs.flatMap escape) := by
  induction cs with
  | nil => exact .nil
  | cons c cs ih => exact letters_escape ih

theorem writes_quoted (s : String) (u : List Char) :
    Writes (.value (.string s)) (quoted s ++ u) u := by
  have := Writes.string u (letters_flatMap s.toList)
  simpa [quoted] using this

/-! ## Numbers -/

theorem digits_toDigits (n : Nat) : Digits (Nat.toDigits 10 n) where
  ne_nil := Nat.toDigits_ne_nil
  digits _ hd := Nat.isDigit_of_mem_toDigits (by omega) (by omega) hd

/-- No zero is written before other digits. -/
theorem head?_toDigits {n : Nat} (h : (Nat.toDigits 10 n).head? = some '0') : n = 0 := by
  induction n using Nat.strongRecOn with
  | ind n ih =>
    by_cases hn : n < 10
    · rw [Nat.toDigits_of_lt_base hn] at h
      have hdigit : ∀ m < 10, Nat.digitChar m = '0' → m = 0 := by decide
      exact hdigit n hn (Option.some.inj h)
    · have hne : Nat.toDigits 10 (n / 10) ≠ [] := Nat.toDigits_ne_nil
      obtain ⟨d, ds, hds⟩ := List.exists_cons_of_ne_nil hne
      rw [Nat.toDigits_of_base_le (by omega) (by omega), hds, List.cons_append,
        List.head?_cons] at h
      have := ih (n / 10) (by omega) (hds ▸ h)
      omega

/-- Gathering digits makes a number no smaller. -/
theorem le_foldl_digits (ds : List Nat) (n : Nat) : n ≤ ds.foldl (fun n d => 10 * n + d) n := by
  induction ds generalizing n with
  | nil => exact Nat.le_refl n
  | cons d ds ih => exact Nat.le_trans (by omega) (ih (10 * n + d))

/-- Of a number that fits all digits are gathered. -/
theorem gatherWhole_fits {ds : List Nat} {n : Nat}
    (h : ds.foldl (fun n d => 10 * n + d) n ≤ maxWord) :
    gatherWhole n ds = (ds.foldl (fun n d => 10 * n + d) n, 0) := by
  induction ds generalizing n with
  | nil => rfl
  | cons d ds ih =>
    have hfits : 10 * n + d ≤ maxWord := Nat.le_trans (le_foldl_digits ds _) h
    rw [gatherWhole, if_pos hfits]
    exact ih h

theorem gatherWhole_toDigits {n : Nat} (h : n ≤ maxWord) :
    gatherWhole 0 ((Nat.toDigits 10 n).map digitValue) = (n, 0) := by
  have hvalue : ((Nat.toDigits 10 n).map digitValue).foldl (fun n d => 10 * n + d) 0 = n := by
    rw [List.foldl_map]
    exact Nat.ofDigitChars_ten_toDigits
  rw [gatherWhole_fits (by rwa [hvalue]), hvalue]

/-- The digits of a whole number. -/
def wholeNumeral (n : Int) : Numeral :=
  ⟨n < 0, (Nat.toDigits 10 n.natAbs).map digitValue, none, none⟩

theorem spelled_intText (n : Int) : (wholeNumeral n).Spelled (intText n) := by
  have hds := digits_toDigits n.natAbs
  have hzero : (Nat.toDigits 10 n.natAbs).head? = some '0' → Nat.toDigits 10 n.natAbs = ['0'] := by
    intro h
    rw [head?_toDigits h]
    rfl
  by_cases hn : n < 0
  · have := Numeral.Spelled.mk .minus hds hzero .none .none
    simpa [wholeNumeral, intText, hn] using this
  · have := Numeral.Spelled.mk .plus hds hzero .none .none
    simpa [wholeNumeral, intText, hn] using this

/-- A whole number that fits in 64 bits, with a sign or without one. -/
def Number.IsWhole : Number → Prop
  | .whole n => -9223372036854775808 ≤ n ∧ n ≤ 18446744073709551615
  | .real _ => False

theorem value_wholeNumeral {n : Int} (h : (Number.whole n).IsWhole) :
    (wholeNumeral n).value = some (.whole n) := by
  obtain ⟨hlow, hhigh⟩ := h
  have hgather : gatherWhole 0 ((Nat.toDigits 10 n.natAbs).map digitValue) = (n.natAbs, 0) :=
    gatherWhole_toDigits (by unfold maxWord; omega)
  simp only [Numeral.value, wholeNumeral, hgather, Nat.lt_irrefl, if_false]
  by_cases hn : n < 0
  · have hsmall : 0 < n.natAbs ∧ n.natAbs ≤ 9223372036854775808 := by omega
    have hsame : -(n.natAbs : Int) = n := by omega
    simp only [hn, hsmall, hsame, decide_true, Bool.not_true, Bool.false_eq_true, if_false,
      and_self, if_true]
  · have hsame : (n.natAbs : Int) = n := by omega
    simp only [hn, hsame, decide_false, Bool.not_false, if_true]

/-! ## Whole numbers told apart -/

theorem toDigits_inj {m n : Nat} (h : Nat.toDigits 10 m = Nat.toDigits 10 n) : m = n := by
  have := congrArg (Nat.ofDigitChars 10 · 0) h
  simpa only [Nat.ofDigitChars_ten_toDigits] using this

theorem isDigit_or_minus_of_mem_intText {n : Int} {c : Char} (h : c ∈ intText n) :
    c = '-' ∨ isDigit c = true := by
  unfold intText at h
  split at h
  · rcases List.mem_cons.mp h with rfl | h
    · exact .inl rfl
    · exact .inr ((digits_toDigits _).digits c h)
  · exact .inr ((digits_toDigits _).digits c h)

/-- A character that is neither a digit nor the sign is in no whole number. -/
theorem not_mem_intText {c : Char} (hc : ¬(c = '-' ∨ isDigit c = true)) (n : Int) : c ∉ intText n :=
  fun h => hc (isDigit_or_minus_of_mem_intText h)

theorem minus_not_mem_toDigits (n : Nat) : '-' ∉ Nat.toDigits 10 n :=
  fun h => absurd ((digits_toDigits n).digits '-' h) (by decide)

theorem intText_inj {m n : Int} (h : intText m = intText n) : m = n := by
  have apart : ∀ (i j : Nat), '-' :: Nat.toDigits 10 i ≠ Nat.toDigits 10 j := fun i j heq =>
    minus_not_mem_toDigits j (heq ▸ List.mem_cons_self)
  unfold intText at h
  split at h <;> split at h
  · have := toDigits_inj (List.cons.inj h).2
    omega
  · exact absurd h (apart _ _)
  · exact absurd h.symm (apart _ _)
  · have := toDigits_inj h
    omega

/-! ## Values -/

mutual

/-- All numbers in a value are whole and fit in 64 bits. -/
def Value.IsWhole : Value → Prop
  | .number n => n.IsWhole
  | .array items => itemsWhole items
  | .object members => membersWhole members
  | _ => True

def itemsWhole : List Value → Prop
  | [] => True
  | v :: rest => v.IsWhole ∧ itemsWhole rest

def membersWhole : List (String × Value) → Prop
  | [] => True
  | (_, v) :: rest => v.IsWhole ∧ membersWhole rest

end

theorem membersWhole_iff {ms : List (String × Value)} :
    membersWhole ms ↔ ∀ m ∈ ms, m.2.IsWhole := by
  induction ms with
  | nil => simp [membersWhole]
  | cons m ms ih => simp [membersWhole, ih]

mutual

/-- The order of members is nothing to the numbers in a value. -/
theorem isWhole_ordered : ∀ v : Value, v.IsWhole → v.ordered.IsWhole
  | .null, _ | .bool _, _ | .string _, _ => trivial
  | .number _, h => h
  | .array items, h => itemsWhole_ordered items h
  | .object members, h => membersWhole_ordered members h

theorem itemsWhole_ordered : ∀ vs : List Value, itemsWhole vs → itemsWhole (orderedItems vs)
  | [], _ => trivial
  | v :: rest, h => ⟨isWhole_ordered v h.1, itemsWhole_ordered rest h.2⟩

theorem membersWhole_ordered : ∀ ms : List (String × Value), membersWhole ms →
    membersWhole (orderedMembers ms)
  | [], _ => trivial
  | (name, v) :: rest, h => by
    have hall : membersWhole ((name, v.ordered) :: orderedMembers rest) :=
      ⟨isWhole_ordered v h.1, membersWhole_ordered rest h.2⟩
    rw [membersWhole_iff] at hall ⊢
    exact fun m hm => hall m ((insertByName_perm name v.ordered _).mem_iff.mp hm)

end

theorem writes_number {n : Number} (h : n.IsWhole) (u : List Char) :
    Writes (.value (.number n)) (n.text ++ u) u := by
  cases n with
  | whole n => exact .number u (spelled_intText n) (value_wholeNumeral h)
  | real x => exact h.elim

mutual

/-- A value is written in its text, whatever follows. -/
theorem writes_text : ∀ v : Value, v.IsWhole → ∀ u, Writes (.value v) (v.text ++ u) u
  | .null, _, u => .null u
  | .bool true, _, u => .true u
  | .bool false, _, u => .false u
  | .number _, h, u => writes_number h u
  | .string s, _, u => writes_quoted s u
  | .array [], _, u => .emptyArray (.none _)
  | .array (v :: rest), h, u => by
    rw [Value.text, List.cons_append, List.append_assoc]
    exact .array (.none _) (writes_items rest h.2 (writes_text v h.1 _))
  | .object [], _, u => .emptyObject (.none _)
  | .object ((name, v) :: rest), h, u => by
    have hmembers := writes_members name rest h.2 (writes_text v h.1 (membersText rest ++ u))
    simpa [Value.text] using Writes.object (.none _) hmembers

/-- Items are written after the first one and the bracket. -/
theorem writes_items : ∀ rest : List Value, itemsWhole rest → ∀ {v : Value} {t u : List Char},
    Writes (.value v) t (itemsText rest ++ u) → Writes (.items (v :: rest)) t u
  | [], _, _, _, _, hv => .lastItem hv (.none _)
  | w :: rest, h, _, _, _, hv => by
    rw [itemsText, List.cons_append, List.append_assoc] at hv
    exact .item hv (.none _) (.none _) (writes_items rest h.2 (writes_text w h.1 _))

/-- Members are written after the name and the value of the first one. -/
theorem writes_members : ∀ (name : String) (rest : List (String × Value)), membersWhole rest →
    ∀ {v : Value} {t u : List Char}, Writes (.value v) t (membersText rest ++ u) →
      Writes (.members ((name, v) :: rest)) (quoted name ++ ':' :: t) u
  | name, [], _, _, t, _, hv => by
    have := Writes.lastMember (letters_flatMap name.toList) (.none (':' :: t)) (.none t) hv
      (.none _)
    simpa [quoted] using this
  | name, (next, w) :: rest, h, _, t, u, hv => by
    simp only [membersText, List.cons_append, List.append_assoc] at hv
    have hrest := writes_members next rest h.2 (writes_text w h.1 (membersText rest ++ u))
    have := Writes.member (letters_flatMap name.toList) (.none (':' :: t)) (.none t) hv (.none _)
      (.none _) hrest
    simpa [quoted] using this

end

/-- **Printing.** The text of a value whose numbers are whole is a text of
this value. -/
theorem written_compact {v : Value} (h : v.IsWhole) : Written v.compact v := by
  refine ⟨v.text, [], ?_, ?_, .none []⟩
  · rw [Value.compact, String.toList_ofList]
    exact .none v.text
  · simpa using writes_text v h []

/-- So the text denotes the value. -/
theorem denotes_compact {v : Value} (hwhole : v.IsWhole) (hv : v.NamesDistinct) :
    Denotes v.compact v :=
  ⟨v, written_compact hwhole, hv, rfl⟩

end CallAudit.Json
