/-
CallAudit.Proofs.Text.Utf8 — the bytes of a text are read as its characters.

A character is put into one to four bytes by its size. The first byte tells
how many there are, and it is read back from the bits that each of them
holds.

* `scalar?_encode` — the character at the head of some bytes is the one that
  was put there.
* `glyphs_encode` — the glyphs of the bytes of a text are its characters.
-/
import CallAudit.Text.Utf8

namespace CallAudit.Text.Utf8

/-! ## Bytes by their numbers -/

theorem toNat_byte {n : Nat} (h : n < 256) : (UInt8.ofNat n).toNat = n := by
  rw [UInt8.toNat_ofNat']
  exact Nat.mod_eq_of_lt h

theorem lengthOf_eq (a : UInt8) :
    lengthOf a = if a.toNat < 128 then 1
      else if 194 ≤ a.toNat ∧ a.toNat ≤ 223 then 2
      else if 224 ≤ a.toNat ∧ a.toNat ≤ 239 then 3
      else if 240 ≤ a.toNat ∧ a.toNat ≤ 244 then 4
      else 0 := by
  simp [lengthOf, UInt8.lt_iff_toNat_lt, UInt8.le_iff_toNat_le]

theorem isTail_iff {b : UInt8} : isTail b = true ↔ 128 ≤ b.toNat ∧ b.toNat ≤ 191 := by
  simp [isTail, UInt8.le_iff_toNat_le]

theorem maySecond_iff {a b : UInt8} : maySecond a b = true ↔
    128 ≤ b.toNat ∧ b.toNat ≤ 191 ∧ (a.toNat = 224 → 160 ≤ b.toNat)
      ∧ (a.toNat = 237 → b.toNat ≤ 159) ∧ (a.toNat = 240 → 144 ≤ b.toNat)
      ∧ (a.toNat = 244 → b.toNat ≤ 143) := by
  have h : ∀ n : UInt8, (a == n) = decide (a.toNat = n.toNat) := fun n => by
    rw [Bool.eq_iff_iff]
    simp [UInt8.toNat_inj]
  simp only [maySecond, h, decide_eq_true_eq, UInt8.reduceToNat]
  repeat' split
  all_goals
    simp only [isTail, Bool.and_eq_true, decide_eq_true_eq, UInt8.le_iff_toNat_le,
      UInt8.reduceToNat]
    omega

/-! ## Characters -/

section
variable {a b c d : UInt8}

theorem scalar?_one (ha : a.toNat < 128) (rest : List UInt8) :
    scalar? (a :: rest) = some (Char.ofNat a.toNat, rest) := by
  have hlen : lengthOf a = 1 := by rw [lengthOf_eq, if_pos ha]
  simp only [scalar?, hlen]

theorem scalar?_two (ha : 194 ≤ a.toNat ∧ a.toNat ≤ 223) (hb : maySecond a b = true)
    (rest : List UInt8) :
    scalar? (a :: b :: rest)
      = some (Char.ofNat ((a.toNat % 32) * 64 + b.toNat % 64), rest) := by
  have hlen : lengthOf a = 2 := by rw [lengthOf_eq, if_neg (by omega), if_pos ha]
  simp only [scalar?, hlen, hb, if_true]

theorem scalar?_three (ha : 224 ≤ a.toNat ∧ a.toNat ≤ 239) (hb : maySecond a b = true)
    (hc : isTail c = true) (rest : List UInt8) :
    scalar? (a :: b :: c :: rest)
      = some (Char.ofNat ((a.toNat % 16) * 4096 + (b.toNat % 64) * 64 + c.toNat % 64), rest) := by
  have hlen : lengthOf a = 3 := by
    rw [lengthOf_eq, if_neg (by omega), if_neg (by omega), if_pos ha]
  simp only [scalar?, hlen, hb, hc, Bool.and_self, if_true]

theorem scalar?_four (ha : 240 ≤ a.toNat ∧ a.toNat ≤ 244) (hb : maySecond a b = true)
    (hc : isTail c = true) (hd : isTail d = true) (rest : List UInt8) :
    scalar? (a :: b :: c :: d :: rest)
      = some (Char.ofNat ((a.toNat % 8) * 262144 + (b.toNat % 64) * 4096 + (c.toNat % 64) * 64
          + d.toNat % 64), rest) := by
  have hlen : lengthOf a = 4 := by
    rw [lengthOf_eq, if_neg (by omega), if_neg (by omega), if_neg (by omega), if_pos ha]
  simp only [scalar?, hlen, hb, hc, hd, Bool.and_self, if_true]

end

/-- The bytes of a character are read as this character. No character is a
surrogate or lies above U+10FFFF, so none of them has a second byte that its
first one does not allow. -/
theorem scalar?_encode (c : Char) (rest : List UInt8) :
    scalar? (String.utf8EncodeChar c ++ rest) = some (c, rest) := by
  have hvalid : c.val.toNat < 55296 ∨ 57343 < c.val.toNat ∧ c.val.toNat < 1114112 := c.valid
  have hchar : ∀ n, n = c.val.toNat → some (Char.ofNat n, rest) = some (c, rest) := by
    rintro _ rfl
    rw [show Char.ofNat c.val.toNat = c from Char.ofNat_toNat c]
  rw [String.utf8EncodeChar]
  generalize c.val.toNat = v at hvalid hchar ⊢
  split
  · have ha := toNat_byte (by omega : v < 256)
    exact (scalar?_one (by omega) rest).trans (hchar _ ha)
  split
  · have ha := toNat_byte (by omega : v / 64 % 32 + 192 < 256)
    have hb := toNat_byte (by omega : v % 64 + 128 < 256)
    exact (scalar?_two (by omega) (maySecond_iff.mpr (by omega)) rest).trans (hchar _ (by omega))
  split
  · have ha := toNat_byte (by omega : v / 4096 % 16 + 224 < 256)
    have hb := toNat_byte (by omega : v / 64 % 64 + 128 < 256)
    have hc := toNat_byte (by omega : v % 64 + 128 < 256)
    exact (scalar?_three (by omega) (maySecond_iff.mpr (by omega)) (isTail_iff.mpr (by omega))
      rest).trans (hchar _ (by omega))
  · have ha := toNat_byte (by omega : v / 262144 % 8 + 240 < 256)
    have hb := toNat_byte (by omega : v / 4096 % 64 + 128 < 256)
    have hc := toNat_byte (by omega : v / 64 % 64 + 128 < 256)
    have hd := toNat_byte (by omega : v % 64 + 128 < 256)
    exact (scalar?_four (by omega) (maySecond_iff.mpr (by omega)) (isTail_iff.mpr (by omega))
      (isTail_iff.mpr (by omega)) rest).trans (hchar _ (by omega))

theorem glyphsFrom_encode (cs : List Char) (fuel : Nat) (h : (encode cs).length ≤ fuel) :
    glyphsFrom fuel (encode cs) = cs.map some := by
  induction cs generalizing fuel with
  | nil => cases fuel <;> rfl
  | cons c cs ih =>
    have hcons : encode (c :: cs) = String.utf8EncodeChar c ++ encode cs := List.flatMap_cons
    have hread := scalar?_encode c (encode cs)
    obtain ⟨a, more, hbytes⟩ : ∃ a more, String.utf8EncodeChar c = a :: more := by
      apply List.exists_cons_of_length_pos
      rw [String.length_utf8EncodeChar]
      exact c.utf8Size_pos
    rw [hbytes, List.cons_append] at hcons hread
    rw [hcons, List.length_cons, List.length_append] at h
    obtain ⟨k, rfl⟩ : ∃ k, fuel = k + 1 := ⟨fuel - 1, by omega⟩
    simp only [hcons, glyphsFrom, hread, ih k (by omega), List.map_cons]

/-- **Bytes of a text.** -/
theorem glyphs_encode (cs : List Char) : glyphs (encode cs) = cs.map some :=
  glyphsFrom_encode cs _ (Nat.le_refl _)

end CallAudit.Text.Utf8
