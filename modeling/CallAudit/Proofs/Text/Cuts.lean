/-
CallAudit.Proofs.Text.Cuts — texts that are cut by the number of their bytes.

A label is looked for at the start of a line by cutting the line after as many
bytes as the label has. In a line with characters of several bytes such a cut
may fall into the middle of one, and then there is no text on either side of
it. A label is ASCII, though, and so is what equals it up to case: where a
label is found, the cut is at the end of its last character.

* `cut?` — a text cut after some bytes, unless this is within a character.
* `labelByBytes` — a label looked for and taken off by such cuts; to take off
  what cannot be cut off is an end without a result.
* `labelByBytes_eq` — this never happens, and what is found is what is found
  by characters (`afterLabel`).
-/
import CallAudit.Text.Fold
import CallAudit.Text.Utf8
import Mathlib.Data.List.Basic

namespace CallAudit.Text

open CallAudit.Text.Utf8 (encode)

/-! ## Cutting after some bytes -/

/-- A text cut after `n` bytes; none if the text is shorter, or if the cut
would be within a character. -/
def cut? : Nat → List Char → Option (List Char × List Char)
  | 0, cs => some ([], cs)
  | _ + 1, [] => none
  | n + 1, c :: cs =>
    if c.utf8Size ≤ n + 1 then (cut? (n + 1 - c.utf8Size) cs).map fun (a, b) => (c :: a, b)
    else none

theorem length_encode_cons (c : Char) (cs : List Char) :
    (encode (c :: cs)).length = c.utf8Size + (encode cs).length := by
  rw [encode, List.flatMap_cons, List.length_append, String.length_utf8EncodeChar]
  rfl

/-- A text is cut after the bytes of what stands before the cut. -/
theorem cut?_append (a b : List Char) : cut? (encode a).length (a ++ b) = some (a, b) := by
  induction a with
  | nil => cases b <;> rfl
  | cons c a ih =>
    have hsize := c.utf8Size_pos
    obtain ⟨n, hn⟩ : ∃ n, (encode (c :: a)).length = n + 1 :=
      ⟨_, (Nat.succ_pred (by rw [length_encode_cons]; omega)).symm⟩
    rw [length_encode_cons] at hn
    rw [length_encode_cons, hn, List.cons_append, cut?, if_pos (by omega), ← hn,
      Nat.add_sub_cancel_left, ih]
    rfl

theorem eq_of_cut? {n : Nat} {cs a b : List Char} (h : cut? n cs = some (a, b)) :
    cs = a ++ b ∧ (encode a).length = n := by
  fun_induction cut? n cs generalizing a with
  | case1 cs =>
    cases h
    exact ⟨rfl, rfl⟩
  | case2 => cases h
  | case3 n c cs hsize ih =>
    obtain ⟨⟨rest, b⟩, hrest, heq⟩ := Option.map_eq_some_iff.mp h
    cases heq
    obtain ⟨rfl, hlength⟩ := ih hrest
    refine ⟨rfl, ?_⟩
    rw [length_encode_cons]
    omega
  | case4 => cases h

/-- A text is cut after `n` bytes exactly where it can be divided so that the
first part has `n` bytes. -/
theorem cut?_eq_some {n : Nat} {cs a b : List Char} :
    cut? n cs = some (a, b) ↔ cs = a ++ b ∧ (encode a).length = n := by
  refine ⟨eq_of_cut?, ?_⟩
  rintro ⟨rfl, rfl⟩
  exact cut?_append a b

/-! ## ASCII -/

/-- A character of one byte. -/
def isAscii (c : Char) : Bool :=
  c.toNat < 128

theorem utf8Size_of_isAscii {c : Char} (h : isAscii c = true) : c.utf8Size = 1 := by
  rw [Char.utf8Size_eq_one_iff, UInt32.le_iff_toNat_le]
  exact Nat.le_of_lt_succ (by simpa [isAscii] using h)

theorem length_encode_of_ascii {cs : List Char} (h : ∀ c ∈ cs, isAscii c = true) :
    (encode cs).length = cs.length := by
  induction cs with
  | nil => rfl
  | cons c cs ih =>
    obtain ⟨hc, hcs⟩ := List.forall_mem_cons.mp h
    rw [length_encode_cons, utf8Size_of_isAscii hc, ih hcs, List.length_cons, Nat.add_comm]

/-- Folding the case leaves ASCII characters ASCII and others as they are. -/
theorem isAscii_foldCase (c : Char) : isAscii (foldCase c) = isAscii c := by
  unfold foldCase
  split
  · rename_i hcapital
    have hlast : c.toNat ≤ 90 := hcapital.2
    have hvalid : (c.toNat + 32).isValidChar := .inl (by omega)
    have hfold : (Char.ofNat (c.toNat + 32)).toNat = c.toNat + 32 := by
      rw [Char.ofNat, dif_pos hvalid]
      rfl
    simp only [isAscii, hfold, decide_eq_decide]
    omega
  · rfl

theorem eqFold_iff {a b : List Char} : eqFold a b = true ↔ a.map foldCase = b.map foldCase := by
  simp [eqFold]

theorem length_of_eqFold {a b : List Char} (h : eqFold a b = true) : a.length = b.length := by
  simpa using congrArg List.length (eqFold_iff.mp h)

/-- So what equals an ASCII text up to case is ASCII itself. -/
theorem ascii_of_eqFold {a label : List Char} (h : eqFold a label = true)
    (hlabel : ∀ c ∈ label, isAscii c = true) : ∀ c ∈ a, isAscii c = true := by
  intro c hc
  have hmem : foldCase c ∈ label.map foldCase := eqFold_iff.mp h ▸ List.mem_map_of_mem hc
  obtain ⟨d, hd, hfold⟩ := List.mem_map.mp hmem
  rw [← isAscii_foldCase c, ← hfold, isAscii_foldCase d]
  exact hlabel d hd

/-- It has as many bytes. -/
theorem length_encode_of_eqFold {a label : List Char} (h : eqFold a label = true)
    (hlabel : ∀ c ∈ label, isAscii c = true) : (encode a).length = (encode label).length := by
  rw [length_encode_of_ascii (ascii_of_eqFold h hlabel), length_encode_of_ascii hlabel,
    length_of_eqFold h]

/-! ## Labels -/

/-- What follows a label in a line, both cut after the bytes of the label. The
first cut looks for the label, and a cut that is not possible means that it is
not there. The second one takes the rest; if that is not possible, there is no
result at all. -/
def labelByBytes (label line : List Char) : Option (Option (List Char)) :=
  let n := (encode label).length
  match (cut? n line).map Prod.fst with
  | none => some none
  | some head =>
    if eqFold head label then (cut? n line).map fun (_, rest) => some (trim rest)
    else some none

/-- **No cut within a character.** Whatever characters a line has, an ASCII
label is looked for and taken off by bytes without failing, and what follows
it is what follows it by characters. -/
theorem labelByBytes_eq {label : List Char} (hlabel : ∀ c ∈ label, isAscii c = true)
    (line : List Char) : labelByBytes label line = some (afterLabel label line) := by
  -- a label that is found by characters is one part of the line cut by bytes
  have cut_of_found : eqFold (line.take label.length) label = true →
      cut? (encode label).length line = some (line.take label.length, line.drop label.length) := by
    intro hfound
    exact cut?_eq_some.mpr
      ⟨(List.take_append_drop _ line).symm, length_encode_of_eqFold hfound hlabel⟩
  unfold labelByBytes afterLabel
  cases hcut : cut? (encode label).length line with
  | none =>
    have hnot : ¬ eqFold (line.take label.length) label = true := fun hfound => by
      rw [cut_of_found hfound] at hcut
      cases hcut
    simp only [hcut, Option.map_none, if_neg hnot]
  | some parts =>
    obtain ⟨head, rest⟩ := parts
    by_cases hfound : eqFold (line.take label.length) label = true
    · obtain ⟨rfl, rfl⟩ := Prod.mk.inj (Option.some.inj (hcut.symm.trans (cut_of_found hfound)))
      simp only [hcut, Option.map_some, if_pos hfound]
    · have hnot : ¬ eqFold head label = true := fun hhead => by
        obtain ⟨rfl, -⟩ := cut?_eq_some.mp hcut
        rw [← length_of_eqFold hhead, List.take_left] at hfound
        exact hfound hhead
      simp only [hcut, Option.map_some, if_neg hfound, if_neg hnot]

end CallAudit.Text
