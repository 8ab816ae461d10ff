/-
CallAudit.Proofs.Text.Lines — the lines of a text, one after the other.

A text is a line up to its first line feed and what comes after it, and so it
is gone through line by line (`line_induction`) rather than character by
character, where a carriage return would have to wait for what follows.

* `chomp` — a line without the carriage return that belongs to its end.
* `lines_append` — a text put together where a line begins has the lines of
  its parts; `lines_append_line` — one more line after a text.
* `crlf`, `lines_crlf` — with a carriage return before each line feed the
  lines stay as they are, but for carriage returns at their own ends.
* `intercalate_pieces`, `not_mem_pieces` — pieces put together again with what
  stood between them, which is in none of them.
-/
import CallAudit.Text.Lines
import Mathlib.Data.List.Forall2

namespace CallAudit.Text

/-! ## One line -/

/-- A line without the carriage return it ends with, if it does. -/
def chomp : List Char → List Char
  | [] => []
  | ['\r'] => []
  | c :: rest => c :: chomp rest

theorem chomp_cases (w : List Char) : chomp w = w ∨ w = chomp w ++ ['\r'] := by
  fun_induction chomp w with
  | case1 => exact .inl rfl
  | case2 => exact .inr rfl
  | case3 c rest _ ih =>
    rcases ih with h | h
    · exact .inl (by rw [h])
    · exact .inr (by rw [List.cons_append, ← h])

@[simp] theorem chomp_concat (w : List Char) : chomp (w ++ ['\r']) = w := by
  induction w with
  | nil => rfl
  | cons c w ih =>
    rw [List.cons_append, chomp, ih]
    simp

/-- A line feed ends the first line of a text. -/
theorem lines_line {w : List Char} (hw : '\n' ∉ w) (rest : List Char) :
    lines (w ++ '\n' :: rest) = chomp w :: lines rest := by
  induction w with
  | nil => rfl
  | cons c w ih =>
    have hc : c ≠ '\n' := fun h => hw (h ▸ List.mem_cons_self)
    have ih := ih (List.not_mem_of_not_mem_cons hw)
    cases w with
    | nil =>
      by_cases hreturn : c = '\r'
      · subst hreturn
        rfl
      · rw [List.cons_append, lines, ih]
        · simp [chomp, hreturn]
        all_goals simp [hc, hreturn]
    | cons d w =>
      have hd : d ≠ '\n' := fun h => hw (h ▸ by simp)
      rw [List.cons_append, lines, ih]
      · simp [chomp]
      · exact hc
      · simp [hd]

/-- What comes after the last line feed is a line if there is anything. -/
theorem lines_last {w : List Char} (hw : '\n' ∉ w) : lines w = if w = [] then [] else [w] := by
  induction w with
  | nil => rfl
  | cons c w ih =>
    have hc : c ≠ '\n' := fun h => hw (h ▸ List.mem_cons_self)
    have hw := List.not_mem_of_not_mem_cons hw
    rw [lines, ih hw]
    · cases w <;> simp
    · exact hc
    · rintro rest - rfl
      exact hw List.mem_cons_self

/-! ## Line by line -/

/-- Induction on texts line by line. -/
theorem line_induction {motive : List Char → Prop} (last : ∀ w, '\n' ∉ w → motive w)
    (line : ∀ w rest, '\n' ∉ w → motive rest → motive (w ++ '\n' :: rest)) (cs : List Char) :
    motive cs := by
  induction h : cs.count '\n' generalizing cs with
  | zero => exact last cs (List.count_eq_zero.mp h)
  | succ n ih =>
    have hmem : '\n' ∈ cs := List.count_pos_iff.mp (by omega)
    obtain ⟨w, rest, rfl, hw⟩ := List.eq_append_cons_of_mem hmem
    refine line w rest hw (ih rest ?_)
    rw [List.count_append, List.count_eq_zero.mpr hw, List.count_cons_self] at h
    omega

/-- A text after which a line begins: an empty one, or one that ends with a
line feed. -/
def EndsLine (cs : List Char) : Prop :=
  ∀ c ∈ cs.getLast?, c = '\n'

theorem EndsLine.rest {w rest : List Char} (h : EndsLine (w ++ '\n' :: rest)) : EndsLine rest := by
  cases rest with
  | nil => exact nofun
  | cons c rest => simpa [EndsLine, List.getLast?_append, List.getLast?_cons_cons] using h

theorem EndsLine.eq_nil {w : List Char} (h : EndsLine w) (hw : '\n' ∉ w) : w = [] := by
  by_contra hne
  have hlast := List.getLast_mem hne
  rw [h _ (List.getLast?_eq_some_getLast hne)] at hlast
  exact hw hlast

/-- Where a line begins a text is put together from its lines. -/
theorem lines_append {before : List Char} (h : EndsLine before) (after : List Char) :
    lines (before ++ after) = lines before ++ lines after := by
  induction before using line_induction with
  | last w hw =>
    obtain rfl := h.eq_nil hw
    rfl
  | line w rest hw ih =>
    rw [List.append_assoc, List.cons_append, lines_line hw, lines_line hw, ih h.rest,
      List.cons_append]

/-- A line after the end of a text. The line feed before it ends the last line
of the text, and takes a carriage return there with it. -/
theorem lines_append_line (w cs : List Char) :
    ∃ before last, lines (cs ++ '\n' :: w) = before ++ chomp last :: lines w
      ∧ lines cs = before ++ lines last ∧ '\n' ∉ last := by
  induction cs using line_induction with
  | last v hv => exact ⟨[], v, by simp [lines_line hv], rfl, hv⟩
  | line v rest hv ih =>
    obtain ⟨before, last, hlines, hrest, hlast⟩ := ih
    refine ⟨chomp v :: before, last, ?_, ?_, hlast⟩
    · rw [List.append_assoc, List.cons_append, lines_line hv, hlines, List.cons_append]
    · rw [lines_line hv, hrest, List.cons_append]

/-! ## Carriage returns -/

/-- A text with a carriage return put before each line feed. -/
def crlf (cs : List Char) : List Char :=
  cs.flatMap fun c => if c = '\n' then ['\r', '\n'] else [c]

theorem crlf_eq_self {w : List Char} (hw : '\n' ∉ w) : crlf w = w := by
  induction w with
  | nil => rfl
  | cons c w ih =>
    have hc : c ≠ '\n' := fun h => hw (h ▸ List.mem_cons_self)
    rw [crlf, List.flatMap_cons, if_neg hc, ← crlf, ih (List.not_mem_of_not_mem_cons hw)]
    rfl

theorem crlf_line {w : List Char} (hw : '\n' ∉ w) (rest : List Char) :
    crlf (w ++ '\n' :: rest) = (w ++ ['\r']) ++ '\n' :: crlf rest := by
  have hsplit : crlf (w ++ '\n' :: rest) = crlf w ++ '\r' :: '\n' :: crlf rest := by
    simp [crlf]
  rw [hsplit, crlf_eq_self hw]
  simp

/-- With a carriage return before each line feed a text has the same lines,
except that a carriage return which stood before a line feed now stays at the
end of its line. -/
theorem lines_crlf (cs : List Char) :
    List.Forall₂ (fun line new => line = new ∨ line = chomp new) (lines cs) (lines (crlf cs)) := by
  induction cs using line_induction with
  | last w hw =>
    rw [crlf_eq_self hw]
    exact List.forall₂_same.mpr fun line _ => .inl rfl
  | line w rest hw ih =>
    have hmore : '\n' ∉ w ++ ['\r'] := by simp [hw]
    rw [crlf_line hw, lines_line hw, lines_line hmore, chomp_concat]
    exact .cons (.inr rfl) ih

/-! ## Pieces -/

theorem pieces_ne_nil (sep : Char) (cs : List Char) : pieces sep cs ≠ [] := by
  fun_induction pieces sep cs <;> simp

theorem not_mem_pieces {sep : Char} {cs piece : List Char} (h : piece ∈ pieces sep cs) :
    sep ∉ piece := by
  fun_induction pieces sep cs generalizing piece with
  | case1 => simp_all
  | case2 rest ih =>
    rcases List.mem_cons.mp h with rfl | h
    · exact List.not_mem_nil
    · exact ih h
  | case3 c rest hc hrest => exact absurd hrest (pieces_ne_nil sep rest)
  | case4 c rest hc first more hrest ih =>
    rw [hrest] at ih
    rcases List.mem_cons.mp h with rfl | h
    · exact List.not_mem_cons_of_ne_of_not_mem (Ne.symm hc) (ih List.mem_cons_self)
    · exact ih (List.mem_cons_of_mem _ h)

/-- Nothing of a text is lost in its pieces. -/
theorem intercalate_pieces (sep : Char) (cs : List Char) :
    [sep].intercalate (pieces sep cs) = cs := by
  fun_induction pieces sep cs with
  | case1 => rfl
  | case2 rest ih =>
    obtain ⟨first, more, hrest⟩ := List.exists_cons_of_ne_nil (pieces_ne_nil sep rest)
    rw [hrest] at ih ⊢
    rw [List.intercalate_cons_cons, ih]
    rfl
  | case3 c rest hc hrest => exact absurd hrest (pieces_ne_nil sep rest)
  | case4 c rest hc first more hrest ih =>
    rw [hrest] at ih
    rw [← ih]
    cases more <;> simp [List.intercalate]

end CallAudit.Text
