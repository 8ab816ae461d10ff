/-
CallAudit.Proofs.Verdict.Labels — what a reply with labels says.

The lines of a reply are gone through once, and both labels are looked for
on the way. Since no line has both of them (`category_of_summary`), neither
is in the way of the other: a reply says just what the first line with each
label says (`read_eq`). A label with nothing after it is found all the same.

* `heading?` — what follows a label in the first line that has it.
* `Labelled` — there is a line with one of the labels.
* `Says`, `says_read` — what is handed in of a reply with a label, and when
  nothing is left of it.
-/
import CallAudit.Proofs.Text.Blank
import CallAudit.Verdict.Summary

namespace CallAudit.Verdict.Summary

open CallAudit.Text (afterLabel eqFold foldCase lines trimStart)

/-! ## Labels -/

/-- What follows a label in a line that has it, after any blanks. -/
def labelled? (label line : List Char) : Option String :=
  (afterLabel label (trimStart line)).map String.ofList

/-- What follows a label in the first line of a text that has it. -/
def heading? (label : List Char) (text : String) : Option String :=
  (lines text.toList).findSome? (labelled? label)

/-- A text has a line with one of the labels. -/
def Labelled (text : String) : Prop :=
  ∃ line ∈ lines text.toList,
    (labelled? summaryLabel line).isSome ∨ (labelled? categoryLabel line).isSome

/-- A line with a label begins with it, but for the case of letters. -/
theorem eqFold_of_labelled? {label line : List Char} (h : (labelled? label line).isSome) :
    eqFold ((trimStart line).take label.length) label = true := by
  simp only [labelled?, Option.isSome_map, afterLabel] at h
  split at h
  · assumption
  · cases h

/-- No line has both labels. -/
theorem category_of_summary {line : List Char} (h : (labelled? summaryLabel line).isSome) :
    labelled? categoryLabel line = none := by
  by_contra hboth
  have hsummary := eqFold_of_labelled? h
  have hcategory := eqFold_of_labelled? (Option.isSome_iff_ne_none.mpr hboth)
  -- the two labels differ in their first letter
  cases hline : trimStart line with
  | nil => simp [hline, eqFold, summaryLabel] at hsummary
  | cons c rest =>
    simp only [hline, eqFold, summaryLabel, categoryLabel, beq_iff_eq, List.length_cons,
      List.take_succ_cons, List.map_cons, List.cons.injEq] at hsummary hcategory
    exact absurd (hsummary.1.symm.trans hcategory.1) (by decide)

/-! ## Reading -/

/-- A line adds what follows its label, if there was no such line before. -/
theorem take_eq (found : Summary) (line : List Char) :
    take found line = ⟨found.summary.or (labelled? summaryLabel line),
      found.category.or (labelled? categoryLabel line)⟩ := by
  have hapart : (labelled? summaryLabel line).isSome → labelled? categoryLabel line = none :=
    category_of_summary
  obtain ⟨summary, category⟩ := found
  cases hs : afterLabel summaryLabel (trimStart line) <;>
    cases hc : afterLabel categoryLabel (trimStart line) <;>
    cases summary <;> cases category <;>
    simp_all [take, labelled?]

/-- Some lines add what the first line with each label says. -/
theorem foldl_take (ls : List (List Char)) : ∀ found : Summary,
    ls.foldl take found = ⟨found.summary.or (ls.findSome? (labelled? summaryLabel)),
      found.category.or (ls.findSome? (labelled? categoryLabel))⟩ := by
  induction ls with
  | nil => simp
  | cons line rest ih =>
    intro found
    rw [List.foldl_cons, ih, take_eq]
    simp only [List.findSome?_cons, Option.or_assoc]
    cases labelled? summaryLabel line <;> cases labelled? categoryLabel line <;> simp

/-- A reply says what the first line with each label says. -/
theorem read_eq (text : String) :
    read text = ⟨heading? summaryLabel text, heading? categoryLabel text⟩ := by
  rw [read, foldl_take]
  simp [heading?]

/-- A reply has something to be handed in if it has a label. -/
theorem isEmpty_read {text : String} : (read text).isEmpty = false ↔ Labelled text := by
  simp only [read_eq, isEmpty, Labelled, heading?, Bool.and_eq_false_iff, Option.isNone_eq_false_iff,
    List.isSome_findSome?, List.any_eq_true, ← exists_or, ← and_or_left]

/-! ## What is handed in -/

/-- The summary that is handed in. -/
def said (found : Summary) : String :=
  found.summary.getD ""

/-- The category that is handed in. -/
def filed (found : Summary) : String :=
  found.category.getD ""

theorem getD_eq_empty {o : Option String} : o.getD "" = "" ↔ ∀ rest, o = some rest → rest = "" := by
  cases o <;> simp

/-- A summary and a category are what follows the labels of a text that has
at least one of them. Both are empty exactly if nothing follows the labels. -/
structure Says (text summary category : String) : Prop where
  labelled : Labelled text
  summary_eq : summary = (heading? summaryLabel text).getD ""
  category_eq : category = (heading? categoryLabel text).getD ""
  both_empty : summary = "" ∧ category = "" ↔
    ∀ label ∈ [summaryLabel, categoryLabel], ∀ rest, heading? label text = some rest → rest = ""

/-- A reply with a label says what is handed in. -/
theorem says_read {text : String} (h : Labelled text) :
    Says text (read text).said (read text).filed where
  labelled := h
  summary_eq := by rw [read_eq, said]
  category_eq := by rw [read_eq, filed]
  both_empty := by
    rw [read_eq, said, filed, getD_eq_empty, getD_eq_empty]
    simp

end CallAudit.Verdict.Summary
