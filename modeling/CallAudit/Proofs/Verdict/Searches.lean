/-
CallAudit.Proofs.Verdict.Searches — a reply with labels is searched for each
of them alone.

The lines of a reply are gone through once for both labels. What comes of it
is said here of each label by itself, in terms of what the lines begin with:
the first line that begins with the label decides, and all others are as good
as not there.

* `Begins`, `HasLabel` — a line begins with a label, after any blanks and in
  capitals or small letters.
* `FirstSays`, `Finds` — what the first such line says, and what is found if
  there is none.
* `SameLabelled` — two texts with the same lines of a label, whatever else is
  in them and wherever it stands.
* `Inserted` — a text with one more line, without a label, put in where a line
  begins or after the last one.
* `read_searches` — all together, with the line ends that may be written and
  the cuts that are made in lines.
-/
import CallAudit.Proofs.Text.Cuts
import CallAudit.Proofs.Text.Lines
import CallAudit.Proofs.Verdict.Labels
import Mathlib.Logic.Relation

namespace CallAudit.Text

/-! ## Blanks at the end -/

theorem trimStart_concat {c : Char} (hc : isBlank c = true) (cs : List Char) :
    trimStart (cs ++ [c]) = if trimStart cs = [] then [] else trimStart cs ++ [c] := by
  by_cases hempty : trimStart cs = []
  · have hdrop : cs.dropWhile isBlank = [] := hempty
    rw [if_pos hempty, trimStart, List.dropWhile_append, hdrop]
    simp [hc]
  · have hdrop : (cs.dropWhile isBlank).isEmpty = false := by simpa [trimStart] using hempty
    rw [if_neg hempty, trimStart, List.dropWhile_append, hdrop]
    rfl

/-- A blank after a text is trimmed off. -/
theorem trim_concat {c : Char} (hc : isBlank c = true) (cs : List Char) :
    trim (cs ++ [c]) = trim cs := by
  rw [trim, trimStart_concat hc]
  split
  · rename_i hempty
    rw [trim, hempty]
  · simp [trim, trimEnd, hc]

end CallAudit.Text

namespace CallAudit.Verdict.Summary

open CallAudit.Text (EndsLine afterLabel chomp crlf eqFold eqFold_iff foldCase isAscii isBlank
  labelByBytes length_of_eqFold lines lines_append lines_append_line lines_crlf lines_last
  lines_line trim trimStart)

/-! ## Lines with a label -/

/-- A line begins with a label, after any blanks and whatever the case of its
letters; `rest` is what follows. -/
def Begins (label line rest : List Char) : Prop :=
  ∃ head, trimStart line = head ++ rest ∧ eqFold head label = true

/-- A line begins with a label. -/
def HasLabel (label line : List Char) : Prop :=
  ∃ rest, Begins label line rest

/-- What follows the label of a line is told by it, trimmed. -/
theorem labelled?_eq_some {label line : List Char} {said : String} :
    labelled? label line = some said
      ↔ ∃ rest, Begins label line rest ∧ said = String.ofList (trim rest) := by
  simp only [labelled?, afterLabel, Option.map_eq_some_iff]
  constructor
  · rintro ⟨text, htext, rfl⟩
    split at htext
    · rename_i hhead
      obtain rfl := Option.some.inj htext
      exact ⟨_, ⟨_, (List.take_append_drop label.length _).symm, hhead⟩, rfl⟩
    · cases htext
  · rintro ⟨rest, ⟨head, hline, hhead⟩, rfl⟩
    refine ⟨trim rest, ?_, rfl⟩
    rw [hline, ← length_of_eqFold hhead, List.take_left, List.drop_left, if_pos hhead]

theorem isSome_labelled? {label line : List Char} :
    (labelled? label line).isSome = true ↔ HasLabel label line := by
  simp only [Option.isSome_iff_exists, labelled?_eq_some, HasLabel]
  exact ⟨fun ⟨_, rest, h, _⟩ => ⟨rest, h⟩, fun ⟨rest, h⟩ => ⟨_, rest, h, rfl⟩⟩

theorem labelled?_eq_none {label line : List Char} :
    labelled? label line = none ↔ ¬ HasLabel label line := by
  rw [← isSome_labelled?, Option.not_isSome_iff_eq_none]

instance (label line : List Char) : Decidable (HasLabel label line) :=
  decidable_of_iff _ isSome_labelled?

/-! ## One search -/

/-- What the first line with a label says: what follows the label, trimmed. -/
def FirstSays (label : List Char) (text said : String) : Prop :=
  ∃ before line after rest, lines text.toList = before ++ line :: after
    ∧ (∀ l ∈ before, ¬ HasLabel label l) ∧ Begins label line rest
    ∧ said = String.ofList (trim rest)

/-- What is found in a text for a label: what the first line with the label
says, and nothing exactly if no line has it. -/
def Finds (label : List Char) (text : String) (found : Option String) : Prop :=
  (∀ said, found = some said ↔ FirstSays label text said)
    ∧ (found = none ↔ ∀ line ∈ lines text.toList, ¬ HasLabel label line)

theorem heading?_eq_some {label : List Char} {text said : String} :
    heading? label text = some said ↔ FirstSays label text said := by
  simp only [heading?, List.findSome?_eq_some_iff, labelled?_eq_some, labelled?_eq_none, FirstSays]
  constructor
  · rintro ⟨before, line, after, hlines, ⟨rest, hbegins, hsaid⟩, hbefore⟩
    exact ⟨before, line, after, rest, hlines, hbefore, hbegins, hsaid⟩
  · rintro ⟨before, line, after, rest, hlines, hbefore, hbegins, hsaid⟩
    exact ⟨before, line, after, hlines, ⟨rest, hbegins, hsaid⟩, hbefore⟩

theorem finds_heading? (label : List Char) (text : String) :
    Finds label text (heading? label text) := by
  refine ⟨fun said => heading?_eq_some, ?_⟩
  simp only [heading?, List.findSome?_eq_none_iff, labelled?_eq_none]

/-! ## Lines that do not matter -/

/-- Two texts have the same lines with a label, in the same order. -/
def SameLabelled (label : List Char) (text other : String) : Prop :=
  (lines text.toList).filter (HasLabel label) = (lines other.toList).filter (HasLabel label)

/-- Lines without the label may be left out of a search. -/
theorem findSome?_filter_hasLabel (label : List Char) (ls : List (List Char)) :
    (ls.filter (HasLabel label)).findSome? (labelled? label) = ls.findSome? (labelled? label) := by
  induction ls with
  | nil => rfl
  | cons line ls ih =>
    by_cases hlabel : HasLabel label line
    · rw [List.filter_cons_of_pos (by simpa using hlabel), List.findSome?_cons, List.findSome?_cons,
        ih]
    · rw [List.filter_cons_of_neg (by simpa using hlabel), List.findSome?_cons,
        labelled?_eq_none.mpr hlabel, ih]

/-- So only the lines with the label matter. -/
theorem heading?_congr {label : List Char} {text other : String}
    (h : SameLabelled label text other) : heading? label other = heading? label text := by
  rw [heading?, heading?, ← findSome?_filter_hasLabel, ← h, findSome?_filter_hasLabel]

/-! ## Line ends -/

/-- A carriage return at the end of a line is neither part of a label nor of
what follows it. -/
theorem labelled?_concat {label : List Char} (hlabel : '\r' ∉ label.map foldCase)
    (line : List Char) : labelled? label (line ++ ['\r']) = labelled? label line := by
  have hblank : isBlank '\r' = true := rfl
  suffices hafter : ∀ cs : List Char, afterLabel label (cs ++ ['\r']) = afterLabel label cs by
    rw [labelled?, labelled?, Text.trimStart_concat hblank]
    split
    · rename_i hempty
      rw [hempty]
    · rw [hafter]
  intro cs
  simp only [afterLabel]
  by_cases hlong : label.length ≤ cs.length
  · rw [List.take_append_of_le_length hlong, List.drop_append_of_le_length hlong,
      Text.trim_concat hblank]
  · -- too short for the label, and with the carriage return it is another text
    have hshort : ¬ eqFold (cs.take label.length) label = true := fun h => by
      have := length_of_eqFold h
      simp only [List.length_take] at this
      omega
    have hreturn : ¬ eqFold ((cs ++ ['\r']).take label.length) label = true := fun h => by
      rw [List.take_of_length_le (by simp; omega), eqFold_iff] at h
      exact hlabel (h ▸ by simp [foldCase])
    rw [if_neg hshort, if_neg hreturn]

theorem labelled?_chomp {label : List Char} (hlabel : '\r' ∉ label.map foldCase)
    (line : List Char) : labelled? label (chomp line) = labelled? label line := by
  rcases Text.chomp_cases line with h | h
  · rw [h]
  · conv_rhs => rw [h]
    exact (labelled?_concat hlabel _).symm

/-- A carriage return before each line feed changes nothing. -/
theorem heading?_crlf {label : List Char} (hlabel : '\r' ∉ label.map foldCase) (text : String) :
    heading? label (String.ofList (crlf text.toList)) = heading? label text := by
  have hlines := lines_crlf text.toList
  rw [heading?, heading?, String.toList_ofList]
  generalize lines text.toList = ls, lines (crlf text.toList) = news at hlines
  induction hlines with
  | nil => rfl
  | cons hline _ ih =>
    rw [List.findSome?_cons, List.findSome?_cons, ih]
    rcases hline with rfl | rfl
    · rfl
    · rw [labelled?_chomp hlabel]

/-! ## Lines put in -/

/-- A line of text without either label. -/
structure Plain (line : List Char) : Prop where
  single : '\n' ∉ line
  summary : ¬ HasLabel summaryLabel line
  category : ¬ HasLabel categoryLabel line

/-- An empty line is one. -/
theorem plain_nil : Plain [] := ⟨by decide, by decide, by decide⟩

/-- A text with one more line, which has neither label: before another one, or
as the last one, with or without a line end after it. -/
inductive Inserted : List Char → List Char → Prop where
  | before {above line : List Char} (below : List Char) : EndsLine above → Plain line →
      Inserted (above ++ below) (above ++ (line ++ '\n' :: below))
  | last {text line : List Char} : EndsLine text → Plain line → Inserted text (text ++ line)
  | after {line : List Char} (text : List Char) : Plain line →
      Inserted text (text ++ '\n' :: line)

/-- A line that is put in without a label is not found by a search. -/
theorem findSome?_inserted {label : List Char} (hlabel : '\r' ∉ label.map foldCase)
    (hplain : ∀ {line}, Plain line → ¬ HasLabel label line) {cs ds : List Char}
    (h : Inserted cs ds) :
    (lines ds).findSome? (labelled? label) = (lines cs).findSome? (labelled? label) := by
  have passed : ∀ {line : List Char}, Plain line →
      (lines line).findSome? (labelled? label) = none := by
    intro line hline
    rw [lines_last hline.single]
    split
    · rfl
    · simp [labelled?_eq_none.mpr (hplain hline)]
  cases h with
  | @before above line below habove hline =>
    rw [lines_append habove, lines_append habove, lines_line hline.single, List.findSome?_append,
      List.findSome?_append, List.findSome?_cons, labelled?_chomp hlabel,
      labelled?_eq_none.mpr (hplain hline)]
  | last htext hline =>
    rw [lines_append htext, List.findSome?_append, passed hline, Option.or_none]
  | @after line text hline =>
    obtain ⟨above, last, hnew, hold, hlast⟩ := lines_append_line line cs
    have hend : labelled? label (chomp last) = (lines last).findSome? (labelled? label) := by
      rw [labelled?_chomp hlabel, lines_last hlast]
      split
      · rename_i hempty
        rw [hempty, labelled?_eq_none.mpr (hplain plain_nil)]
        rfl
      · simp
    rw [hnew, hold, List.findSome?_append, List.findSome?_append, List.findSome?_cons, hend,
      passed hline]
    cases (lines last).findSome? (labelled? label) <;> rfl

/-- **Two searches.** What is read from a text is what a search for each of
the labels alone finds: the first line that begins with the label says it. For
either label the lines without it do not matter, nor where they stand. Lines
without a label may be put in anywhere, and line ends written with a carriage
return, without a change. Each line may be cut by bytes: where a label is
looked for and taken off, no cut is within a character. -/
theorem read_searches (text : String) :
    (Finds summaryLabel text (read text).summary ∧ Finds categoryLabel text (read text).category)
      ∧ (∀ other, SameLabelled summaryLabel text other →
          (read other).summary = (read text).summary)
      ∧ (∀ other, SameLabelled categoryLabel text other →
          (read other).category = (read text).category)
      ∧ (∀ other : String, Relation.ReflTransGen Inserted text.toList other.toList →
          read other = read text)
      ∧ read (String.ofList (crlf text.toList)) = read text
      ∧ ∀ label ∈ [summaryLabel, categoryLabel], ∀ line,
          labelByBytes label (trimStart line) = some (afterLabel label (trimStart line)) := by
  have hsummary : '\r' ∉ summaryLabel.map foldCase := by decide
  have hcategory : '\r' ∉ categoryLabel.map foldCase := by decide
  simp only [read_eq]
  refine ⟨⟨finds_heading? _ _, finds_heading? _ _⟩, fun _ h => heading?_congr h,
    fun _ h => heading?_congr h, fun other h => ?_, ?_, ?_⟩
  · have hsearch : ∀ {cs ds : List Char}, Relation.ReflTransGen Inserted cs ds →
        (lines ds).findSome? (labelled? summaryLabel)
            = (lines cs).findSome? (labelled? summaryLabel)
          ∧ (lines ds).findSome? (labelled? categoryLabel)
            = (lines cs).findSome? (labelled? categoryLabel) := by
      intro cs ds h
      induction h with
      | refl => exact ⟨rfl, rfl⟩
      | tail _ hstep ih =>
        rw [findSome?_inserted hsummary Plain.summary hstep,
          findSome?_inserted hcategory Plain.category hstep]
        exact ih
    rw [heading?, heading?, heading?, heading?, (hsearch h).1, (hsearch h).2]
  · rw [heading?_crlf hsummary, heading?_crlf hcategory]
  · intro label hlabel line
    have hascii : label.all isAscii = true := by
      rcases List.mem_pair.mp hlabel with rfl | rfl <;> rfl
    exact Text.labelByBytes_eq (List.all_eq_true.mp hascii) _

/-- The summary does not depend on other text and on categories before or
after it, and a line at the end changes nothing. -/
theorem read_searches_interleaved :
    let text := "Привіт\nCATEGORY:  X \nsummary: short"
    let other := "summary: short\nCategory: Z\n"
    let longer := "Привіт\nCATEGORY:  X \nsummary: short\n- end -"
    (SameLabelled summaryLabel text other ∧ (read other).summary = (read text).summary)
      ∧ Inserted text.toList longer.toList ∧ read longer = read text := by
  intro text other longer
  obtain ⟨-, hsummary, -, hinserted, -⟩ := read_searches text
  have hsame : SameLabelled summaryLabel text other := by
    unfold SameLabelled
    decide +kernel
  have hplain : Plain "- end -".toList := ⟨by decide, by decide, by decide⟩
  have hend : longer.toList = text.toList ++ '\n' :: "- end -".toList := by decide +kernel
  have hlonger : Inserted text.toList longer.toList := by
    rw [hend]
    exact .after text.toList hplain
  exact ⟨⟨hsame, hsummary other hsame⟩, hlonger, hinserted longer (.single hlonger)⟩

end CallAudit.Verdict.Summary
