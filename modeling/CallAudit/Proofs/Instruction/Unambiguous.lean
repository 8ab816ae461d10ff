/-
CallAudit.Proofs.Instruction.Unambiguous — the question that is put about a
form tells which form it is.

The texts of questions and the names of options are free, so one of them may
look like a number, like an option or like one of the fixed sentences. What
keeps them apart is where lines end and how they begin: a number, a blank or
one of two capitals. The score of an option is what stands in the last
brackets of its line, whatever brackets its name has.

* `Question.AskedAlike` — two questions in which the model is shown the same.
* `Form.SingleLine` — a form whose texts and names are each on one line.
* `choices_unique`, `answers_unique`, `questionsFrom_unique` — what a text
  begins with is told from the text, part by part.
* `scorecard_eq_iff` — two forms lead to the same question exactly if they
  show the model the same. A line end in a text would be the end of this.
-/
import CallAudit.Instruction
import CallAudit.Proofs.Json.Printing
import CallAudit.Proofs.Lists

namespace CallAudit

open CallAudit.Number (isDigit)

/-! ## What the model is shown -/

/-- Two questions with the same text that are answered in the same way: with
the same options in the same order, or within the same bounds. -/
structure Question.AskedAlike (q r : Question) : Prop where
  text : q.text = r.text
  kind : q.kind = r.kind
  choices : q.kind = .options → q.choices = r.choices
  least : q.kind = .range → q.least = r.least
  most : q.kind = .range → q.most = r.most

/-- No text of a question and no name of an option has a line end in it. -/
def Form.SingleLine (f : Form) : Prop :=
  ∀ q ∈ f.questions, '\n' ∉ q.text.toList ∧ ∀ c ∈ q.choices, '\n' ∉ c.name.toList

namespace Instruction

open CallAudit.Json (intText intText_inj not_mem_intText digits_toDigits toDigits_inj)

/-! ## Options and bounds -/

/-- An option is told from its line. -/
theorem choiceLine_unique {c d : Choice} (hc : '\n' ∉ c.name.toList) (hd : '\n' ∉ d.name.toList)
    {t u : List Char} (h : choiceLine c ++ t = choiceLine d ++ u) : c = d ∧ t = u := by
  -- the line without its end, up to the last bracket that opens
  have line_eq : ∀ (c : Choice) (t : List Char), choiceLine c ++ t = [' ', '-', ' ']
      ++ ((c.name.toList ++ [' '] ++ '(' :: (intText c.score ++ [')'])) ++ '\n' :: t) := by
    intro c t
    simp [choiceLine]
  have unbroken : ∀ c : Choice, '\n' ∉ c.name.toList →
      '\n' ∉ c.name.toList ++ [' '] ++ '(' :: (intText c.score ++ [')']) := by
    intro c hc
    simp [hc, not_mem_intText (c := '\n') (by decide)]
  have inner : ∀ c : Choice, '(' ∉ intText c.score ++ [')'] := by
    intro c
    simp [not_mem_intText (c := '(') (by decide)]
  rw [line_eq, line_eq] at h
  obtain ⟨hline, rfl⟩ := eq_of_append_cons (unbroken c hc) (unbroken d hd)
    (List.append_cancel_left h)
  obtain ⟨hname, hscore⟩ := eq_of_append_cons_last (inner c) (inner d) hline
  have hname := String.toList_inj.mp (List.append_cancel_right hname)
  have hscore := intText_inj (List.append_cancel_right hscore)
  obtain ⟨name, score⟩ := c
  obtain rfl : name = d.name := hname
  obtain rfl : score = d.score := hscore
  exact ⟨rfl, rfl⟩

/-- The line after the last option. -/
def noOther : List Char :=
  "Any other value is not allowed.\n".toList

/-- Options are told from their lines, since the line after them does not
begin like an option. -/
theorem choices_unique {cs ds : List Choice} (hcs : ∀ c ∈ cs, '\n' ∉ c.name.toList)
    (hds : ∀ d ∈ ds, '\n' ∉ d.name.toList) {t u : List Char}
    (h : cs.flatMap choiceLine ++ (noOther ++ t) = ds.flatMap choiceLine ++ (noOther ++ u)) :
    cs = ds ∧ t = u := by
  have apart : ∀ (c : Choice) (v w : List Char), choiceLine c ++ v ≠ noOther ++ w := by
    intro c v w heq
    exact absurd (List.cons.inj heq).1 (by decide)
  induction cs generalizing ds with
  | nil =>
    cases ds with
    | nil => exact ⟨rfl, List.append_cancel_left h⟩
    | cons d ds =>
      rw [List.flatMap_cons, List.append_assoc] at h
      exact absurd h.symm (apart d _ _)
  | cons c cs ih =>
    cases ds with
    | nil =>
      rw [List.flatMap_cons, List.append_assoc] at h
      exact absurd h (apart c _ _)
    | cons d ds =>
      obtain ⟨hc, hcs'⟩ := List.forall_mem_cons.mp hcs
      obtain ⟨hd, hds'⟩ := List.forall_mem_cons.mp hds
      rw [List.flatMap_cons, List.flatMap_cons, List.append_assoc, List.append_assoc] at h
      obtain ⟨rfl, hrest⟩ := choiceLine_unique hc hd h
      obtain ⟨rfl, rfl⟩ := ih hcs' hds' hrest
      exact ⟨rfl, rfl⟩

/-- The bounds of a question are told from its line: the first one ends where
the first blank is. -/
theorem bounds_unique {m n k l : Int} {t u : List Char}
    (h : intText m ++ (" to ".toList ++ (intText n ++ ('\n' :: t)))
      = intText k ++ (" to ".toList ++ (intText l ++ ('\n' :: u)))) : m = k ∧ n = l ∧ t = u := by
  obtain ⟨hleast, hrest⟩ := eq_of_append_cons (not_mem_intText (by decide) m)
    (not_mem_intText (by decide) k) h
  obtain ⟨hmost, rfl⟩ := eq_of_append_cons (not_mem_intText (by decide) n)
    (not_mem_intText (by decide) l) (@List.append_cancel_left _ ['t', 'o', ' '] _ _ hrest)
  exact ⟨intText_inj hleast, intText_inj hmost, rfl⟩

/-! ## Questions -/

/-- What may stand after a question: the number of the next one, or nothing
more of the form. -/
def NewQuestion (t : List Char) : Prop :=
  ∀ c ∈ t.head?, isDigit c = true

theorem newQuestion_questionsFrom (n : Nat) (qs : List Question) :
    NewQuestion (questionsFrom n qs) := by
  cases qs with
  | nil => exact nofun
  | cons q qs =>
    intro c hc
    have hdigits := digits_toDigits n
    obtain ⟨d, ds, hds⟩ := List.exists_cons_of_ne_nil hdigits.ne_nil
    simp only [questionsFrom, question, hds, List.cons_append, List.head?_cons, Option.mem_def,
      Option.some.injEq] at hc
    exact hc ▸ hdigits.digits d (hds ▸ List.mem_cons_self)

theorem NewQuestion.ne_cons {t u : List Char} {c : Char} (ht : NewQuestion t)
    (hc : isDigit c = false) : t ≠ c :: u := by
  rintro rfl
  rw [ht c rfl] at hc
  cases hc

/-- What may be answered to a question is told from the lines after it. -/
theorem answers_unique {q r : Question} (hq : ∀ c ∈ q.choices, '\n' ∉ c.name.toList)
    (hr : ∀ c ∈ r.choices, '\n' ∉ c.name.toList) (htext : q.text = r.text) {t u : List Char}
    (ht : NewQuestion t) (hu : NewQuestion u) (h : answers q ++ t = answers r ++ u) :
    q.AskedAlike r ∧ t = u := by
  cases hkind : q.kind <;> cases hother : r.kind <;> simp only [answers, hkind, hother] at h
  case options.options =>
    simp only [List.append_assoc] at h
    obtain ⟨hchoices, rfl⟩ := choices_unique hq hr (List.append_cancel_left h)
    exact ⟨⟨htext, hkind.trans hother.symm, fun _ => hchoices, by simp [hkind], by simp [hkind]⟩,
      rfl⟩
  case range.range =>
    simp only [List.append_assoc, List.cons_append, List.nil_append] at h
    obtain ⟨hleast, hmost, rfl⟩ := bounds_unique (List.append_cancel_left h)
    exact ⟨⟨htext, hkind.trans hother.symm, by simp [hkind], fun _ => hleast, fun _ => hmost⟩, rfl⟩
  case other.other =>
    exact ⟨⟨htext, hkind.trans hother.symm, by simp [hkind], by simp [hkind], by simp [hkind]⟩, h⟩
  -- of different kinds, so the next line begins differently
  case options.range | range.options => exact absurd (List.cons.inj h).1 (by decide)
  case options.other | range.other => exact absurd h.symm (hu.ne_cons (by decide))
  case other.options | other.range => exact absurd h (ht.ne_cons (by decide))

/-- Questions are told from their text, one after the other. -/
theorem questionsFrom_unique {qs rs : List Question}
    (hqs : ∀ q ∈ qs, '\n' ∉ q.text.toList ∧ ∀ c ∈ q.choices, '\n' ∉ c.name.toList)
    (hrs : ∀ r ∈ rs, '\n' ∉ r.text.toList ∧ ∀ c ∈ r.choices, '\n' ∉ c.name.toList) {n : Nat}
    (h : questionsFrom n qs = questionsFrom n rs) : List.Forall₂ Question.AskedAlike qs rs := by
  have nonempty : ∀ (q : Question) (more : List Question), questionsFrom n (q :: more) ≠ [] := by
    intro q more
    simp [questionsFrom, question]
  induction qs generalizing rs n with
  | nil =>
    cases rs with
    | nil => exact .nil
    | cons r rs => exact absurd h.symm (nonempty r rs)
  | cons q qs ih =>
    cases rs with
    | nil => exact absurd h (nonempty q qs)
    | cons r rs =>
      obtain ⟨⟨hq, hqc⟩, hqs⟩ := List.forall_mem_cons.mp hqs
      obtain ⟨⟨hr, hrc⟩, hrs⟩ := List.forall_mem_cons.mp hrs
      simp only [questionsFrom, question, List.append_assoc, List.cons_append] at h
      have hafter := (List.cons.inj (List.cons.inj (List.append_cancel_left h)).2).2
      obtain ⟨htext, hafter⟩ := eq_of_append_cons hq hr hafter
      obtain ⟨halike, hrest⟩ := answers_unique hqc hrc (String.toList_inj.mp htext)
        (newQuestion_questionsFrom (n + 1) qs) (newQuestion_questionsFrom (n + 1) rs) hafter
      exact .cons halike (ih hqs hrs hrest fun q more => by simp [questionsFrom, question])

/-- Only what the model is shown of a question is in its text. -/
theorem questionsFrom_congr {qs rs : List Question} (h : List.Forall₂ Question.AskedAlike qs rs)
    (n : Nat) : questionsFrom n qs = questionsFrom n rs := by
  induction h generalizing n with
  | nil => rfl
  | @cons q r qs rs halike _ ih =>
    have hanswers : answers q = answers r := by
      unfold answers
      rw [← halike.kind]
      cases hkind : q.kind with
      | options => simp only [halike.choices hkind]
      | range => simp only [halike.least hkind, halike.most hkind]
      | other => rfl
    rw [questionsFrom, questionsFrom, question, question, halike.text, hanswers, ih]

/-! ## The whole question -/

/-- Whether explanations are asked for is told from the first sentence. -/
theorem explain_unique {e e' : Bool} {t u : List Char}
    (h : scorecardOpening e ++ t = scorecardOpening e' ++ u) : e = e' := by
  have differ : ∀ t u : List Char,
      scorecardOpening true ++ t ≠ scorecardOpening false ++ u := by
    intro t u heq
    have hchar := congrArg (fun cs => cs[46]?) heq
    rw [List.getElem?_append_left (by decide +kernel),
      List.getElem?_append_left (by decide +kernel)]
      at hchar
    exact absurd hchar (by decide)
  cases e <;> cases e'
  · rfl
  · exact absurd h.symm (differ u t)
  · exact absurd h (differ t u)
  · rfl

/-- **Unambiguous.** For the same dialogue two forms, each with its texts on
single lines, lead to the same question exactly if explanations are asked for
in both or in none and the forms have as many questions and show the model
the same in each of them. -/
theorem scorecard_eq_iff (dialogue : String) {f g : Form} (hf : f.SingleLine) (hg : g.SingleLine)
    {e e' : Bool} :
    scorecard dialogue f e = scorecard dialogue g e'
      ↔ e = e' ∧ List.Forall₂ Question.AskedAlike f.questions g.questions := by
  unfold scorecard
  rw [String.ofList_inj]
  constructor
  · intro h
    obtain rfl := explain_unique h
    have hquestions := List.append_cancel_left (List.append_cancel_left (List.append_cancel_left h))
    exact ⟨rfl, questionsFrom_unique hf hg (List.append_cancel_right hquestions)⟩
  · rintro ⟨rfl, halike⟩
    rw [questionsFrom_congr halike]

/-- A form with one question, which looks like a numbered one with bounds, and
one option. -/
def imitation (name : String) (score : Int) : Form :=
  { questions :=
      [{ kind := .options, text := "1. Score from 0 to 5", choices := [⟨name, score⟩] }] }

/-- An option whose name ends with brackets is not taken for one with another
score. -/
theorem scorecard_eq_iff_brackets :
    (imitation "Good (10)" 1).SingleLine ∧ (imitation "Good" 10).SingleLine
      ∧ scorecard "" (imitation "Good (10)" 1) true ≠ scorecard "" (imitation "Good" 10) true := by
  have single : ∀ name score, '\n' ∉ name.toList → (imitation name score).SingleLine := by
    intro name score hname
    simpa [imitation, Form.SingleLine] using hname
  have hbrackets := single "Good (10)" 1 (by decide)
  have hplain := single "Good" 10 (by decide)
  refine ⟨hbrackets, hplain, fun h => ?_⟩
  obtain ⟨-, halike⟩ := (scorecard_eq_iff "" hbrackets hplain).mp h
  obtain ⟨hquestion, -⟩ := List.forall₂_cons.mp halike
  exact absurd (hquestion.choices rfl) (by decide)

/-- With a line end in its text a question may look like another one. -/
example :
    questionsFrom 1 [{ text := "Empathy\nScore from 1 to 5" }]
      = questionsFrom 1 [{ kind := .range, text := "Empathy", least := 1, most := 5 }] := by
  decide +kernel

end Instruction

end CallAudit
