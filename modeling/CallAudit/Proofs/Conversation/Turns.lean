/-
CallAudit.Proofs.Conversation.Turns — a dialogue tells who said what.

What is said is free: it may hold the mark that stands after a label, which
is a colon and a blank, and it may look like the turn of somebody else. A turn
ends where its line ends, and its label ends where the mark first stands in
that line, since no label has the mark in it. A colon at the end of a name
does no harm.

What is told is the label and not the channel: a caller may go by the label
of a channel, and two parties may have one name.

* `Labels` — the label of a channel: a name, or the number of the channel.
* `SaidAlike` — two turns with the same text and one label for both.
* `line_unique` — a label and a text are told from their line.
* `dialogue_eq_iff` — two dialogues are the same exactly if they have as many
  turns and each is the same in both. Each turn has a line of its own.
-/
import CallAudit.Conversation
import CallAudit.Proofs.Json.Printing
import CallAudit.Proofs.Lists

namespace CallAudit

open CallAudit.Json (intText not_mem_intText)

/-- Names that can stand before the mark: none has a line end or the mark in
it. -/
def Parties.Plain (who : Parties) : Prop :=
  ∀ name, who.caller = some name ∨ who.callee = some name →
    '\n' ∉ name.toList ∧ ¬ [':', ' '] <:+: name.toList

namespace Conversation

/-! ## Labels -/

/-- The label of a channel. The caller is on channel 0 and the callee on
channel 1; whoever has no name, or an empty one, goes by the channel. -/
inductive Labels (who : Parties) : Int → List Char → Prop where
  | caller {name : String} : who.caller = some name → name ≠ "" → Labels who 0 name.toList
  | callee {name : String} : who.callee = some name → name ≠ "" → Labels who 1 name.toList
  | unnamed {channel : Int} :
      (∀ name, channel = 0 ∧ who.caller = some name ∨ channel = 1 ∧ who.callee = some name →
        name = "") →
      Labels who channel ("Speaker ".toList ++ intText channel)

theorem partyOn_eq_some {who : Parties} {channel : Int} {name : String} :
    partyOn who channel = some name ↔
      channel = 0 ∧ who.caller = some name ∨ channel = 1 ∧ who.callee = some name := by
  unfold partyOn
  split
  · rename_i h
    simp [h]
  · split
    · rename_i h
      simp [h]
    · rename_i h0 h1
      simp [h0, h1]

/-- Every channel has one label, and a turn is written with it. -/
theorem labels_iff {who : Parties} {channel : Int} {label : List Char} :
    Labels who channel label ↔ speaker who channel = label := by
  have named : ∀ {name : String}, partyOn who channel = some name → name ≠ "" →
      speaker who channel = name.toList := by
    intro name hname hne
    rw [speaker, hname, Option.filter_some_pos (by simpa using hne)]
  have unnamed : (∀ name, partyOn who channel = some name → name = "") →
      speaker who channel = "Speaker ".toList ++ intText channel := by
    intro hnone
    have hfilter : (partyOn who channel).filter (fun name => !name.isEmpty) = none :=
      Option.filter_eq_none_iff.mpr fun name hname => by simp [hnone name hname]
    rw [speaker, hfilter]
  constructor
  · intro h
    cases h with
    | caller hname hne => exact named (partyOn_eq_some.mpr (.inl ⟨rfl, hname⟩)) hne
    | callee hname hne => exact named (partyOn_eq_some.mpr (.inr ⟨rfl, hname⟩)) hne
    | unnamed hnone => exact unnamed fun name hname => hnone name (partyOn_eq_some.mp hname)
  · rintro rfl
    by_cases hnone : ∀ name, partyOn who channel = some name → name = ""
    · rw [unnamed hnone]
      exact .unnamed fun name hname => hnone name (partyOn_eq_some.mpr hname)
    · simp only [not_forall] at hnone
      obtain ⟨name, hname, hne⟩ := hnone
      rw [named hname hne]
      rcases partyOn_eq_some.mp hname with ⟨rfl, hcaller⟩ | ⟨rfl, hcallee⟩
      · exact .caller hcaller hne
      · exact .callee hcallee hne

/-- A label has neither a line end nor the mark in it. -/
theorem Labels.plain {who : Parties} (hwho : who.Plain) {channel : Int} {label : List Char}
    (h : Labels who channel label) : '\n' ∉ label ∧ ¬ [':', ' '] <:+: label := by
  cases h with
  | caller hname _ => exact hwho _ (.inl hname)
  | callee hname _ => exact hwho _ (.inr hname)
  | unnamed _ =>
    have hnumber : ∀ c : Char, ¬ (c = '-' ∨ Number.isDigit c = true) → c ∉ "Speaker ".toList →
        c ∉ "Speaker ".toList ++ intText channel := fun c hc hword hmem =>
      (List.mem_append.mp hmem).elim hword (not_mem_intText hc channel)
    refine ⟨hnumber '\n' (by decide) (by decide), fun hmark => ?_⟩
    exact hnumber ':' (by decide) (by decide) (hmark.subset List.mem_cons_self)

/-! ## Turns -/

/-- Turns whose texts are on one line each. -/
def SingleLines (phrases : List Phrase) : Prop :=
  ∀ p ∈ phrases, '\n' ∉ p.text.toList

/-- Two turns in which the same is said under one label. -/
structure SaidAlike (who : Parties) (p q : Phrase) : Prop where
  text : p.text = q.text
  label : ∃ label, Labels who p.channel label ∧ Labels who q.channel label

/-- A line has a turn on it: its label, the mark, and what is said. -/
def OnLine (who : Parties) (p : Phrase) (line : List Char) : Prop :=
  ∃ label, Labels who p.channel label ∧ line = label ++ (": ".toList ++ p.text.toList)

/-- The line of a turn. -/
def line (who : Parties) (p : Phrase) : List Char :=
  speaker who p.channel ++ ':' :: ' ' :: p.text.toList

theorem turn_eq (who : Parties) (p : Phrase) : turn who p = line who p ++ ['\n'] := by
  simp [turn, line]

theorem onLine_line (who : Parties) (p : Phrase) : OnLine who p (line who p) :=
  ⟨_, labels_iff.mpr rfl, rfl⟩

theorem newline_not_mem_line {who : Parties} (hwho : who.Plain) {p : Phrase}
    (hp : '\n' ∉ p.text.toList) : '\n' ∉ line who p := by
  have hlabel := (labels_iff.mpr (rfl : speaker who p.channel = _)).plain hwho
  simp [line, hlabel.1, hp]

/-- A label and a text are told from their line. -/
theorem line_unique {who : Parties} (hwho : who.Plain) {p q : Phrase}
    (h : line who p = line who q) : SaidAlike who p q := by
  have hp := labels_iff.mpr (rfl : speaker who p.channel = _)
  have hq := labels_iff.mpr (rfl : speaker who q.channel = _)
  obtain ⟨hlabel, htext⟩ :=
    eq_of_append_pair (by decide) (hp.plain hwho).2 (hq.plain hwho).2 h
  exact ⟨String.toList_inj.mp htext, _, hp, hlabel ▸ hq⟩

theorem SaidAlike.line_eq {who : Parties} {p q : Phrase} (h : SaidAlike who p q) :
    line who p = line who q := by
  obtain ⟨label, hp, hq⟩ := h.label
  rw [line, line, labels_iff.mp hp, labels_iff.mp hq, h.text]

/-! ## Dialogues -/

/-- Turns are told from their lines, one after the other. -/
theorem turns_unique {who : Parties} (hwho : who.Plain) {ps qs : List Phrase}
    (hps : SingleLines ps) (hqs : SingleLines qs)
    (h : ps.flatMap (turn who) = qs.flatMap (turn who)) : List.Forall₂ (SaidAlike who) ps qs := by
  have nonempty : ∀ (p : Phrase) (more : List Phrase), (p :: more).flatMap (turn who) ≠ [] := by
    intro p more
    simp [turn_eq]
  induction ps generalizing qs with
  | nil =>
    cases qs with
    | nil => exact .nil
    | cons q qs => exact absurd h.symm (nonempty q qs)
  | cons p ps ih =>
    cases qs with
    | nil => exact absurd h (nonempty p ps)
    | cons q qs =>
      obtain ⟨hp, hps⟩ := List.forall_mem_cons.mp hps
      obtain ⟨hq, hqs⟩ := List.forall_mem_cons.mp hqs
      simp only [List.flatMap_cons, turn_eq, List.append_assoc, List.singleton_append] at h
      obtain ⟨hline, hrest⟩ :=
        eq_of_append_cons (newline_not_mem_line hwho hp) (newline_not_mem_line hwho hq) h
      exact .cons (line_unique hwho hline) (ih hps hqs hrest)

theorem turns_congr {who : Parties} {ps qs : List Phrase}
    (h : List.Forall₂ (SaidAlike who) ps qs) :
    ps.flatMap (turn who) = qs.flatMap (turn who) := by
  induction h with
  | nil => rfl
  | cons halike _ ih =>
    rw [List.flatMap_cons, List.flatMap_cons, turn_eq, turn_eq, halike.line_eq, ih]

/-- **Who said what.** Under names that have neither a line end nor the mark
in them, two dialogues of single lines are the same exactly if they have as
many turns and, turn by turn, the same is said under the same label. A
dialogue has one line for each turn, in their order, and no others. -/
theorem dialogue_eq_iff {who : Parties} (hwho : who.Plain) {ps qs : List Phrase}
    (hps : SingleLines ps) (hqs : SingleLines qs) :
    (dialogue who ps = dialogue who qs ↔ List.Forall₂ (SaidAlike who) ps qs)
      ∧ ∃ lines : List (List Char), (dialogue who ps).toList = lines.flatMap (· ++ ['\n'])
          ∧ (∀ l ∈ lines, '\n' ∉ l) ∧ List.Forall₂ (OnLine who) ps lines := by
  refine ⟨?_, ps.map (line who), ?_, ?_, ?_⟩
  · rw [dialogue, dialogue, String.ofList_inj]
    exact ⟨turns_unique hwho hps hqs, turns_congr⟩
  · simp only [dialogue, String.toList_ofList, List.flatMap_map]
    exact congrArg ps.flatMap (funext (turn_eq who))
  · intro l hl
    obtain ⟨p, hp, rfl⟩ := List.mem_map.mp hl
    exact newline_not_mem_line hwho (hps p hp)
  · rw [List.forall₂_map_right_iff]
    exact List.forall₂_same.mpr fun p _ => onLine_line who p

/-- A caller who goes by the label of the nameless callee says what looks like
the turn of another speaker. Which of the two says it is not told, and that
one of them does is. -/
theorem dialogue_eq_iff_shared_label :
    let who : Parties := ⟨some "Speaker 1", some ""⟩
    let said : List Phrase := [⟨0, "Speaker -7: no"⟩, ⟨-7, ": "⟩]
    who.Plain ∧ SingleLines said
      ∧ dialogue who said = dialogue who [⟨1, "Speaker -7: no"⟩, ⟨-7, ": "⟩]
      ∧ dialogue who said ≠ dialogue who [⟨-7, "Speaker -7: no"⟩, ⟨-7, ": "⟩] := by
  intro who said
  have hwho : who.Plain := by
    rintro name (hname | hname) <;> obtain rfl := Option.some.inj hname <;> decide +kernel
  have single : ∀ n, SingleLines [⟨n, "Speaker -7: no"⟩, ⟨-7, ": "⟩] := fun n => by
    simp only [SingleLines, List.forall_mem_cons]
    exact ⟨by decide +kernel, by decide +kernel, by simp⟩
  refine ⟨hwho, single 0, ?_, fun h => ?_⟩
  · refine (dialogue_eq_iff hwho (single 0) (single 1)).1.mpr ?_
    have hshared : SaidAlike who ⟨0, "Speaker -7: no"⟩ ⟨1, "Speaker -7: no"⟩ :=
      ⟨rfl, _, .caller rfl (by decide), labels_iff.mpr (by decide +kernel)⟩
    exact .cons hshared (.cons ⟨rfl, _, labels_iff.mpr rfl, labels_iff.mpr rfl⟩ .nil)
  · obtain ⟨hfirst, -⟩ :=
      List.forall₂_cons.mp ((dialogue_eq_iff hwho (single 0) (single (-7))).1.mp h)
    obtain ⟨label, hcaller, hother⟩ := hfirst.label
    have hsame := (labels_iff.mp hcaller).trans (labels_iff.mp hother).symm
    exact absurd hsame (by decide +kernel)

end Conversation

end CallAudit
