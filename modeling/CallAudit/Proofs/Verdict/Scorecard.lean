/-
CallAudit.Proofs.Verdict.Scorecard — a scorecard is read as it was meant.

A reply is taken out of its code block as raw text, read as JSON, decoded to
binary numbers, and rounded. Nothing of a scorecard is lost on the way, as
long as its scores have no more than fifty-three bits: the fences that are
taken off are those at its ends, not those in its comment; members that
nobody asked for are passed over wherever they stand; and a whole number of
that size is a binary number exactly.

* `IsAnswer`, `Scorecard` — the text of scores and a comment, with whatever
  else it holds.
* `Scores.read_scorecard` — it is read from a reply, in a code block or not.
* `scorecard_text` — scores and a comment have such a text.
-/
import CallAudit.Proofs.Json.Numerals
import CallAudit.Proofs.Json.Reading
import CallAudit.Proofs.Verdict.Fences
import Mathlib.Data.List.Permutation

namespace CallAudit.Verdict

open CallAudit.Json (Node Items Members Numeral Value Shows Shown Reading Decoder)
open CallAudit.Json.Decoder (field needed names record_known)
open CallAudit.Number (saturate64 rounded_toBinary rounded_scaled)

/-! ## Scorecards -/

/-- An answer with a score, whatever else it holds. -/
def IsAnswer (s : Int) (n : Node) : Prop :=
  ∃ (x : Numeral) (ms : List (String × Node)), x.IsInt s ∧ n = .object (Members.of ms) ∧
    (ms.filter fun m => m.1 ∈ ["score"]) = [("score", .number x.value)]

/-- The text of an object with scores and a comment, in either order and
with any other members among them. -/
def Scorecard (scores : List Int) (comment : String) (card : List Char) : Prop :=
  ∃ (answers : List Node) (ms : List (String × Node)), List.Forall₂ IsAnswer scores answers ∧
    (ms.filter fun m => m.1 ∈ ["answers", "comment"]).Perm
      [("answers", .array (Items.of answers)), ("comment", .string (.whole (.ok comment)))] ∧
    Shows (.node (.object (Members.of ms))) card []

/-! ## Scores -/

/-- A score of fifty-three bits is far from the ends of the range it is
brought into. -/
theorem saturate64_eq {n : Int} (h : n.natAbs ≤ 2 ^ 53) : saturate64 n = n := by
  unfold saturate64
  omega

/-- The number that a score is written as is rounded to the score. -/
theorem score_of_isInt {x : Numeral} {s : Int} (h : x.IsInt s) (hs : s.natAbs ≤ 2 ^ 53) :
    ∃ n, x.value = some n ∧ Scores.score n.toBinary = s := by
  rcases Json.value_of_isInt h (by omega) with hvalue | ⟨rfl, hvalue⟩
  · refine ⟨_, hvalue, ?_⟩
    rw [Scores.score, rounded_toBinary hs, saturate64_eq hs]
  · -- a zero with a minus sign
    have hround := rounded_scaled true 0 1074
    rw [Nat.zero_mul] at hround
    exact ⟨_, hvalue, congrArg saturate64 hround⟩

section
variable {r r' : Reading}

/-- An answer is decoded to its score. -/
theorem answer_of_isAnswer {s : Int} {n : Node} (h : IsAnswer s n) (hskip : n.skip = none)
    (hs : s.natAbs ≤ 2 ^ 53) (henter : r.enter = .ok r') :
    ∃ b, Scores.answer r n = .ok b ∧ Scores.score b = s := by
  obtain ⟨x, ms, hx, rfl, hknown⟩ := h
  obtain ⟨v, hvalue, hround⟩ := score_of_isInt hx hs
  refine ⟨v.toBinary, ?_, hround⟩
  rw [hvalue] at hknown
  rw [Scores.answer, record_known _ _ _ (Members.skip_of hskip)]
  simp only [names, needed, field, List.map_cons, List.map_nil, hknown]
  simp [Decoder.record, henter, Members.of, Decoder.takeMembers, Json.Quotation.text, bind,
    Except.bind, Except.map, Decoder.real]

/-- Answers are decoded to their scores, in their order. -/
theorem items_of_answers {scores : List Int} {answers : List Node}
    (h : List.Forall₂ IsAnswer scores answers) (hskip : ∀ n ∈ answers, n.skip = none)
    (hscores : ∀ s ∈ scores, s.natAbs ≤ 2 ^ 53) (henter : r.enter = .ok r') :
    ∃ bs, Decoder.items Scores.answer r (Items.of answers) = .ok bs
      ∧ bs.map Scores.score = scores := by
  induction h with
  | nil => exact ⟨[], rfl, rfl⟩
  | cons hs _ ih =>
    obtain ⟨hn, hskip⟩ := List.forall_mem_cons.mp hskip
    obtain ⟨hsmall, hscores⟩ := List.forall_mem_cons.mp hscores
    obtain ⟨b, hb, hround⟩ := answer_of_isAnswer hs hn hsmall henter
    obtain ⟨bs, hbs, hrest⟩ := ih hskip hscores
    refine ⟨b :: bs, ?_, by rw [List.map_cons, hround, hrest]⟩
    simp only [Items.of, Decoder.items, hb, hbs, bind, Except.bind, pure, Except.pure]

end

/-! ## Texts of scorecards -/

/-- A score as an answer. -/
def answerValue (s : Int) : Value :=
  .object [("score", Value.int s)]

theorem isAnswer_answerValue {s : Int} (hs : s.natAbs ≤ 2 ^ 53) :
    IsAnswer s (answerValue s).node := by
  have hvalue : (Json.wholeNumeral s).value = some (.whole s) :=
    Json.value_wholeNumeral ⟨by omega, by omega⟩
  refine ⟨Json.wholeNumeral s, [("score", (Value.int s).node)], Json.isInt_wholeNumeral s, rfl, ?_⟩
  rw [hvalue]
  rfl

/-- The text of an object with the scores and the comment is a scorecard,
whatever else the object has. -/
theorem scorecard_text {scores : List Int} {comment : String} {ms : List (String × Value)}
    (hscores : ∀ s ∈ scores, s.natAbs ≤ 2 ^ 53) (hwhole : (Value.object ms).IsWhole)
    (hms : (ms.filter fun m => m.1 ∈ ["answers", "comment"]).Perm
      [("answers", .array (scores.map answerValue)), ("comment", .string comment)]) :
    Scorecard scores comment (Value.object ms).text := by
  refine ⟨scores.map fun s => (answerValue s).node, ms.map fun m => (m.1, m.2.node), ?_, ?_, ?_⟩
  · rw [List.forall₂_map_right_iff, List.forall₂_same]
    exact fun s hs => isAnswer_answerValue (hscores s hs)
  · have hnodes := hms.map fun m => (m.1, m.2.node)
    rw [List.filter_map]
    simpa only [List.map_cons, List.map_nil, Value.node, Json.itemNodes_eq, List.map_map,
      Function.comp_def] using hnodes
  · have hwrites := Json.writes_text (.object ms) hwhole []
    rw [List.append_nil] at hwrites
    have hshows := hwrites.shows
    rwa [Json.Phrase.figure, Value.node, Json.memberNodes_eq] at hshows

/-! ## Cards -/

/-- A card is decoded to its scores and its comment. -/
theorem decoder_card {scores : List Int} {comment : String} {answers : List Node}
    {ms : List (String × Node)} (hanswers : List.Forall₂ IsAnswer scores answers)
    (hms : (ms.filter fun m => m.1 ∈ ["answers", "comment"]).Perm
      [("answers", .array (Items.of answers)), ("comment", .string (.whole (.ok comment)))])
    (hskip : (Members.of ms).skip = none) (hscores : ∀ s ∈ scores, s.natAbs ≤ 2 ^ 53) :
    Scores.decoder .text (.object (Members.of ms)) = .ok ⟨scores, comment⟩ := by
  have hmembers := Members.skip_of hskip
  have hlist : (Items.of answers).skip = none := by
    have hmem : ("answers", Node.array (Items.of answers)) ∈ ms :=
      List.mem_of_mem_filter (hms.symm.subset List.mem_cons_self)
    exact hmembers _ hmem
  -- the answers stand two levels deep in the text
  have henter : Reading.enter ⟨.malformed, some 125⟩ = .ok ⟨.malformed, some 124⟩ := rfl
  obtain ⟨bs, hbs, rfl⟩ := items_of_answers hanswers (Items.skip_of hlist) hscores henter
  rw [Scores.decoder, record_known _ _ _ hmembers]
  simp only [names, field, List.map_cons, List.map_nil]
  rcases List.perm_pair.mp hms with hknown | hknown <;>
  · rw [hknown]
    simp [Decoder.record, Reading.enter, Reading.text, Json.deeper, Members.of,
      Decoder.takeMembers, Json.Quotation.text, bind, Except.bind, Except.map, Decoder.list, hbs,
      Decoder.string]

/-- **Round trip.** The scores and the comment of a scorecard are read from
every reply that holds it, as it is or in a code block, whatever the comment
says. -/
theorem Scores.read_scorecard {scores : List Int} {comment : String} {card : List Char}
    {reply : String} (hscores : ∀ s ∈ scores, s.natAbs ≤ 2 ^ 53)
    (hcard : Scorecard scores comment card) (hreply : Wraps card reply.toList) :
    Scores.read reply = ⟨scores, comment⟩ := by
  obtain ⟨answers, ms, hanswers, hms, hshows⟩ := hcard
  obtain ⟨hfirst, hlast⟩ := hshows.brackets
  have hshown : Shown card (.object (Members.of ms)) := ⟨card, [], .none _, hshows, .none _⟩
  have hdecode : Decoder.ofText Scores.decoder (unfenced reply) = .ok ⟨scores, comment⟩ := by
    simp only [Decoder.ofText, unfenced_wraps ⟨hfirst, hlast⟩ hreply, String.toList_ofList,
      Json.decodeText_shown hshown]
    exact decoder_card hanswers hms hshows.skip hscores
  unfold Scores.read
  rw [hdecode]

/-- A comment with a fence, quotes and a line feed, a member that nobody asked
for, a no-break space before the code block and line feeds within it. -/
theorem Scores.read_scorecard_fenced :
    let scores := [-3, 9007199254740992]
    let comment := "\x60\x60\x60 \"ok\"\n"
    let card := (Value.object [("comment", .string comment), ("model", .null),
      ("answers", .array (scores.map answerValue))]).text
    let reply := "\u00a0\x60\x60\x60json\n" ++ String.ofList card ++ "\r\n\x60\x60\x60 \t"
    ((∀ s ∈ scores, s.natAbs ≤ 2 ^ 53) ∧ Scorecard scores comment card
        ∧ Wraps card reply.toList)
      ∧ Scores.read reply = ⟨scores, comment⟩ := by
  intro scores comment card reply
  have hscores : ∀ s ∈ scores, s.natAbs ≤ 2 ^ 53 := by decide
  have hcard : Scorecard scores comment card := by
    refine scorecard_text hscores ?_ (.swap _ _ _)
    simp [scores, answerValue, Value.IsWhole, Json.membersWhole, Json.itemsWhole, Value.int,
      Json.Number.IsWhole]
  have hblock : Wraps card (['\u00a0'] ++ ((fence ++ (tag ++ (['\n'] ++ (card
      ++ (['\r', '\n'] ++ fence))))) ++ [' ', '\t'])) :=
    .fenced (by decide) (.inr rfl) (by decide) (by decide) (by decide)
  have hreply : Wraps card reply.toList := by
    simpa [reply, fence, tag] using hblock
  exact ⟨⟨hscores, hcard, hreply⟩, read_scorecard hscores hcard hreply⟩

end CallAudit.Verdict
