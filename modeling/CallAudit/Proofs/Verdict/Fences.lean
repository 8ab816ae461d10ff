/-
CallAudit.Proofs.Verdict.Fences — what a code block is taken out of.

The fences of a code block are taken off the raw text before anyone knows
what stands between them. An object is safe from this: it begins and ends
with a bracket, so no fence within it is one at an end, whatever it says.

* `Tight` — a text that neither begins nor ends with a blank.
* `Wraps` — an object as it may stand in a reply: as it is or as a code
  block, with white space around each.
* `unfenced_wraps` — the object is what is left of the reply.
-/
import CallAudit.Proofs.Text.Blank
import CallAudit.Verdict.Scores

namespace CallAudit.Text

/-! ## White space around a text -/

/-- A text that neither begins nor ends with a blank. -/
structure Tight (cs : List Char) : Prop where
  ne_nil : cs ≠ []
  first : ∀ c ∈ cs.head?, isBlank c = false
  last : ∀ c ∈ cs.getLast?, isBlank c = false

/-- Nothing but blanks. -/
def Blanks (cs : List Char) : Prop :=
  ∀ c ∈ cs, isBlank c = true

instance (cs : List Char) : Decidable (Blanks cs) :=
  decidable_of_iff (cs.all isBlank = true) List.all_eq_true

theorem trimStart_pad {pad cs : List Char} (hpad : Blanks pad)
    (hfirst : ∀ c ∈ cs.head?, isBlank c = false) : trimStart (pad ++ cs) = cs := by
  rw [trimStart, List.dropWhile_append_of_pos hpad]
  cases cs with
  | nil => rfl
  | cons c rest =>
    have hc : isBlank c = false := hfirst c rfl
    rw [List.dropWhile_cons, hc, if_neg Bool.false_ne_true]

/-- A text is trimmed backwards as it is trimmed forwards. -/
theorem trimEnd_pad {pad cs : List Char} (hpad : Blanks pad)
    (hlast : ∀ c ∈ cs.getLast?, isBlank c = false) : trimEnd (cs ++ pad) = cs := by
  have hback : Blanks pad.reverse := fun c hc => hpad c (List.mem_reverse.mp hc)
  have hfirst : ∀ c ∈ cs.reverse.head?, isBlank c = false := by rwa [List.head?_reverse]
  have htrim : (pad.reverse ++ cs.reverse).dropWhile isBlank = cs.reverse :=
    trimStart_pad hback hfirst
  rw [trimEnd, List.reverse_append, htrim, List.reverse_reverse]

/-- A text is what is left of it with white space around it. -/
theorem trim_pads {before cs after : List Char} (hbefore : Blanks before) (hcs : Tight cs)
    (hafter : Blanks after) : trim (before ++ (cs ++ after)) = cs := by
  have hfirst : ∀ c ∈ (cs ++ after).head?, isBlank c = false := by
    obtain ⟨c, rest, rfl⟩ := List.exists_cons_of_ne_nil hcs.ne_nil
    exact hcs.first
  rw [trim, trimStart_pad hbefore hfirst, trimEnd_pad hafter hcs.last]

end CallAudit.Text

namespace CallAudit.Verdict

open CallAudit.Text (trim isBlank Tight Blanks trim_pads)

/-! ## Fences at the ends of a text -/

theorem stripHead?_append (head rest : List Char) : stripHead? head (head ++ rest) = some rest := by
  have hhead : head.isPrefixOf (head ++ rest) = true :=
    List.isPrefixOf_iff_prefix.mpr (List.prefix_append head rest)
  rw [stripHead?, hhead, if_pos rfl, List.drop_left]

theorem stripHead?_cons_ne {c d : Char} (h : c ≠ d) (head rest : List Char) :
    stripHead? (c :: head) (d :: rest) = none := by
  simp [stripHead?, List.isPrefixOf, h]

theorem stripTail_append (cs tail : List Char) : stripTail tail (cs ++ tail) = cs := by
  have htail : tail.isSuffixOf (cs ++ tail) = true :=
    List.isSuffixOf_iff_suffix.mpr (List.suffix_append cs tail)
  rw [stripTail, htail, if_pos rfl, List.length_append, Nat.add_sub_cancel, List.take_left]

/-- The word behind a fence that says what the code block holds. -/
def tag : List Char := ['j', 's', 'o', 'n']

/-- A text that begins with a bracket has no fence to open it. -/
theorem unopened_bracket (rest : List Char) : unopened ('\x7b' :: rest) = '\x7b' :: rest := by
  have hne : '\x60' ≠ '\x7b' := by decide
  have htagged : stripHead? (fence ++ ['j', 's', 'o', 'n']) ('\x7b' :: rest) = none :=
    stripHead?_cons_ne hne _ _
  have hplain : stripHead? fence ('\x7b' :: rest) = none := stripHead?_cons_ne hne _ _
  rw [unopened, htagged, hplain]
  rfl

theorem unopened_tagged (rest : List Char) : unopened (fence ++ (tag ++ rest)) = rest := by
  rw [unopened, ← List.append_assoc, tag, stripHead?_append]

/-- A fence is not followed by the tag where a blank or a bracket follows. -/
theorem unopened_untagged {c : Char} (hc : c ≠ 'j') (rest : List Char) :
    unopened (fence ++ c :: rest) = c :: rest := by
  have htagged : stripHead? (fence ++ ['j', 's', 'o', 'n']) (fence ++ c :: rest) = none := by
    simp [stripHead?, fence, hc.symm]
  rw [unopened, htagged, stripHead?_append]
  rfl

/-- A text that ends with a bracket has no fence to close it. -/
theorem stripTail_bracket {cs : List Char} (h : cs.getLast? = some '\x7d') :
    stripTail fence cs = cs := by
  have hno : ¬ fence <:+ cs := by
    rintro ⟨before, rfl⟩
    rw [List.getLast?_append_of_ne_nil before (by decide)] at h
    exact absurd h (by decide)
  rw [stripTail, if_neg (by rwa [List.isSuffixOf_iff_suffix])]

/-! ## Replies -/

/-- A text between brackets. -/
structure Bracketed (cs : List Char) : Prop where
  first : cs.head? = some '\x7b'
  last : cs.getLast? = some '\x7d'

theorem Bracketed.tight {cs : List Char} (h : Bracketed cs) : Tight cs where
  ne_nil := by
    rintro rfl
    cases h.first
  first c hc := by
    rw [h.first] at hc
    obtain rfl := Option.some.inj hc
    decide
  last c hc := by
    rw [h.last] at hc
    obtain rfl := Option.some.inj hc
    decide

/-- How an object may stand in a reply. Any white space will do around it
and around the fences of its code block. -/
inductive Wraps (card : List Char) : List Char → Prop where
  | bare {before after : List Char} : Blanks before → Blanks after →
      Wraps card (before ++ (card ++ after))
  | fenced {before inner outer after word : List Char} : Blanks before →
      word = [] ∨ word = tag → Blanks inner → Blanks outer → Blanks after →
      Wraps card (before ++ ((fence ++ (word ++ (inner ++ (card ++ (outer ++ fence))))) ++ after))

/-- A code block begins and ends with a fence. -/
theorem tight_fenced (cs : List Char) : Tight (fence ++ (cs ++ fence)) where
  ne_nil := by simp [fence]
  first := by
    rintro _ ⟨⟩
    decide
  last := by
    rw [← List.append_assoc, List.getLast?_append_of_ne_nil _ (by decide)]
    rintro _ ⟨⟩
    decide

/-- What stands in a code block with white space before it is no tag. -/
theorem unopened_block {inner card rest word : List Char} (hword : word = [] ∨ word = tag)
    (hinner : Blanks inner) (hcard : Bracketed card) :
    unopened (fence ++ (word ++ (inner ++ (card ++ rest)))) = inner ++ (card ++ rest) := by
  rcases hword with rfl | rfl
  · have hfirst : ∃ c more, inner ++ (card ++ rest) = c :: more ∧ c ≠ 'j' := by
      cases inner with
      | nil =>
        obtain ⟨c, more, rfl⟩ := List.exists_cons_of_ne_nil hcard.tight.ne_nil
        obtain rfl := Option.some.inj hcard.first
        exact ⟨_, _, rfl, by decide⟩
      | cons c inner =>
        refine ⟨c, _, rfl, ?_⟩
        rintro rfl
        exact absurd (hinner _ List.mem_cons_self) (by decide)
    obtain ⟨c, more, heq, hc⟩ := hfirst
    rw [List.nil_append, heq]
    exact unopened_untagged hc more
  · exact unopened_tagged _

/-- **Fences.** An object is what is left of a reply that wraps it. -/
theorem unfenced_wraps {card : List Char} {reply : String} (hcard : Bracketed card)
    (h : Wraps card reply.toList) : unfenced reply = String.ofList card := by
  obtain ⟨text, htext⟩ : ∃ text, reply.toList = text := ⟨_, rfl⟩
  rw [htext] at h
  rw [unfenced, htext]
  congr 1
  cases h with
  | bare hbefore hafter =>
    have hopen : unopened card = card := by
      obtain ⟨c, rest, rfl⟩ := List.exists_cons_of_ne_nil hcard.tight.ne_nil
      obtain rfl := Option.some.inj hcard.first
      exact unopened_bracket rest
    have hnone : Blanks [] := fun c hc => absurd hc List.not_mem_nil
    have hsame : trim card = card := by simpa using trim_pads hnone hcard.tight hnone
    rw [trim_pads hbefore hcard.tight hafter, hopen, stripTail_bracket hcard.last, hsame]
  | @fenced before inner outer after word hbefore hword hinner houter hafter =>
    have hblock : Tight (fence ++ (word ++ (inner ++ (card ++ (outer ++ fence))))) := by
      simpa only [List.append_assoc] using tight_fenced (word ++ (inner ++ (card ++ outer)))
    have hclose : stripTail fence (inner ++ (card ++ (outer ++ fence)))
        = inner ++ (card ++ outer) := by
      simpa only [List.append_assoc] using stripTail_append (inner ++ (card ++ outer)) fence
    rw [trim_pads hbefore hblock hafter, unopened_block hword hinner hcard, hclose,
      trim_pads hinner hcard.tight houter]

end CallAudit.Verdict
