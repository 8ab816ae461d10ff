/-
CallAudit.Proofs.Json.Nodes — every JSON text, and the node it shows.

A text that is kept as a value has strings that are texts and numbers in
range; a text of which a part is passed over need not have them there. This
grammar is that of JSON itself, so it derives both: a number may be of any
size, a string may name half of a surrogate pair, arrays and objects nest as
deep as they like, and a name may be given twice.

* `Spelling`, `Quoted` — what may stand between quotes, and the text it is.
* `Shows` — a node, the items of an array or the members of an object at the
  head of a text.
* `Shows.suffix`, `Shows.brackets` — what follows a figure is the rest of the
  text, and an object stands between its brackets.
* `Shows.skip` — such a node can be passed over.
* `Writes.shows` — a text written for a value shows the node of this value.
* `Items.of`, `Members.of` — items and named members from lists of them.
-/
import CallAudit.Proofs.Json.Grammar

namespace CallAudit.Json

open CallAudit.Text.Utf16 (isLead isTrail join)

/-! ## Strings -/

/-- What may stand between quotes. Any unit of sixteen bits may be named,
whether or not it is one of a character. -/
inductive Spelling : List Char → Prop where
  | nil : Spelling []
  | plain {c : Char} {t : List Char} : 32 ≤ c.toNat → c ≠ '"' → c ≠ '\\' → Spelling t →
      Spelling (c :: t)
  | letter {e c : Char} {t : List Char} : escaped? e = some c → Spelling t →
      Spelling ('\\' :: e :: t)
  | unit {a b c d : Char} {n : Nat} {t : List Char} : hex4? a b c d = some n → Spelling t →
      Spelling ('\\' :: 'u' :: a :: b :: c :: d :: t)

/-- A string in quotes. One that names half of a surrogate pair without the
other is no text. -/
inductive Quoted : Quotation → List Char → Prop where
  | text {cs t : List Char} : Letters cs t → Quoted (.whole (.ok (String.ofList cs))) t
  | stray {t : List Char} : Spelling t → (∀ cs, ¬ Letters cs t) →
      Quoted (.whole (.error .malformed)) t

/-! ## Nodes -/

/-- What a text may begin with: a value, the items of an array after its
bracket, or the members of an object after its bracket. -/
inductive Figure where
  | node (n : Node)
  | items (ns : Items)
  | members (ms : Members)

/-- A figure, a text that begins with it, and what follows it there. -/
inductive Shows : Figure → List Char → List Char → Prop where
  | null (u : List Char) : Shows (.node .null) ('n' :: 'u' :: 'l' :: 'l' :: u) u
  | true (u : List Char) : Shows (.node (.bool true)) ('t' :: 'r' :: 'u' :: 'e' :: u) u
  | false (u : List Char) : Shows (.node (.bool false)) ('f' :: 'a' :: 'l' :: 's' :: 'e' :: u) u
  | number {x : Numeral} {t : List Char} (u : List Char) : x.Spelled t →
      Shows (.node (.number x.value)) (t ++ u) u
  | string {q : Quotation} {t : List Char} (u : List Char) : Quoted q t →
      Shows (.node (.string q)) ('"' :: (t ++ '"' :: u)) u
  | emptyArray {t u : List Char} : Space t (']' :: u) →
      Shows (.node (.array .closed)) ('[' :: t) u
  | array {ns : Items} {s t u : List Char} : Space s t → Shows (.items ns) t u →
      Shows (.node (.array ns)) ('[' :: s) u
  | emptyObject {t u : List Char} : Space t ('\x7d' :: u) →
      Shows (.node (.object .closed)) ('\x7b' :: t) u
  | object {ms : Members} {s t u : List Char} : Space s t → Shows (.members ms) t u →
      Shows (.node (.object ms)) ('\x7b' :: s) u
  | lastItem {n : Node} {t s u : List Char} : Shows (.node n) t s → Space s (']' :: u) →
      Shows (.items (.cons n .closed)) t u
  | item {n : Node} {ns : Items} {t s a b u : List Char} : Shows (.node n) t s →
      Space s (',' :: a) → Space a b → Shows (.items ns) b u → Shows (.items (.cons n ns)) t u
  | lastMember {q : Quotation} {k : List Char} {n : Node} {r s t w u : List Char} : Quoted q k →
      Space r (':' :: s) → Space s t → Shows (.node n) t w → Space w ('\x7d' :: u) →
      Shows (.members (.cons q n .closed)) ('"' :: (k ++ '"' :: r)) u
  | member {q : Quotation} {k : List Char} {n : Node} {ms : Members}
      {r s t w a b u : List Char} : Quoted q k → Space r (':' :: s) → Space s t →
      Shows (.node n) t w → Space w (',' :: a) → Space a b → Shows (.members ms) b u →
      Shows (.members (.cons q n ms)) ('"' :: (k ++ '"' :: r)) u

/-- A whole text that shows a node, with white space around it. -/
def Shown (t : List Char) (n : Node) : Prop :=
  ∃ s u, Space t s ∧ Shows (.node n) s u ∧ Space u []

theorem Shows.begins {p : Figure} {t u : List Char} (h : Shows p t u) :
    ∃ c rest, t = c :: rest ∧ IsFirst c := by
  induction h with
  | number u hspelled =>
    obtain ⟨c, rest, rfl, hc⟩ := hspelled.begins
    refine ⟨c, _, rfl, ?_⟩
    rcases hc with rfl | hc
    · exact ⟨rfl, by decide⟩
    · exact isFirst_of_isDigit hc
  | lastItem _ _ ih | item _ _ _ _ ih => exact ih
  | _ => exact ⟨_, _, rfl, rfl, by decide⟩

/-! ## What a text ends with -/

theorem Space.suffix {t u : List Char} (h : Space t u) : u <:+ t := by
  induction h with
  | none t => exact List.suffix_refl t
  | char _ _ ih => exact ih.trans (List.suffix_cons _ _)

/-- The end of a figure with what follows it: an object and its members end
with a bracket. -/
def Figure.tail (u : List Char) : Figure → List Char
  | .members _ | .node (.object _) => '\x7d' :: u
  | _ => u

theorem Figure.suffix_tail (p : Figure) (u : List Char) : u <:+ p.tail u := by
  unfold Figure.tail
  split
  · exact List.suffix_cons _ _
  · exact List.suffix_cons _ _
  · exact List.suffix_refl u

/-- What follows a figure is the rest of the text. -/
theorem Shows.suffix {p : Figure} {t u : List Char} (h : Shows p t u) : p.tail u <:+ t := by
  induction h with
  | null u => exact List.suffix_append ['n', 'u', 'l', 'l'] u
  | true u => exact List.suffix_append ['t', 'r', 'u', 'e'] u
  | false u => exact List.suffix_append ['f', 'a', 'l', 's', 'e'] u
  | number u _ => exact List.suffix_append _ u
  | @string _ t u _ => exact ⟨'"' :: (t ++ ['"']), by simp [Figure.tail]⟩
  | emptyArray hspace =>
    exact ((List.suffix_cons _ _).trans hspace.suffix).trans (List.suffix_cons _ _)
  | array hspace _ ih => exact (ih.trans hspace.suffix).trans (List.suffix_cons _ _)
  | emptyObject hspace => exact hspace.suffix.trans (List.suffix_cons _ _)
  | object hspace _ ih => exact (ih.trans hspace.suffix).trans (List.suffix_cons _ _)
  | lastItem _ hend ih =>
    exact ((List.suffix_cons _ _).trans hend.suffix).trans ((Figure.suffix_tail _ _).trans ih)
  | item _ hcomma hspace _ ih ihs =>
    have hrest := (ihs.trans hspace.suffix).trans ((List.suffix_cons _ _).trans hcomma.suffix)
    exact hrest.trans ((Figure.suffix_tail _ _).trans ih)
  | @lastMember _ k _ r _ _ _ _ _ hcolon hspace _ hend ih =>
    have hvalue := (hend.suffix.trans ((Figure.suffix_tail _ _).trans ih)).trans hspace.suffix
    exact (hvalue.trans ((List.suffix_cons _ _).trans hcolon.suffix)).trans
      ⟨'"' :: (k ++ ['"']), by simp⟩
  | @member _ k _ _ r _ _ _ _ _ _ _ hcolon hspace _ hcomma hblank _ ih ihs =>
    have hrest := (ihs.trans hblank.suffix).trans ((List.suffix_cons _ _).trans hcomma.suffix)
    have hvalue := (hrest.trans ((Figure.suffix_tail _ _).trans ih)).trans hspace.suffix
    exact (hvalue.trans ((List.suffix_cons _ _).trans hcolon.suffix)).trans
      ⟨'"' :: (k ++ ['"']), by simp⟩

/-- The text of an object stands between its brackets. -/
theorem Shows.brackets {ms : Members} {t : List Char} (h : Shows (.node (.object ms)) t []) :
    t.head? = some '\x7b' ∧ t.getLast? = some '\x7d' := by
  refine ⟨by cases h <;> rfl, ?_⟩
  obtain ⟨s, hs⟩ := h.suffix
  rw [← hs]
  exact List.getLast?_concat

/-! ## Nodes that are skipped -/

/-- A string in quotes has an end. -/
theorem Quoted.skip {q : Quotation} {t : List Char} (h : Quoted q t) : q.skip = none := by
  cases h <;> rfl

/-- The fault of a figure that is skipped. -/
def Figure.skip : Figure → Option Fault
  | .node n => n.skip
  | .items ns => ns.skip
  | .members ms => ms.skip

/-- Whatever a JSON text shows can be passed over. -/
theorem Shows.skip {p : Figure} {t u : List Char} (h : Shows p t u) : p.skip = none := by
  induction h with
  | null | true | false | number | emptyArray | emptyObject => rfl
  | string u hq => exact hq.skip
  | array _ _ ih | object _ _ ih => exact ih
  | lastItem _ _ ih => simpa [Figure.skip, Items.skip] using ih
  | item _ _ _ _ ih ihs =>
    simp only [Figure.skip, Items.skip] at ih ihs ⊢
    rw [ih, ihs]
    rfl
  | lastMember hq _ _ _ _ ih => simpa [Figure.skip, Members.skip, hq.skip] using ih
  | member hq _ _ _ _ _ _ ih ihs =>
    simp only [Figure.skip, Members.skip] at ih ihs ⊢
    rw [hq.skip, ih, ihs]
    rfl

/-! ## Lists of nodes -/

/-- Nodes as the items of an array. -/
def Items.of : List Node → Items
  | [] => .closed
  | n :: rest => .cons n (of rest)

/-- Named nodes as the members of an object. -/
def Members.of : List (String × Node) → Members
  | [] => .closed
  | (name, n) :: rest => .cons (.whole (.ok name)) n (of rest)

theorem Items.skip_of {ns : List Node} (h : (Items.of ns).skip = none) :
    ∀ n ∈ ns, n.skip = none := by
  induction ns with
  | nil => exact fun n hn => absurd hn List.not_mem_nil
  | cons n ns ih =>
    obtain ⟨hfirst, hrest⟩ : n.skip = none ∧ (Items.of ns).skip = none := by
      simpa [Items.of, Items.skip] using h
    exact List.forall_mem_cons.mpr ⟨hfirst, ih hrest⟩

theorem Members.skip_of {ms : List (String × Node)} (h : (Members.of ms).skip = none) :
    ∀ m ∈ ms, m.2.skip = none := by
  induction ms with
  | nil => exact fun m hm => absurd hm List.not_mem_nil
  | cons m ms ih =>
    obtain ⟨hfirst, hrest⟩ : m.2.skip = none ∧ (Members.of ms).skip = none := by
      simpa [Members.of, Members.skip, Quotation.skip] using h
    exact List.forall_mem_cons.mpr ⟨hfirst, ih hrest⟩

/-! ## Values -/

theorem itemNodes_eq (vs : List Value) : itemNodes vs = Items.of (vs.map Value.node) := by
  induction vs with
  | nil => rfl
  | cons v vs ih => rw [itemNodes, List.map_cons, Items.of, ih]

theorem memberNodes_eq (ms : List (String × Value)) :
    memberNodes ms = Members.of (ms.map fun m => (m.1, m.2.node)) := by
  induction ms with
  | nil => rfl
  | cons m ms ih => rw [memberNodes, List.map_cons, Members.of, ih]

/-- What a phrase shows. -/
def Phrase.figure : Phrase → Figure
  | .value v => .node v.node
  | .items vs => .items (itemNodes vs)
  | .members ms => .members (memberNodes ms)

/-- A text written for a value shows its node. -/
theorem Writes.shows {p : Phrase} {t u : List Char} (h : Writes p t u) : Shows p.figure t u := by
  induction h with
  | null u => exact .null u
  | true u => exact .true u
  | false u => exact .false u
  | number u hspelled hvalue =>
    have := Shows.number u hspelled
    rwa [hvalue] at this
  | string u hletters => exact .string u (.text hletters)
  | emptyArray hspace => exact .emptyArray hspace
  | array hspace _ ih => exact .array hspace ih
  | emptyObject hspace => exact .emptyObject hspace
  | object hspace _ ih => exact .object hspace ih
  | lastItem _ hend ih => exact .lastItem ih hend
  | item _ hcomma hspace _ ih ihs => exact .item ih hcomma hspace ihs
  | lastMember hname hcolon hspace _ hend ih =>
    exact .lastMember (.text hname) hcolon hspace ih hend
  | member hname hcolon hspace _ hcomma hblank _ ih ihs =>
    exact .member (.text hname) hcolon hspace ih hcomma hblank ihs

theorem Written.shown {t : String} {v : Value} (h : Written t v) : Shown t.toList v.node := by
  obtain ⟨s, u, hbefore, hv, hafter⟩ := h
  exact ⟨s, u, hbefore, hv.shows, hafter⟩

end CallAudit.Json
