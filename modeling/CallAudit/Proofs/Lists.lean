/-
CallAudit.Proofs.Lists — entries that are told apart by a key, answers that
are counted together, and lists that are cut where an entry stands.

Tables, guards and journals are lists whose entries have a key of their own,
so an entry is looked up by it (`find?_key`), is in one of two parts only
(`filter_not_mem_parts`), is counted at most once where every answer has it
once (`count_flatMap_le`), and has one place where the entries are put in the
order of their keys (`mergeSort_key`). Where several entries have one key,
they can be counted key by key (`sum_countP_key`). A text is a list of
characters, and is cut in one way at the first and at the last occurrence of
one of them (`eq_of_append_cons`, `eq_of_append_cons_last`), and at the first
place where one stands right before another (`eq_of_append_pair`).
-/
import Mathlib.Algebra.GroupWithZero.Nat
import Mathlib.Data.List.Nodup

namespace CallAudit

/-- An entry is found by its key exactly if it is there. -/
theorem find?_key {α κ : Type} [DecidableEq κ] {key : α → κ} {xs : List α}
    (distinct : (xs.map key).Nodup) {k : κ} {x : α} :
    xs.find? (fun y => key y = k) = some x ↔ x ∈ xs ∧ key x = k := by
  constructor
  · intro h
    exact ⟨List.mem_of_find?_eq_some h, by simpa using List.find?_some h⟩
  · rintro ⟨hx, hkey⟩
    cases hfind : xs.find? (fun y => key y = k) with
    | none => exact absurd hkey (by simpa using List.find?_eq_none.mp hfind x hx)
    | some y =>
      have hykey : key y = k := by simpa using List.find?_some hfind
      rw [List.inj_on_of_nodup_map distinct (List.mem_of_find?_eq_some hfind) hx
        (hykey.trans hkey.symm)]

/-- Of a list without repetitions everything but a first part is the rest, and
everything but the rest is the first part. -/
theorem filter_not_mem_parts {α : Type} [DecidableEq α] {first rest : List α}
    (distinct : (first ++ rest).Nodup) :
    (first ++ rest).filter (· ∉ first) = rest ∧ (first ++ rest).filter (· ∉ rest) = first := by
  obtain ⟨-, -, hapart⟩ := List.nodup_append.mp distinct
  have hnone : ∀ xs : List α, xs.filter (· ∉ xs) = [] := fun xs =>
    List.filter_eq_nil_iff.mpr fun x hx => by simp [hx]
  have hrest : rest.filter (· ∉ first) = rest := List.filter_eq_self.mpr fun x hx => by
    simpa using fun hfirst => hapart x hfirst x hx rfl
  have hfirst : first.filter (· ∉ rest) = first := List.filter_eq_self.mpr fun x hx => by
    simpa using fun hrest => hapart x hx x hrest rfl
  rw [List.filter_append, List.filter_append, hnone, hrest, hfirst, hnone, List.nil_append,
    List.append_nil]
  exact ⟨rfl, rfl⟩

/-- What is counted in all answers together is counted once for each answer
that has it. -/
theorem count_flatMap_le {α κ : Type} [DecidableEq κ] (f : α → List κ) (k : κ) :
    ∀ (xs : List α), (∀ x ∈ xs, (f x).Nodup) →
      (xs.flatMap f).count k ≤ xs.countP fun x => k ∈ f x
  | [], _ => by simp
  | x :: xs, hnodup => by
    have hfirst := List.nodup_iff_count_le_one.mp (hnodup x List.mem_cons_self) k
    have hrest := count_flatMap_le f k xs fun y hy => hnodup y (List.mem_cons_of_mem x hy)
    rw [List.flatMap_cons, List.count_append, List.countP_cons]
    by_cases hmem : k ∈ f x
    · simp only [hmem, decide_true, if_true]
      omega
    · simp only [hmem, decide_false, Bool.false_eq_true, if_false, List.count_eq_zero.mpr hmem]
      omega

/-- Entries that are counted key by key are all counted, each of them once. -/
theorem sum_countP_key {α κ : Type} [DecidableEq κ] (key : α → κ) (p : α → Bool) {keys : List κ}
    (distinct : keys.Nodup) {xs : List α} (covered : ∀ x ∈ xs, key x ∈ keys) :
    (keys.map fun k => xs.countP fun x => key x = k && p x).sum = xs.countP p := by
  induction keys generalizing xs with
  | nil =>
    obtain rfl : xs = [] := List.eq_nil_iff_forall_not_mem.mpr fun x hx =>
      List.not_mem_nil (covered x hx)
    rfl
  | cons k keys ih =>
    obtain ⟨hk, hdistinct⟩ := List.nodup_cons.mp distinct
    let others := xs.filter fun x => key x ≠ k
    have hcovered : ∀ x ∈ others, key x ∈ keys := by
      intro x hx
      obtain ⟨hx, hne⟩ := List.mem_filter.mp hx
      exact (List.mem_cons.mp (covered x hx)).resolve_left (of_decide_eq_true hne)
    have hsame : ∀ k' ∈ keys, others.countP (fun x => key x = k' && p x)
        = xs.countP fun x => key x = k' && p x := by
      intro k' hk'
      have hne : k' ≠ k := fun h => hk (h ▸ hk')
      rw [List.countP_filter]
      refine List.countP_congr fun x _ => ?_
      simp only [Bool.and_eq_true, decide_eq_true_eq]
      exact ⟨fun h => h.1, fun h => ⟨h, h.1 ▸ hne⟩⟩
    have hsplit : xs.countP p = xs.countP (fun x => key x = k && p x) + others.countP p := by
      rw [List.countP_eq_countP_filter_add xs p fun x => key x = k, List.countP_filter]
      simp [others, Bool.and_comm]
    rw [List.map_cons, List.sum_cons, hsplit, ← ih hdistinct hcovered, List.map_congr_left hsame]

/-- Entries that stand in the order of their keys are what sorting makes of
them, however they were mixed up. -/
theorem mergeSort_key {α : Type} {key : α → Int} {xs ys : List α} (mixed : xs.Perm ys)
    (sorted : ys.Pairwise fun x y => key x < key y) :
    xs.mergeSort (fun x y => key x ≤ key y) = ys := by
  have htrans : ∀ x y z : α, decide (key x ≤ key y) = true → decide (key y ≤ key z) = true →
      decide (key x ≤ key z) = true := by
    intro x y z hxy hyz
    simp only [decide_eq_true_eq] at hxy hyz ⊢
    omega
  have htotal : ∀ x y : α, (decide (key x ≤ key y) || decide (key y ≤ key x)) = true := by
    intro x y
    simp only [Bool.or_eq_true, decide_eq_true_eq]
    omega
  have distinct : (ys.map key).Nodup :=
    List.pairwise_map.mpr (sorted.imp fun hlt => Int.ne_of_lt hlt)
  have hperm := (List.mergeSort_perm xs fun x y => key x ≤ key y).trans mixed
  refine List.Perm.eq_of_pairwise ?_ (List.pairwise_mergeSort htrans htotal xs)
    (sorted.imp fun hlt => decide_eq_true (by omega)) hperm
  intro x y hx hy hxy hyx
  simp only [decide_eq_true_eq] at hxy hyx
  exact List.inj_on_of_nodup_map distinct (hperm.subset hx) hy (by omega)

/-- A list is cut in one way at the first occurrence of an entry. -/
theorem eq_of_append_cons {α : Type} {c : α} {a b x y : List α} (ha : c ∉ a) (hb : c ∉ b)
    (h : a ++ c :: x = b ++ c :: y) : a = b ∧ x = y := by
  induction a generalizing b with
  | nil =>
    cases b with
    | nil => exact ⟨rfl, (List.cons.inj h).2⟩
    | cons d b => exact absurd (List.cons.inj h).1 fun heq => hb (heq ▸ List.mem_cons_self)
  | cons d a ih =>
    cases b with
    | nil => exact absurd (List.cons.inj h).1 fun heq => ha (heq ▸ List.mem_cons_self)
    | cons e b =>
      obtain ⟨rfl, hrest⟩ := List.cons.inj h
      obtain ⟨rfl, rfl⟩ :=
        ih (List.not_mem_of_not_mem_cons ha) (List.not_mem_of_not_mem_cons hb) hrest
      exact ⟨rfl, rfl⟩

/-- It is cut in one way at the last occurrence, too. -/
theorem eq_of_append_cons_last {α : Type} {c : α} {a b x y : List α} (hx : c ∉ x) (hy : c ∉ y)
    (h : a ++ c :: x = b ++ c :: y) : a = b ∧ x = y := by
  have hreverse : x.reverse ++ c :: a.reverse = y.reverse ++ c :: b.reverse := by
    simpa using congrArg List.reverse h
  obtain ⟨hxy, hab⟩ := eq_of_append_cons (by simpa using hx) (by simpa using hy) hreverse
  exact ⟨List.reverse_inj.mp hab, List.reverse_inj.mp hxy⟩

/-- A list is cut in one way where an entry first stands right before another
one. -/
theorem eq_of_append_pair {α : Type} {c d : α} (hcd : c ≠ d) {a b x y : List α}
    (ha : ¬ [c, d] <:+: a) (hb : ¬ [c, d] <:+: b) (h : a ++ c :: d :: x = b ++ c :: d :: y) :
    a = b ∧ x = y := by
  -- the two cannot stand at the start of a list that goes on to them
  have apart : ∀ {b x y : List α} {e : α}, ¬ [c, d] <:+: e :: b →
      c :: d :: x ≠ e :: b ++ c :: d :: y := by
    intro b x y e hb heq
    obtain ⟨rfl, htail⟩ := List.cons.inj heq
    cases b with
    | nil => exact hcd (List.cons.inj htail).1.symm
    | cons f b =>
      obtain ⟨rfl, -⟩ := List.cons.inj htail
      exact hb (List.prefix_append [c, d] b).isInfix
  induction a generalizing b with
  | nil =>
    cases b with
    | nil => exact ⟨rfl, (List.cons.inj (List.cons.inj h).2).2⟩
    | cons e b => exact absurd h (apart hb)
  | cons e a ih =>
    cases b with
    | nil => exact absurd h.symm (apart ha)
    | cons f b =>
      obtain ⟨rfl, hrest⟩ := List.cons.inj h
      obtain ⟨rfl, rfl⟩ :=
        ih (fun hin => ha (List.infix_cons hin)) (fun hin => hb (List.infix_cons hin)) hrest
      exact ⟨rfl, rfl⟩

end CallAudit
