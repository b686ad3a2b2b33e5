import Mathlib.Algebra.Order.Group.Multiset
import Mathlib.Data.List.Sort
import Mathlib.Order.Defs.LinearOrder

/-!
# Priority queues, and what is due

A priority queue gives its entries back by their keys, a least one first; which one of several
with equal keys is its own affair. What it holds is a multiset.

A queue whose keys are times is emptied of what is due by reading a clock and taking a first
entry, again and again. Whatever the clock shows from one reading to the next, the entries come
out in the order of their times, each one when the clock has reached its time, and what is left
was not due at the last reading.

## Main definitions

* `PriorityQueue` — the operations, with what they do to the contents
* `SortedList` — entries in the order of their keys, with insertion behind equal keys
* `expire` — taking what is due

## Main results

* `expired` — what comes out, and what stays
* `filter_eq_of_find?`, `eq_or_eraseP_of_find?` — taking the first element that a test admits
-/

namespace Lib

variable {α D Q : Type*} [LinearOrder D] {key : α → D}

/-- A queue of entries, of which one with a least key is in front. -/
structure PriorityQueue (Q : Type*) (key : α → D) where
  empty : Q
  push : α → Q → Q
  pop : Q → Option (α × Q)
  contents : Q → Multiset α
  contents_empty : contents empty = 0
  contents_push : ∀ a q, contents (push a q) = a ::ₘ contents q
  contents_pop : ∀ {q a q'}, pop q = some (a, q') → contents q = a ::ₘ contents q'
  least : ∀ {q a q'}, pop q = some (a, q') → ∀ b ∈ contents q', key a ≤ key b
  contents_of_pop : ∀ {q}, pop q = none → contents q = 0

namespace PriorityQueue

/-! ## What is due -/

/-- Take what is due, at most `fuel` entries of it. The clock is read before each of them, and
readings are counted. -/
def expire (pq : PriorityQueue Q key) (clock : ℕ → D) : ℕ → ℕ → Q → List α × ℕ × Q
  | 0, n, q => ([], n, q)
  | fuel + 1, n, q =>
    match pq.pop q with
    | none => ([], n, q)
    | some (a, rest) =>
      if clock n < key a then ([], n + 1, q)
      else
        let (due, n', q') := expire pq clock fuel (n + 1) rest
        (a :: due, n', q')

/-- The entries in `due` have been taken out of `q`, with readings of the clock from `n` to
`n'`. -/
structure Expired (pq : PriorityQueue Q key) (clock : ℕ → D) (n : ℕ) (q : Q) (due : List α)
    (n' : ℕ) (q' : Q) : Prop where
  contents : pq.contents q = due + pq.contents q'
  readings : n ≤ n'
  /-- The clock is read for each of them, and at most once more. -/
  bounded : n' ≤ n + due.length + 1
  /-- The clock has reached the time of each. -/
  reached : ∀ a ∈ due, ∃ k, n ≤ k ∧ k < n' ∧ key a ≤ clock k
  sorted : due.Pairwise (key · ≤ key ·)
  /-- None of the others comes before. -/
  first : ∀ a ∈ due, ∀ b ∈ pq.contents q', key a ≤ key b
  /-- The others are not due at the last reading. -/
  ahead : pq.contents q' = 0 ∨ ∃ k, n ≤ k ∧ n' = k + 1 ∧ ∀ b ∈ pq.contents q', clock k < key b

variable {pq : PriorityQueue Q key} {clock : ℕ → D} {fuel n : ℕ} {q rest : Q} {a : α}

/-- What was in the queue comes out or stays. -/
theorem Expired.mem_contents {due : List α} {n' : ℕ} {q' : Q} (h : Expired pq clock n q due n' q') :
    a ∈ pq.contents q ↔ a ∈ due ∨ a ∈ pq.contents q' := by
  rw [h.contents, Multiset.mem_add, Multiset.mem_coe]

/-- Nothing is taken. -/
theorem Expired.nil {n' : ℕ} (h : pq.contents q = 0 ∨
    ∃ k, n ≤ k ∧ n' = k + 1 ∧ ∀ b ∈ pq.contents q, clock k < key b) (hn : n ≤ n')
    (hn' : n' ≤ n + 1) : Expired pq clock n q [] n' q where
  contents := (Multiset.zero_add _).symm
  readings := hn
  bounded := hn'
  reached := nofun
  sorted := .nil
  first := nofun
  ahead := h

/-- One more is taken in front. -/
theorem Expired.cons {due : List α} {n' : ℕ} {q' : Q} (hpop : pq.pop q = some (a, rest))
    (hdue : key a ≤ clock n) (h : Expired pq clock (n + 1) rest due n' q') :
    Expired pq clock n q (a :: due) n' q' := by
  have hleast : ∀ b ∈ pq.contents rest, key a ≤ key b := pq.least hpop
  constructor
  · rw [pq.contents_pop hpop, h.contents, ← Multiset.cons_coe, Multiset.cons_add]
  · exact Nat.le_of_succ_le h.readings
  · have hbounded := h.bounded
    rw [List.length_cons]
    omega
  · intro b hb
    rcases List.mem_cons.mp hb with rfl | hb
    · exact ⟨n, le_rfl, h.readings, hdue⟩
    · obtain ⟨k, hk, hreached⟩ := h.reached b hb
      exact ⟨k, Nat.le_of_succ_le hk, hreached⟩
  · exact List.pairwise_cons.mpr ⟨fun b hb => hleast b (h.mem_contents.mpr (Or.inl hb)), h.sorted⟩
  · intro b hb c hc
    rcases List.mem_cons.mp hb with rfl | hb
    · exact hleast c (h.mem_contents.mpr (Or.inr hc))
    · exact h.first b hb c hc
  · exact h.ahead.imp_right fun ⟨k, hk, hlast⟩ => ⟨k, Nat.le_of_succ_le hk, hlast⟩

/-- **What is due comes out.** With fuel for all entries, those that come out are the ones that
the clock has reached, in order, and the others are not due. -/
theorem expired (hfuel : (pq.contents q).card ≤ fuel) :
    Expired pq clock n q (pq.expire clock fuel n q).1 (pq.expire clock fuel n q).2.1
      (pq.expire clock fuel n q).2.2 := by
  induction fuel generalizing n q with
  | zero =>
    have hempty : pq.contents q = 0 := Multiset.card_eq_zero.mp (Nat.le_zero.mp hfuel)
    exact .nil (Or.inl hempty) le_rfl (Nat.le_succ n)
  | succ fuel ih =>
    rw [expire]
    cases hpop : pq.pop q with
    | none => exact .nil (Or.inl (pq.contents_of_pop hpop)) le_rfl (Nat.le_succ n)
    | some call =>
      obtain ⟨a, rest⟩ := call
      have hcontents := pq.contents_pop hpop
      dsimp only
      split_ifs with hearly
      · refine .nil (Or.inr ⟨n, le_rfl, rfl, fun b hb => ?_⟩) (Nat.le_succ n) le_rfl
        rw [hcontents, Multiset.mem_cons] at hb
        rcases hb with rfl | hb
        · exact hearly
        · exact lt_of_lt_of_le hearly (pq.least hpop b hb)
      · rw [hcontents, Multiset.card_cons] at hfuel
        exact .cons hpop (not_lt.mp hearly) (ih (Nat.le_of_succ_le_succ hfuel))

end PriorityQueue

/-! ## Sorted lists -/

/-- A list in the order of its keys. -/
structure SortedList (key : α → D) where
  entries : List α
  sorted : entries.Pairwise (key · ≤ key ·)

/-- Insert an entry behind those with the same key. -/
def insertBehind (key : α → D) (a : α) (l : List α) : List α :=
  l.orderedInsert (fun a b => key a < key b) a

theorem pairwise_insertBehind {a : α} {l : List α} (h : l.Pairwise (key · ≤ key ·)) :
    (insertBehind key a l).Pairwise (key · ≤ key ·) := by
  induction l with
  | nil => exact List.pairwise_singleton _ a
  | cons b l ih =>
    obtain ⟨hb, hl⟩ := List.pairwise_cons.mp h
    rw [insertBehind, List.orderedInsert_cons]
    split_ifs with hlt
    · refine List.pairwise_cons.mpr ⟨fun c hc => ?_, h⟩
      rcases List.mem_cons.mp hc with rfl | hc
      · exact le_of_lt hlt
      · exact le_trans (le_of_lt hlt) (hb c hc)
    · refine List.pairwise_cons.mpr ⟨fun c hc => ?_, ih hl⟩
      rcases (List.mem_orderedInsert _).mp hc with rfl | hc
      · exact not_lt.mp hlt
      · exact hb c hc

/-- Sorted lists as priority queues. -/
def SortedList.priorityQueue (key : α → D) : PriorityQueue (SortedList key) key where
  empty := ⟨[], .nil⟩
  push a q := ⟨insertBehind key a q.entries, pairwise_insertBehind q.sorted⟩
  pop q :=
    match q with
    | ⟨[], _⟩ => none
    | ⟨a :: l, h⟩ => some (a, ⟨l, (List.pairwise_cons.mp h).2⟩)
  contents q := q.entries
  contents_empty := rfl
  contents_push a q := Multiset.coe_eq_coe.mpr (List.perm_orderedInsert _ a q.entries)
  contents_pop := by
    rintro ⟨_ | ⟨a, l⟩, h⟩ _ _ ⟨⟩
    rfl
  least := by
    rintro ⟨_ | ⟨a, l⟩, h⟩ _ _ ⟨⟩
    exact (List.pairwise_cons.mp h).1
  contents_of_pop := by
    rintro ⟨_ | ⟨a, l⟩, h⟩ hnone
    · rfl
    · cases hnone

/-! ## The first element that a test admits -/

/-- An element that is taken is one of the list's. -/
theorem perm_of_find? {p : α → Bool} {l : List α} {a : α} (h : l.find? p = some a) :
    l.Perm (a :: l.eraseP p) := by
  obtain ⟨ha, before, after, rfl, hbefore⟩ := List.find?_eq_some_iff_append.mp h
  have hrefused : ∀ b ∈ before, ¬ p b = true := by
    intro b hb
    simpa using hbefore b hb
  rw [List.eraseP_append_right _ hrefused, List.eraseP_cons_of_pos ha]
  exact List.perm_middle

/-- If the elements in `P` are admitted whenever the one that is taken is in `P`, then this one
was the first of them. -/
theorem filter_eq_of_find? {p P : α → Bool} {l : List α} {a : α} (h : l.find? p = some a)
    (hP : P a = true → ∀ b, P b = true → p b = true) :
    l.filter P = [a].filter P ++ (l.eraseP p).filter P := by
  obtain ⟨ha, before, after, rfl, hbefore⟩ := List.find?_eq_some_iff_append.mp h
  have hrefused : ∀ b ∈ before, ¬ p b = true := by
    intro b hb
    simpa using hbefore b hb
  rw [List.eraseP_append_right _ hrefused, List.eraseP_cons_of_pos ha, List.filter_append,
    List.filter_append, List.filter_cons]
  by_cases hPa : P a = true
  · have hnone : before.filter P = [] := by
      refine List.filter_eq_nil_iff.mpr fun b hb hPb => hrefused b hb (hP hPa b hPb)
    simp [hPa, hnone]
  · simp [hPa]

/-- When an element is taken from a list, any other one stays, and has no more in front of it. -/
theorem eq_or_eraseP_of_find? {p : α → Bool} {front behind : List α} {e a : α}
    (h : (front ++ e :: behind).find? p = some a) :
    a = e ∨ ∃ front' behind', (front ++ e :: behind).eraseP p = front' ++ e :: behind' ∧
      front'.length ≤ front.length ∧ (p e = true → front'.length < front.length) := by
  by_cases hfront : ∃ b ∈ front, p b = true
  · obtain ⟨b, hb, hpb⟩ := hfront
    have hlength := List.length_eraseP_of_mem hb hpb
    have hpos := List.length_pos_of_mem hb
    refine Or.inr ⟨front.eraseP p, behind, List.eraseP_append_left hpb _ hb, ?_, fun _ => ?_⟩
    · omega
    · omega
  · have hrefused : ∀ b ∈ front, ¬ p b = true := fun b hb hpb => hfront ⟨b, hb, hpb⟩
    rw [List.find?_append, List.find?_eq_none.mpr hrefused, Option.none_or] at h
    by_cases he : p e = true
    · rw [List.find?_cons_of_pos he] at h
      exact Or.inl (Option.some.inj h).symm
    · refine Or.inr ⟨front, behind.eraseP p, ?_, le_rfl, fun h => absurd h he⟩
      rw [List.eraseP_append_right _ hrefused, List.eraseP_cons_of_neg he]

end Lib
