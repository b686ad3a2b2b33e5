import Mathlib.Data.List.Induction
import Mathlib.Data.List.Nodup

/-!
# Which requests a cache lets through

A cache in front of a supplier forwards a request unless it already holds the answer.
Whether an answer can be held at all is a property of the request, so the requests that
get through are all of them, less the repetitions of the cacheable ones.

## Main definitions

* `forwarded` — the requests a cache forwards, in order

## Main results

* `forwarded_concat` — what one more request does
* `forwarded_nodup_iff` — every request is forwarded at most once exactly when no
  uncacheable request is repeated
* `forwarded_eq_eraseDups` — the requests forwarded are then the distinct ones in order
-/

namespace Lib

variable {α : Type*} [BEq α]

/-- The requests that reach the supplier: a cacheable request only the first time. -/
def forwarded (cacheable : α → Prop) [DecidablePred cacheable] : List α → List α
  | [] => []
  | a :: l =>
    a :: if cacheable a then (forwarded cacheable l).filter (· != a) else forwarded cacheable l

variable [LawfulBEq α] {cacheable : α → Prop} [DecidablePred cacheable] {a b : α} {l : List α}

@[simp] theorem mem_forwarded : a ∈ forwarded cacheable l ↔ a ∈ l := by
  induction l with
  | nil => rfl
  | cons b l ih =>
    by_cases hab : a = b
    · simp [forwarded, hab]
    · rw [forwarded, List.mem_cons, List.mem_cons]
      split <;> simp [hab, ih]

/-- One more request is forwarded unless it is cacheable and not new. -/
theorem forwarded_concat :
    forwarded cacheable (l ++ [a]) =
      if cacheable a ∧ a ∈ l then forwarded cacheable l else forwarded cacheable l ++ [a] := by
  induction l with
  | nil => simp [forwarded]
  | cons b l ih =>
    rw [List.cons_append, forwarded, forwarded, ih]
    by_cases hab : a = b
    · -- the new request repeats the first one
      subst hab
      by_cases ha : cacheable a
      · by_cases hal : a ∈ l <;> simp [ha, hal]
      · simp [ha]
    · by_cases hc : cacheable a ∧ a ∈ l
      · simp [hc.1, hc.2]
      · have hnot : ¬ (cacheable a ∧ a ∈ b :: l) := by simpa [hab] using hc
        rw [if_neg hc, if_neg hnot]
        split <;> simp [hab]

theorem count_forwarded_of_cacheable (ha : cacheable a) :
    (forwarded cacheable l).count a ≤ 1 := by
  induction l with
  | nil => simp [forwarded]
  | cons b l ih =>
    by_cases hab : b = a
    · -- after its first occurrence the filter leaves none
      subst hab
      have hnot : b ∉ (forwarded cacheable l).filter (· != b) := fun h => by
        simpa using List.of_mem_filter h
      have hcount : (forwarded cacheable (b :: l)).count b = 1 := by
        rw [forwarded, if_pos ha, List.count_cons_self, List.count_eq_zero_of_not_mem hnot]
      exact Nat.le_of_eq hcount
    · rw [forwarded, List.count_cons_of_ne hab]
      split
      · exact Nat.le_trans (List.filter_sublist.count_le a) ih
      · exact ih

theorem count_forwarded_of_not_cacheable (ha : ¬ cacheable a) :
    (forwarded cacheable l).count a = l.count a := by
  induction l with
  | nil => rfl
  | cons b l ih =>
    rw [forwarded, List.count_cons, List.count_cons, ← ih]
    split
    · have hba : a ≠ b := fun h => ha (h ▸ ‹cacheable b›)
      rw [List.count_filter (by simpa using hba)]
    · rfl

/-- Every request gets through at most once exactly when no uncacheable request is
repeated. -/
theorem forwarded_nodup_iff :
    (forwarded cacheable l).Nodup ↔ ∀ a, ¬ cacheable a → l.count a ≤ 1 := by
  rw [List.nodup_iff_count_le_one]
  constructor
  · intro h a ha
    rw [← count_forwarded_of_not_cacheable ha]
    exact h a
  · intro h a
    by_cases ha : cacheable a
    · exact count_forwarded_of_cacheable ha
    · rw [count_forwarded_of_not_cacheable ha]
      exact h a ha

/-- Among the cacheable requests nothing gets through twice. -/
theorem filter_forwarded_nodup {p : α → Bool} (h : ∀ a, p a → cacheable a) :
    ((forwarded cacheable l).filter p).Nodup := by
  rw [List.nodup_iff_count_le_one]
  intro a
  by_cases ha : p a
  · exact Nat.le_trans (List.filter_sublist.count_le a) (count_forwarded_of_cacheable (h a ha))
  · have hnot : a ∉ (forwarded cacheable l).filter p := fun hmem => ha (List.of_mem_filter hmem)
    rw [List.count_eq_zero_of_not_mem hnot]
    exact Nat.zero_le 1

/-- If every request gets through at most once, the requests that do are the distinct
ones in order of first occurrence. -/
theorem forwarded_eq_eraseDups (h : ∀ a, ¬ cacheable a → l.count a ≤ 1) :
    forwarded cacheable l = l.eraseDups := by
  induction l using List.reverseRecOn with
  | nil => rfl
  | append_singleton l a ih =>
    have hl : ∀ b, ¬ cacheable b → l.count b ≤ 1 := fun b hb =>
      Nat.le_trans ((List.sublist_append_left l [a]).count_le b) (h b hb)
    rw [forwarded_concat, ih hl, List.eraseDups_append]
    by_cases hal : a ∈ l
    · -- a repeated request is cacheable: an uncacheable one occurs once
      have ha : cacheable a := by
        by_contra hna
        have hcount := h a hna
        have hpos := List.count_pos_iff.mpr hal
        simp at hcount
        omega
      simp [ha, hal, List.removeAll]
    · simp [hal, List.removeAll, List.eraseDups_cons]

/-- A cache that can hold every answer forwards exactly the distinct requests. -/
theorem forwarded_true (l : List α) : forwarded (fun _ => True) l = l.eraseDups :=
  forwarded_eq_eraseDups fun _ h => absurd trivial h

theorem eraseDups_concat :
    (l ++ [a]).eraseDups = if a ∈ l then l.eraseDups else l.eraseDups ++ [a] := by
  rw [← forwarded_true, ← forwarded_true, forwarded_concat]
  simp

end Lib
