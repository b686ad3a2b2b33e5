import Mathlib.Data.List.Basic

/-!
# A list in rows

A list is cut into rows at the indices `0, step, 2 * step, …`; the last row is what is
left. The same indices pair up the elements of a list of even length.

## Main definitions

* `xrange` — the indices
* `slices` — the rows at these indices
* `pairs` — neighbouring elements joined two by two

## Main results

* `flatten_slices` — the rows are the list, for every positive step
* `ne_nil_of_mem_slices` — no row is empty
* `pairs_flatMap` — elements written as two parts each are read back
-/

namespace Lib

variable {α β γ : Type*} {n step : ℕ} {l row : List α}

/-- `xrange(0, n, step)`: the multiples of a positive step below `n`. -/
def xrange (n step : ℕ) : List ℕ := List.range' 0 ((n + step - 1) / step) step

/-- The rows `l[i:i+step]`. -/
def slices (step : ℕ) (l : List α) : List (List α) :=
  (xrange l.length step).map fun i => (l.drop i).take step

/-- The pair at an index, joined; `none` when an index is out of range. -/
def pairAt (join : α → α → β) (l : List α) (i : ℕ) : Option β :=
  l[i]?.bind fun first => l[i + 1]?.map (join first)

/-- `[join(l[i], l[i+1]) for i in xrange(0, len(l), 2)]`. -/
def pairs (join : α → α → β) (l : List α) : Option (List β) :=
  (xrange l.length 2).mapM (pairAt join l)

theorem xrange_zero (hstep : 0 < step) : xrange 0 step = [] := by
  rw [xrange, Nat.zero_add, Nat.div_eq_of_lt (by omega)]
  rfl

/-- The first index is zero, the others are those of the rest, shifted. -/
theorem xrange_pos (hstep : 0 < step) (hn : 0 < n) :
    xrange n step = 0 :: (xrange (n - step) step).map (step + ·) := by
  have hcount : (n + step - 1) / step = (n - step + step - 1) / step + 1 := by
    -- one row in all, or one row more than the rest has
    rcases Nat.lt_or_ge n step with hlt | hge
    · have hone : (n + step - 1) / step = 1 := by
        apply Nat.div_eq_of_lt_le <;> omega
      have hzero : (n - step + step - 1) / step = 0 := Nat.div_eq_of_lt (by omega)
      rw [hone, hzero]
    · have hsplit : n + step - 1 = n - step + step - 1 + step := by omega
      rw [hsplit, Nat.add_div_right _ hstep]
  rw [xrange, hcount, List.range'_succ, xrange, List.map_add_range', Nat.add_comm step 0]

theorem lt_of_mem_xrange (hstep : 0 < step) {i : ℕ} (h : i ∈ xrange n step) : i < n := by
  obtain ⟨k, hk, rfl⟩ := List.mem_range'.mp h
  have hmul : (k + 1) * step ≤ n + step - 1 :=
    (Nat.le_div_iff_mul_le hstep).mp hk
  rw [Nat.add_one_mul] at hmul
  have hcomm := Nat.mul_comm step k
  omega

theorem slices_nil (hstep : 0 < step) : slices step ([] : List α) = [] := by
  rw [slices, List.length_nil, xrange_zero hstep]
  rfl

/-- The first row is the first elements, the others are the rows of the rest. -/
theorem slices_of_ne_nil (hstep : 0 < step) (hl : l ≠ []) :
    slices step l = l.take step :: slices step (l.drop step) := by
  rw [slices, xrange_pos hstep (List.length_pos_iff.mpr hl), List.map_cons, List.drop_zero,
    List.map_map, slices, List.length_drop]
  congr 1
  apply List.map_congr_left
  intro i _
  rw [Function.comp_apply, List.drop_drop]

/-- No element is lost, doubled or moved by cutting a list into rows. -/
theorem flatten_slices (hstep : 0 < step) (l : List α) : (slices step l).flatten = l := by
  -- each row takes at least one element off, so the length carries the induction
  induction hlength : l.length using Nat.strongRecOn generalizing l with
  | ind m ih =>
    by_cases hl : l = []
    · rw [hl, slices_nil hstep]
      rfl
    · have hpos := List.length_pos_iff.mpr hl
      have hshorter : (l.drop step).length < m := by
        rw [List.length_drop]
        omega
      rw [slices_of_ne_nil hstep hl, List.flatten_cons, ih _ hshorter _ rfl,
        List.take_append_drop]

theorem ne_nil_of_mem_slices (hstep : 0 < step) (h : row ∈ slices step l) : row ≠ [] := by
  obtain ⟨i, hi, rfl⟩ := List.mem_map.mp h
  have hlt := lt_of_mem_xrange hstep hi
  apply List.ne_nil_of_length_pos
  rw [List.length_take, List.length_drop]
  omega

theorem pairs_nil (join : α → α → β) : pairs join [] = some [] := by
  rw [pairs, List.length_nil, xrange_zero (by decide)]
  rfl

theorem pairs_cons_cons (join : α → α → β) (a b : α) (l : List α) :
    pairs join (a :: b :: l) = (pairs join l).map (join a b :: ·) := by
  have hlength : (a :: b :: l).length - 2 = l.length := rfl
  -- past the first pair every index is two further on
  have hshift : ∀ i, pairAt join (a :: b :: l) (2 + i) = pairAt join l i := by
    intro i
    rw [Nat.add_comm]
    rfl
  have hpos : 0 < (a :: b :: l).length := Nat.succ_pos _
  rw [pairs, xrange_pos (by decide) hpos, hlength, List.mapM_cons, List.mapM_map,
    Function.comp_def]
  simp only [hshift]
  rw [pairs]
  cases (xrange l.length 2).mapM (pairAt join l) <;> rfl

/-- Elements written as two parts each are read back. -/
theorem pairs_flatMap {f g : β → α} {join : α → α → γ} {h : β → γ}
    (hjoin : ∀ b, join (f b) (g b) = h b) (bs : List β) :
    pairs join (bs.flatMap fun b => [f b, g b]) = some (bs.map h) := by
  induction bs with
  | nil => exact pairs_nil join
  | cons b bs ih =>
    rw [List.flatMap_cons, List.cons_append, List.singleton_append, pairs_cons_cons, ih, hjoin]
    rfl

end Lib
