import Mathlib.Data.List.Basic

/-!
# Lines

A line ends with its newline; the last line of a text may lack one. A bounded reader takes
the first line when it fits, and as much of it as fits otherwise.

## Main definitions

* `linesOf` — the lines, each with its newline
* `takeLine` — the bounded reader, and what it leaves

## Main results

* `linesOf_append` — the first line of a text grows at its front
* `takeLine_cases` — what the reader takes of the first line
-/

namespace Lib

variable {α : Type*}

/-- Put `p` in front of the first line. -/
def prependLine (p : List α) : List (List α) → List (List α)
  | [] => [p]
  | line :: lines => (p ++ line) :: lines

theorem prependLine_append (p q : List α) (lines : List (List α)) :
    prependLine (p ++ q) lines = prependLine p (prependLine q lines) := by
  cases lines <;> simp [prependLine]

variable [DecidableEq α]

/-- The lines of a text, each with its newline; a last line without one is included. -/
def linesOf (nl : α) : List α → List (List α)
  | [] => []
  | a :: l => if a = nl then [a] :: linesOf nl l else prependLine [a] (linesOf nl l)

/-- Take up to `k` elements, stopping after a newline; return them and the rest. -/
def takeLine (nl : α) : ℕ → List α → List α × List α
  | 0, l => ([], l)
  | _ + 1, [] => ([], [])
  | k + 1, a :: l => if a = nl then ([a], l) else (a :: (takeLine nl k l).1, (takeLine nl k l).2)

variable {nl a : α} {l p line : List α} {lines : List (List α)} {k : ℕ}

@[simp] theorem linesOf_nil : linesOf nl [] = [] := rfl

theorem linesOf_cons_self : linesOf nl (nl :: l) = [nl] :: linesOf nl l := if_pos rfl

theorem linesOf_cons_of_ne (h : a ≠ nl) : linesOf nl (a :: l) = prependLine [a] (linesOf nl l) :=
  if_neg h

theorem linesOf_eq_nil_iff : linesOf nl l = [] ↔ l = [] := by
  cases l with
  | nil => simp
  | cons a l =>
    rw [linesOf]
    split
    · simp
    · cases linesOf nl l <;> simp [prependLine]

/-- A text without newlines in front of another goes to its first line. -/
theorem linesOf_append (hp : nl ∉ p) (hne : p ≠ []) :
    linesOf nl (p ++ l) = prependLine p (linesOf nl l) := by
  -- the induction is on `p`; its last element meets the first line of `l`
  induction p with
  | nil => exact absurd rfl hne
  | cons a p ih =>
    have ha : a ≠ nl := fun h => hp (h ▸ List.mem_cons_self)
    rw [List.cons_append, linesOf_cons_of_ne ha]
    by_cases hempty : p = []
    · rw [hempty, List.nil_append]
    · rw [ih (fun h => hp (List.mem_cons_of_mem a h)) hempty, ← prependLine_append,
        List.singleton_append]

@[simp] theorem takeLine_nil : takeLine nl k [] = ([], []) := by
  cases k <;> rfl

/-- What is taken and what is left make up the text. -/
theorem takeLine_append (k : ℕ) (l : List α) : (takeLine nl k l).1 ++ (takeLine nl k l).2 = l := by
  induction k generalizing l with
  | zero => rfl
  | succ k ih =>
    cases l with
    | nil => rfl
    | cons a l =>
      rw [takeLine]
      split
      · rfl
      · rw [List.cons_append, ih]

theorem takeLine_ne_nil (hk : 0 < k) (hl : l ≠ []) : (takeLine nl k l).1 ≠ [] := by
  obtain ⟨k, rfl⟩ := Nat.exists_eq_succ_of_ne_zero (Nat.ne_of_gt hk)
  cases l with
  | nil => exact absurd rfl hl
  | cons a l =>
    rw [takeLine]
    split <;> exact List.cons_ne_nil _ _

theorem ne_nil_of_linesOf (h : linesOf nl l = line :: lines) : line ≠ [] := by
  rintro rfl
  cases l with
  | nil => cases h
  | cons a l =>
    rw [linesOf] at h
    split at h
    · cases h
    · cases hl : linesOf nl l <;> rw [hl] at h <;> cases h

/-- Of the first line as much as fits is taken, and the rest of it is left. -/
theorem takeLine_cases (h : linesOf nl l = line :: lines) :
    (takeLine nl k l).1 = line.take k ∧
      linesOf nl (takeLine nl k l).2 = if line.length ≤ k then lines else line.drop k :: lines := by
  induction k generalizing l line with
  | zero =>
    have hpos := List.length_pos_iff.mpr (ne_nil_of_linesOf h)
    exact ⟨rfl, by rw [if_neg (Nat.not_le.mpr hpos)]; exact h⟩
  | succ k ih =>
    cases l with
    | nil => cases h
    | cons a l =>
      by_cases ha : a = nl
      · -- the reader stops here, as the line does
        subst ha
        rw [linesOf_cons_self] at h
        obtain ⟨rfl, rfl⟩ := List.cons.inj h
        simp [takeLine]
      · rw [linesOf_cons_of_ne ha] at h
        rw [takeLine, if_neg ha]
        cases hl : linesOf nl l with
        | nil =>
          -- the text ends here, in a line without newline
          rw [hl] at h
          obtain ⟨rfl, rfl⟩ := List.cons.inj h
          simp [linesOf_eq_nil_iff.mp hl]
        | cons line' lines' =>
          rw [hl] at h
          obtain ⟨rfl, rfl⟩ := List.cons.inj h
          obtain ⟨hfirst, hrest⟩ := ih hl
          simp [hfirst, hrest]

/-- A first line that fits is taken whole. -/
theorem takeLine_of_le (h : linesOf nl l = line :: lines) (hk : line.length ≤ k) :
    (takeLine nl k l).1 = line ∧ linesOf nl (takeLine nl k l).2 = lines := by
  obtain ⟨hfirst, hrest⟩ := takeLine_cases (k := k) h
  rw [if_pos hk] at hrest
  exact ⟨hfirst.trans (List.take_of_length_le hk), hrest⟩

/-- The rest of a longer first line becomes the first line. -/
theorem linesOf_takeLine_of_lt (h : linesOf nl l = line :: lines) (hk : k < line.length) :
    linesOf nl (takeLine nl k l).2 = line.drop k :: lines := by
  rw [(takeLine_cases h).2, if_neg (Nat.not_le.mpr hk)]

end Lib
