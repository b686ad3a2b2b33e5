import Mathlib.Data.List.Basic
import Mathlib.Data.List.TakeWhile

/-!
# Lists of decimal integers as text

A list of numbers is written in decimal, with commas between and with white space
anywhere around a number. The reader splits at commas, strips each piece and refuses
anything that is not a decimal numeral.

## Main definitions

* `decimal` — the decimal numeral of a number
* `readInts` — the reader of comma-separated numerals
* `readList` — the same with blank text as the empty list

## Main results

* `readInts_append` — the reader on two texts joined by a comma
* `readInts_rows`, `readList_rows` — numbers written in rows are read back
-/

namespace Lib

/-- The decimal numeral of a number. -/
def decimal (n : ℕ) : List Char := Nat.toDigits 10 n

/-- The text without the white space around it. -/
def strip (text : List Char) : List Char :=
  ((text.dropWhile Char.isWhitespace).reverse.dropWhile Char.isWhitespace).reverse

/-- The number a decimal numeral denotes. -/
def readDecimal (text : List Char) : Option ℕ :=
  if text ≠ [] ∧ text.all Char.isDigit then some (Nat.ofDigitChars 10 text 0) else none

/-- The numbers of a comma-separated list. -/
def readInts (text : List Char) : Option (List ℕ) :=
  (text.splitOn ',').mapM fun piece => readDecimal (strip piece)

/-- The numbers of a comma-separated list, which may be empty. -/
def readList (text : List Char) : Option (List ℕ) :=
  if text.all Char.isWhitespace then some [] else readInts text

variable {n : ℕ} {pre post text a b : List Char} {xs ys row : List ℕ} {rows : List (List ℕ)}

theorem isDigit_of_mem_decimal {c : Char} (h : c ∈ decimal n) : c.isDigit :=
  Nat.isDigit_of_mem_toDigits (by decide) (by decide) h

theorem decimal_ne_nil (n : ℕ) : decimal n ≠ [] := Nat.toDigits_ne_nil

@[simp] theorem readDecimal_decimal (n : ℕ) : readDecimal (decimal n) = some n := by
  have hdigits : (decimal n).all Char.isDigit :=
    List.all_eq_true.mpr fun _ => isDigit_of_mem_decimal
  rw [readDecimal, if_pos ⟨decimal_ne_nil n, hdigits⟩, decimal, Nat.ofDigitChars_ten_toDigits]

/-- A digit is neither white space nor a comma. -/
theorem not_isWhitespace_of_isDigit {c : Char} (h : c.isDigit) : c.isWhitespace = false := by
  simp only [Char.isDigit, Bool.and_eq_true, decide_eq_true_eq] at h
  simp only [Char.isWhitespace, Bool.or_eq_false_iff, decide_eq_false_iff_not]
  refine ⟨⟨⟨?_, ?_⟩, ?_⟩, ?_⟩ <;> rintro rfl <;> revert h <;> decide

theorem dropWhile_append_of_ne_nil {p : Char → Bool} (htext : ∀ c ∈ text, p c = false)
    (hne : text ≠ []) : (text ++ post).dropWhile p = text ++ post := by
  cases text with
  | nil => exact absurd rfl hne
  | cons c text =>
    rw [List.cons_append, List.dropWhile_cons_of_neg]
    simpa using htext c List.mem_cons_self

/-- White space around a numeral is stripped. -/
theorem strip_decimal (hpre : ∀ c ∈ pre, c.isWhitespace) (hpost : ∀ c ∈ post, c.isWhitespace) :
    strip (pre ++ decimal n ++ post) = decimal n := by
  have hdigits : ∀ c ∈ decimal n, c.isWhitespace = false := fun c hc =>
    not_isWhitespace_of_isDigit (isDigit_of_mem_decimal hc)
  -- white space is dropped in front, and then, from the other end, behind
  have hreverse : ∀ c ∈ (decimal n).reverse, c.isWhitespace = false := by simpa using hdigits
  have hne : (decimal n).reverse ≠ [] := by simpa using decimal_ne_nil n
  have hlast : (decimal n).reverse.dropWhile Char.isWhitespace = (decimal n).reverse := by
    rw [← List.append_nil (decimal n).reverse]
    exact dropWhile_append_of_ne_nil hreverse hne
  rw [strip, List.append_assoc, List.dropWhile_append_of_pos hpre,
    dropWhile_append_of_ne_nil hdigits (decimal_ne_nil n), List.reverse_append,
    List.dropWhile_append_of_pos (by simpa using hpost), hlast, List.reverse_reverse]

theorem comma_notMem (hpre : ∀ c ∈ pre, c.isWhitespace) : ',' ∉ pre :=
  fun h => absurd (hpre ',' h) (by decide)

theorem comma_notMem_decimal : ',' ∉ decimal n :=
  fun h => absurd (isDigit_of_mem_decimal h) (by decide)

/-- A numeral with white space around it is read. -/
theorem readInts_decimal (hpre : ∀ c ∈ pre, c.isWhitespace) (hpost : ∀ c ∈ post, c.isWhitespace) :
    readInts (pre ++ decimal n ++ post) = some [n] := by
  have hcomma : ',' ∉ pre ++ decimal n ++ post := by
    simp [comma_notMem hpre, comma_notMem hpost, comma_notMem_decimal]
  rw [readInts, List.splitOn_eq_singleton hcomma, List.mapM_cons, strip_decimal hpre hpost,
    readDecimal_decimal]
  rfl

/-- Two lists joined by a comma are read one after the other. -/
theorem readInts_append (ha : readInts a = some xs) (hb : readInts b = some ys) :
    readInts (a ++ ',' :: b) = some (xs ++ ys) := by
  rw [readInts, List.splitOn_append_cons_self, List.mapM_append]
  rw [readInts] at ha hb
  rw [ha, hb]
  rfl

/-- Numbers with commas between are read back. -/
theorem readInts_row (hrow : row ≠ []) (hpre : ∀ c ∈ pre, c.isWhitespace)
    (hpost : ∀ c ∈ post, c.isWhitespace) :
    readInts (pre ++ [','].intercalate (row.map decimal) ++ post) = some row := by
  induction row generalizing pre with
  | nil => exact absurd rfl hrow
  | cons n row ih =>
    cases row with
    | nil =>
      -- a single number, between the white space on both sides
      rw [List.map_cons, List.map_nil, List.intercalate_singleton]
      exact readInts_decimal hpre hpost
    | cons m row =>
      have hfirst : readInts (pre ++ decimal n ++ []) = some [n] := readInts_decimal hpre (by simp)
      have hrest : readInts ([] ++ [','].intercalate ((m :: row).map decimal) ++ post) =
          some (m :: row) := by
        apply ih (List.cons_ne_nil m row)
        simp
      rw [List.append_nil] at hfirst
      rw [List.nil_append] at hrest
      have hjoin := readInts_append hfirst hrest
      rw [List.map_cons, List.map_cons, List.intercalate_cons_cons, ← List.map_cons]
      simpa using hjoin

/-- Numbers in rows, with a comma and a line break between two rows, are read back. -/
theorem readInts_rows (hrows : rows ≠ []) (hne : ∀ row ∈ rows, row ≠ [])
    (hpre : ∀ c ∈ pre, c.isWhitespace) (hpost : ∀ c ∈ post, c.isWhitespace) :
    readInts (pre ++ [',', '\n'].intercalate
      (rows.map fun row => [','].intercalate (row.map decimal)) ++ post) = some rows.flatten := by
  induction rows generalizing pre with
  | nil => exact absurd rfl hrows
  | cons row rows ih =>
    have hrow := hne row List.mem_cons_self
    cases rows with
    | nil =>
      rw [List.map_cons, List.map_nil, List.intercalate_singleton, List.flatten_singleton]
      exact readInts_row hrow hpre hpost
    | cons row' rows =>
      have hfirst : readInts (pre ++ [','].intercalate (row.map decimal) ++ []) = some row := by
        apply readInts_row hrow hpre
        simp
      -- the line break after the joining comma is white space before the next row
      have hrest : readInts (['\n'] ++ [',', '\n'].intercalate
          ((row' :: rows).map fun row => [','].intercalate (row.map decimal)) ++ post) =
            some (row' :: rows).flatten := by
        apply ih (List.cons_ne_nil row' rows) fun r hr => hne r (List.mem_cons_of_mem row hr)
        exact List.forall_mem_singleton.mpr (by decide)
      rw [List.append_nil] at hfirst
      have hjoin := readInts_append hfirst hrest
      rw [List.map_cons, List.map_cons, List.intercalate_cons_cons, List.flatten_cons]
      simpa using hjoin

/-- A character of joined pieces is in the separator or in a piece. -/
theorem notMem_intercalate {c : Char} {sep : List Char} {pieces : List (List Char)}
    (hsep : c ∉ sep) (hpieces : ∀ piece ∈ pieces, c ∉ piece) : c ∉ sep.intercalate pieces := by
  induction pieces with
  | nil => simp
  | cons piece pieces ih =>
    have hpiece := hpieces piece List.mem_cons_self
    have hrest := ih fun p hp => hpieces p (List.mem_cons_of_mem piece hp)
    cases pieces with
    | nil => simpa using hpiece
    | cons piece' pieces =>
      rw [List.intercalate_cons_cons]
      simp [hpiece, hsep, hrest]

/-- A list is read up to the first separator. -/
theorem takeWhile_ne_append {α : Type*} [DecidableEq α] {sep : α} {l rest : List α}
    (h : sep ∉ l) : (l ++ sep :: rest).takeWhile (· ≠ sep) = l := by
  have hkeep : ∀ a ∈ l, decide (a ≠ sep) = true := by
    intro a ha
    apply decide_eq_true
    rintro rfl
    exact h ha
  rw [List.takeWhile_append_of_pos hkeep, List.takeWhile_cons_of_neg (by simp), List.append_nil]

/-- Blank text has no numeral in it. -/
theorem readInts_blank (h : ∀ c ∈ text, c.isWhitespace) : readInts text = none := by
  have hstrip : strip text = [] := by
    rw [strip, List.dropWhile_eq_nil_iff.mpr h]
    rfl
  rw [readInts, List.splitOn_eq_singleton (comma_notMem h), List.mapM_cons, hstrip]
  rfl

theorem readList_of_readInts (h : readInts text = some xs) : readList text = some xs := by
  rw [readList, if_neg, h]
  intro hblank
  rw [readInts_blank (List.all_eq_true.mp hblank)] at h
  cases h

/-- Numbers in rows are read back, also when there is no row. -/
theorem readList_rows (hne : ∀ row ∈ rows, row ≠ []) (hpre : ∀ c ∈ pre, c.isWhitespace)
    (hpost : ∀ c ∈ post, c.isWhitespace) :
    readList (pre ++ [',', '\n'].intercalate
      (rows.map fun row => [','].intercalate (row.map decimal)) ++ post) = some rows.flatten := by
  cases rows with
  | nil =>
    rw [List.map_nil, List.intercalate_nil, List.append_nil, readList, if_pos]
    · rfl
    · apply List.all_eq_true.mpr
      intro c hc
      exact (List.mem_append.mp hc).elim (hpre c) (hpost c)
  | cons row rows =>
    apply readList_of_readInts
    exact readInts_rows (List.cons_ne_nil row rows) hne hpre hpost

end Lib
