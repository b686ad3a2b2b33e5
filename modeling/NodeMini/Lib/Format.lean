import Mathlib.Data.List.Basic

/-!
# Replacement fields in a text

The format strings of `str.format`: a name in braces stands for a field, a doubled brace
for the brace itself. The reader goes through the text one character at a time and fails
on a brace without a partner and on an unknown name.

## Main definitions

* `format` — a text with its replacement fields filled in

## Main results

* `formatFrom_literal`, `formatFrom_field` — text without braces is kept, a field is
  replaced
* `formatFrom_isSome_congr` — success depends on the names of the fields only
-/

namespace Lib

/-- Where the reader of a format string stands. -/
inductive FormatState
  | text
  | openBrace
  | closeBrace
  | field (name : List Char)
  deriving DecidableEq, Repr

/-- The values of the fields. -/
abbrev Fields := List (List Char × List Char)

/-- Format the rest of a text. -/
def formatFrom (fields : Fields) : FormatState → List Char → Option (List Char)
  | .text, [] => some []
  | .openBrace, [] | .closeBrace, [] | .field _, [] => none
  | .text, c :: rest =>
    if c = '{' then formatFrom fields .openBrace rest
    else if c = '}' then formatFrom fields .closeBrace rest
    else (formatFrom fields .text rest).map (c :: ·)
  | .openBrace, c :: rest =>
    if c = '{' then (formatFrom fields .text rest).map (c :: ·)
    else if c = '}' then none
    else formatFrom fields (.field [c]) rest
  | .closeBrace, c :: rest =>
    if c = '}' then (formatFrom fields .text rest).map (c :: ·) else none
  | .field name, c :: rest =>
    -- the value is inserted as it is: braces in it are not read again
    if c = '}' then do
      let value ← fields.lookup name
      let rest ← formatFrom fields .text rest
      return value ++ rest
    else formatFrom fields (.field (name ++ [c])) rest

/-- `text.format(...)`. -/
def format (fields : Fields) (text : List Char) : Option (List Char) := formatFrom fields .text text

variable {fields : Fields} {text rest name value out : List Char} {c : Char}

/-- Text without braces is kept. -/
theorem formatFrom_literal (hopen : '{' ∉ text) (hclose : '}' ∉ text) :
    formatFrom fields .text (text ++ rest) = (formatFrom fields .text rest).map (text ++ ·) := by
  induction text with
  | nil => simp
  | cons c text ih =>
    rw [List.mem_cons, not_or] at hopen hclose
    rw [List.cons_append, formatFrom, if_neg (Ne.symm hopen.1), if_neg (Ne.symm hclose.1),
      ih hopen.2 hclose.2, Option.map_map]
    rfl

theorem formatFrom_field_name {before : List Char} (hclose : '}' ∉ name)
    (hvalue : fields.lookup (before ++ name) = some value) :
    formatFrom fields (.field before) (name ++ '}' :: rest) =
      (formatFrom fields .text rest).map (value ++ ·) := by
  induction name generalizing before with
  | nil =>
    rw [List.append_nil] at hvalue
    rw [List.nil_append, formatFrom, if_pos rfl, hvalue]
    cases formatFrom fields .text rest <;> rfl
  | cons c name ih =>
    rw [List.mem_cons, not_or] at hclose
    rw [List.cons_append, formatFrom, if_neg (Ne.symm hclose.1), ih hclose.2]
    rwa [List.append_assoc, List.singleton_append]

/-- A field is replaced by its value. -/
theorem formatFrom_field (hopen : c ≠ '{') (hclose : '}' ∉ c :: name)
    (hvalue : fields.lookup (c :: name) = some value) :
    formatFrom fields .text ('{' :: c :: (name ++ '}' :: rest)) =
      (formatFrom fields .text rest).map (value ++ ·) := by
  rw [List.mem_cons, not_or] at hclose
  rw [formatFrom, if_pos rfl, formatFrom, if_neg hopen, if_neg (Ne.symm hclose.1)]
  exact formatFrom_field_name hclose.2 hvalue

theorem formatFrom_openBrace :
    formatFrom fields .text ('{' :: '{' :: rest) =
      (formatFrom fields .text rest).map ('{' :: ·) := by
  rw [formatFrom, if_pos rfl, formatFrom, if_pos rfl]

theorem formatFrom_closeBrace :
    formatFrom fields .text ('}' :: '}' :: rest) =
      (formatFrom fields .text rest).map ('}' :: ·) := by
  rw [formatFrom, if_neg (by decide), if_pos rfl, formatFrom, if_pos rfl]

theorem formatFrom_field_end :
    (formatFrom fields (.field name) ('}' :: rest)).isSome =
      ((fields.lookup name).isSome && (formatFrom fields .text rest).isSome) := by
  rw [formatFrom, if_pos rfl]
  cases fields.lookup name with
  | none => rfl
  | some value => cases formatFrom fields .text rest <;> rfl

/-- Whether formatting succeeds depends on the names of the fields only. -/
theorem formatFrom_isSome_congr {fields' : Fields}
    (h : ∀ name, (fields.lookup name).isSome = (fields'.lookup name).isSome)
    (state : FormatState) (text : List Char) :
    (formatFrom fields state text).isSome = (formatFrom fields' state text).isSome := by
  induction text generalizing state with
  | nil => cases state <;> rfl
  | cons c rest ih =>
    cases state with
    | text =>
      simp only [formatFrom]
      split_ifs
      · exact ih _
      · exact ih _
      · rw [Option.isSome_map, Option.isSome_map, ih]
    | openBrace =>
      simp only [formatFrom]
      split_ifs
      · rw [Option.isSome_map, Option.isSome_map, ih]
      · rfl
      · exact ih _
    | closeBrace =>
      simp only [formatFrom]
      split_ifs
      · rw [Option.isSome_map, Option.isSome_map, ih]
      · rfl
    | field name =>
      -- at the end of a name the two sets of fields are compared
      by_cases hc : c = '}'
      · rw [hc, formatFrom_field_end, formatFrom_field_end, h name, ih]
      · rw [formatFrom, if_neg hc, formatFrom, if_neg hc, ih]

end Lib
