import NodeMini.Native.World

/-!
# Printing: `process.cc` and `lib/console.js`

`print` and `print_error` write their arguments to the C stream `stdout`, one after the
other with spaces between, and end the line; the second writes a prefix first. Each
argument is formatted with `%s`, so it is written up to its first zero byte. A `Console`
holds the two functions its methods forward to.

## Main definitions

* `print`, `printError` — the native functions
* `Console`, `Console.log`, `Console.error` — the class of `lib/console.js`

## Main results

* `printArgs_eq_intercalate` — the loop writes the arguments with spaces between
* `zero_notMem_printArgs` — it never writes a zero byte
-/

namespace NodeMini

open Lib

/-- `process::ToCString`. The null pointer of a failed conversion is `none`. -/
def toCString (value : Option CString) : CString :=
  value.getD (CString.ofBuffer (utf8 "<string conversion failed>"))

/-- The bytes `printf("%s", cstr)` writes for an argument: a string, or `none` for a value
that cannot be converted to one. -/
def printedArg (arg : Option JsString) : List UInt8 := (toCString (arg.map utf8Value)).bytes

/-- The loop over the arguments. -/
def printArgs (first : Bool) : List (Option JsString) → List UInt8
  | [] => []
  | arg :: args => (if first then [] else utf8 " ") ++ printedArg arg ++ printArgs false args

/-- `process::print`. -/
def print (w : World) (args : List (Option JsString)) : World :=
  w.cout (printArgs true args ++ utf8 "\n")

/-- `process::print_error`. It prints to `stdout` as well. -/
def printError (w : World) (args : List (Option JsString)) : World :=
  w.cout (utf8 "Error: " ++ printArgs true args ++ utf8 "\n")

/-- The fields of a `Console`: the functions it prints with. -/
structure Console where
  stdout : World → List (Option JsString) → World
  stderr : World → List (Option JsString) → World

/-- `new Console(stdout, stderr)`. A missing argument selects the global function. -/
def newConsole (stdout stderr : Option (World → List (Option JsString) → World)) : Console where
  stdout := stdout.getD print
  stderr := stderr.getD printError

/-- `Console.prototype.log`. -/
def Console.log (console : Console) (w : World) (args : List (Option JsString)) : World :=
  console.stdout w args

/-- `Console.prototype.error`. -/
def Console.error (console : Console) (w : World) (args : List (Option JsString)) : World :=
  console.stderr w args

section

variable {first : Bool} {args : List (Option JsString)}

/-- The loop writes the arguments with single spaces between them. -/
theorem printArgs_eq_intercalate :
    printArgs true args = (utf8 " ").intercalate (args.map printedArg) := by
  induction args with
  | nil => rfl
  | cons arg args ih =>
    cases args with
    | nil => simp [printArgs]
    | cons arg' args =>
      rw [List.map_cons, List.map_cons, List.intercalate_cons_cons, ← List.map_cons, ← ih]
      simp [printArgs]

/-- What `%s` writes contains no zero byte. -/
theorem zero_notMem_printArgs : (0 : UInt8) ∉ printArgs first args := by
  induction args generalizing first with
  | nil => exact List.not_mem_nil
  | cons arg args ih =>
    have hspace : (0 : UInt8) ∉ (if first then [] else utf8 " ") := by
      cases first <;> decide
    rw [printArgs, List.mem_append, List.mem_append]
    -- the separator, the argument, and the rest
    rintro ((h | h) | h)
    · exact hspace h
    · exact (toCString (arg.map utf8Value)).nonzero h
    · exact ih h

/-- An argument without a zero code unit is written whole. -/
theorem printedArg_some {s : JsString} (h : (0 : UInt16) ∉ s) :
    printedArg (some s) = Utf8.encodeUnits s := utf8Value_bytes h

end

end NodeMini
