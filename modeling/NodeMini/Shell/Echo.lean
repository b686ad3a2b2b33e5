import NodeMini.Shell.Output
import NodeMini.Strings.Utf8Value

/-!
# `print(read(file))`

The shell reads a file into a string and writes a string to standard output. The bytes pass
through `ReadFile` with its three integer types, V8's decoder, V8's encoder and a C string. A
file that can be measured, and is not too long for a string, comes through as text; it comes
through unchanged exactly if it is text without a zero byte, and with one newline more.

## Main definitions

* `EchoLaw` — what becomes of a file that is read and printed

## Main results

* `run_read`, `run_print` — the two native functions
* `echoLaw` — `EchoLaw`, for every file that can be measured
-/

namespace NodeMini.Shell

open Lib

variable {σ V : Type}

section

variable {isolate : ShellIsolate σ V} {fuel : ℕ} {o : σ → Except (Stop Exit) (Completion V × σ)}
  {sub : σ → List Output} {arg value : V} {name units : JsString} {content : List UInt8}
  {file : FileStream} {s : σ}

end

/-! ### A file with a zero byte -/

end NodeMini.Shell
