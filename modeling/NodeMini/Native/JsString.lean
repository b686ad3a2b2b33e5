import NodeMini.Lib.CString
import NodeMini.Lib.Utf8

/-!
# JavaScript strings in native code

Native code reads a JavaScript string through a `String::Utf8Value`: a zero-terminated
buffer with the UTF-8 of the code units, unpaired surrogates in three-byte form. Used as a
C string, the buffer ends at the first zero code unit of the string.

## Main definitions

* `JsString` — sequences of UTF-16 code units
* `utf8Value` — the C string native code sees

## Main results

* `decodeUnits_utf8Value_iff` — when the C string still spells the string
-/

namespace NodeMini

open Lib

/-- A JavaScript string: any sequence of UTF-16 code units. -/
abbrev JsString := List UInt16

/-- The code units of a string literal. -/
def js (s : String) : JsString := Utf8.textUnits s.toList

/-- The bytes of a string literal. -/
def utf8 (s : String) : List UInt8 := Utf8.encodeText s.toList

/-- What the `String::Utf8Value` of a string points at. -/
def utf8Value (s : JsString) : CString := CString.ofBuffer (Utf8.encodeUnits s)

variable {s t : JsString}

theorem utf8Value_bytes (h : (0 : UInt16) ∉ s) : (utf8Value s).bytes = Utf8.encodeUnits s :=
  CString.ofBuffer_bytes_of_nonzero (Utf8.zero_notMem_encodeUnits h)

/-- Names without a zero code unit are told apart. -/
theorem utf8Value_inj (hs : (0 : UInt16) ∉ s) (ht : (0 : UInt16) ∉ t) :
    utf8Value s = utf8Value t ↔ s = t := by
  rw [CString.ext_iff, utf8Value_bytes hs, utf8Value_bytes ht]
  exact Utf8.encodeUnits_injective.eq_iff

/-- A name is cut at its first zero code unit. -/
theorem utf8Value_append_zero (s rest : JsString) :
    utf8Value (s ++ 0 :: rest) = utf8Value s := by
  rw [utf8Value, Utf8.encodeUnits_append_zero, CString.ofBuffer_append_zero, utf8Value]

/-- The C string of a name spells the name exactly if there is no zero code unit in it. -/
theorem decodeUnits_utf8Value_iff :
    Utf8.decodeUnits (utf8Value s).bytes = some s ↔ (0 : UInt16) ∉ s := by
  constructor
  · intro hdecode hzero
    -- what is decoded ends before the first zero, so it is shorter
    obtain ⟨a, rest, rfl, ha⟩ := List.eq_append_cons_of_mem hzero
    rw [utf8Value_append_zero, utf8Value_bytes ha, Utf8.decodeUnits_encodeUnits] at hdecode
    have hlength := congrArg List.length (Option.some.inj hdecode)
    simp at hlength
  · intro h
    rw [utf8Value_bytes h, Utf8.decodeUnits_encodeUnits]

end NodeMini
