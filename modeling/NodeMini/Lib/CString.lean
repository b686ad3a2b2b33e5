import Mathlib.Data.List.TakeWhile

/-!
# Zero-terminated strings

A C string is what a `const char*` points at: the bytes up to, and not including,
the first zero byte. The absence of a zero byte is a field of the type, so a C
string can be compared and printed without restating it.

## Main definitions

* `CString` — a byte string without a zero byte
* `CString.ofBuffer` — the C string a byte buffer holds, cut at its first zero byte
* `CString.strcmp` — the byte-wise comparison of `<string.h>`

## Main results

* `CString.strcmp_eq_zero_iff` — the comparison answers zero exactly on equal strings
* `CString.ofBuffer_append_zero` — what follows a zero byte does not matter
-/

namespace Lib

/-- The bytes in front of a zero terminator. -/
@[ext]
structure CString where
  bytes : List UInt8
  nonzero : (0 : UInt8) ∉ bytes
  deriving DecidableEq, Repr

namespace CString

variable {a b : CString} {buf : List UInt8}

/-- The C string a buffer holds: everything before its first zero byte. -/
def ofBuffer (buf : List UInt8) : CString where
  bytes := buf.takeWhile (· ≠ 0)
  nonzero := fun h => by simpa using List.mem_takeWhile_imp h

theorem ofBuffer_bytes (buf : List UInt8) : (ofBuffer buf).bytes = buf.takeWhile (· ≠ 0) := rfl

theorem ofBuffer_bytes_of_nonzero (h : (0 : UInt8) ∉ buf) : (ofBuffer buf).bytes = buf := by
  rw [ofBuffer_bytes, List.takeWhile_eq_self_iff]
  intro x hx
  have hx0 : x ≠ 0 := fun h0 => h (h0 ▸ hx)
  simpa using hx0

@[simp] theorem ofBuffer_self (a : CString) : ofBuffer a.bytes = a :=
  CString.ext (ofBuffer_bytes_of_nonzero a.nonzero)

/-- What follows a zero byte does not matter. -/
theorem ofBuffer_append_zero (buf rest : List UInt8) :
    ofBuffer (buf ++ 0 :: rest) = ofBuffer buf := by
  ext1
  induction buf with
  | nil => simp [ofBuffer_bytes]
  | cons b buf ih =>
    rw [ofBuffer_bytes, ofBuffer_bytes] at ih
    rw [List.cons_append, ofBuffer_bytes, ofBuffer_bytes, List.takeWhile_cons, List.takeWhile_cons,
      ih]

/-- The comparison loop of `strcmp`: the difference at the first byte where the two
strings, terminators included, part. -/
def strcmpBytes : List UInt8 → List UInt8 → Int
  | [], [] => 0
  -- the terminator counts as a byte of its own
  | [], y :: _ => -y.toNat
  | x :: _, [] => x.toNat
  | x :: xs, y :: ys => if x = y then strcmpBytes xs ys else x.toNat - y.toNat

/-- `strcmp(a, b)`. -/
def strcmp (a b : CString) : Int := strcmpBytes a.bytes b.bytes

theorem strcmpBytes_eq_zero_iff :
    ∀ {xs ys : List UInt8}, (0 : UInt8) ∉ xs → (0 : UInt8) ∉ ys →
      (strcmpBytes xs ys = 0 ↔ xs = ys)
  | [], [], _, _ => by simp [strcmpBytes]
  | [], y :: ys, _, hy => by
    have hy0 : y ≠ 0 := fun h => hy (by simp [h])
    have : y.toNat ≠ 0 := fun h => hy0 (UInt8.toNat_inj.mp (by simpa using h))
    simp [strcmpBytes, this]
  | x :: xs, [], hx, _ => by
    have hx0 : x ≠ 0 := fun h => hx (by simp [h])
    have : x.toNat ≠ 0 := fun h => hx0 (UInt8.toNat_inj.mp (by simpa using h))
    simp [strcmpBytes, this]
  | x :: xs, y :: ys, hx, hy => by
    by_cases hxy : x = y
    · have ih := strcmpBytes_eq_zero_iff (fun h => hx (List.mem_cons_of_mem x h))
        (fun h => hy (List.mem_cons_of_mem y h))
      simp [strcmpBytes, hxy, ih]
    · have : (x.toNat : Int) - y.toNat ≠ 0 := fun h => hxy (UInt8.toNat_inj.mp (by omega))
      simp [strcmpBytes, hxy, this]

/-- `strcmp` answers zero exactly on equal strings. -/
@[simp] theorem strcmp_eq_zero_iff : strcmp a b = 0 ↔ a = b := by
  rw [strcmp, strcmpBytes_eq_zero_iff a.nonzero b.nonzero, CString.ext_iff]

end CString

end Lib
