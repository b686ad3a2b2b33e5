import Mathlib.Data.List.Induction
import NodeMini.Strings.Utf8Writer

/-!
# `String::Utf8Value`

Native code sees a JavaScript string through a `Utf8Value`: V8 counts the bytes that the
string takes, allocates an array of as many bytes and one, and writes the string to it
without giving the capacity. So the count has to be that of the bytes which are written.

A string comes back through `NewFromUtf8` if it is text; where it crosses as a C string it
must not contain a zero code unit either.

## Main definitions

* `Unibrow.length`, `utf8Length` — the count
* `Utf8Value.new` — the constructor

## Main results

* `utf8ValueLaw` — the array is filled, and holds the C string of the string
* `crossingLaw` — what comes back of a string
* `exists_text_echo`, `echo_eq_iff` — what comes out of bytes
-/

namespace NodeMini.Strings

open Lib

/-! ## The count -/

namespace Unibrow

/-- `kBytesSavedByCombiningSurrogates`. -/
def kBytesSavedByCombiningSurrogates : ℕ := 2

/-- `Utf8::Length`. -/
def length (c : UInt32) (previous : Option UInt32) : ℕ :=
  if c.toNat ≤ kMaxOneByteChar then 1
  else if c.toNat ≤ kMaxTwoByteChar then 2
  else if c.toNat ≤ kMaxThreeByteChar then
    if isSurrogatePair previous c then
      kSizeOfUnmatchedSurrogate - kBytesSavedByCombiningSurrogates
    else 3
  else 4

end Unibrow

/-- The loop of `String::Utf8Length` over two-byte characters. -/
def utf8LengthTwoByte (lastCharacter : Option UInt32) : List UInt16 → ℕ
  | [] => 0
  | c :: rest =>
    Unibrow.length c.toUInt32 lastCharacter + utf8LengthTwoByte (some c.toUInt32) rest

/-- `String::Utf8Length`. -/
def utf8Length : FlatContent → ℕ
  | .oneByte chars => (chars.map fun c => (c >>> 7 : UInt8).toNat).sum + chars.length
  | .twoByte chars => utf8LengthTwoByte none chars

/-- `String::Utf8Value`: `length_`, and what has been written to `str_`. -/
structure Utf8Value where
  length : ℕ
  str : List UInt8
  deriving DecidableEq, Repr

/-- The constructor of `String::Utf8Value`, for a string. The array has one byte more than
`length_`. -/
def Utf8Value.new (content : FlatContent) : Utf8Value where
  length := utf8Length content
  str := (writeUtf8 content none {}).buffer

/-- The `Utf8Value` of a string. -/
structure Utf8ValueLaw (content : FlatContent) : Prop where
  /-- The array is filled to its last byte, with the bytes of the string and a zero. -/
  str : (Utf8Value.new content).str = Utf8.encodeUnits content.units ++ [0]
  filled : (Utf8Value.new content).str.length = (Utf8Value.new content).length + 1
  /-- As a C string it is what native code is taken to see. -/
  cstring : CString.ofBuffer (Utf8Value.new content).str = utf8Value content.units
  /-- A unit takes three bytes at most. -/
  le : (Utf8Value.new content).length ≤ 3 * content.units.length

/-- What comes back of a string that has been written and is read again. -/
structure CrossingLaw (address : ℕ) (content : FlatContent) : Prop where
  /-- With replacement, its text comes back. -/
  replaced : (newStringFromUtf8 address
      (writeUtf8 content none ⟨true, true⟩).buffer).units = Utf8.textUnits (Utf8.textOf content.units)
  /-- Without, text comes back and nothing else does. -/
  written : (newStringFromUtf8 address (writeUtf8 content none ⟨true, false⟩).buffer).units =
      content.units ↔ ∃ text, Utf8.textUnits text = content.units
  /-- As a C string, text without a zero comes back. -/
  cstring : (newStringFromUtf8 address
      (CString.ofBuffer (Utf8Value.new content).str).bytes).units = content.units ↔
    (∃ text, Utf8.textUnits text = content.units) ∧ (0 : UInt16) ∉ content.units
  /-- This is what `NewFromUtf8` reads of up to `String::kMaxLength` bytes; of more it reads
  nothing. -/
  limit : ∀ bytes : List UInt8, stringNewFromUtf8 address bytes bytes.length =
    .ok (if bytes.length ≤ kMaxLength then some (newStringFromUtf8 address bytes) else none)

/-! ## Counting and writing -/

section Count

variable {s done : JsString} {chars : List UInt8} {content : FlatContent} {address : ℕ}

/-- A unit is counted with as many bytes as it adds. -/
theorem length_eq (done : JsString) (u : UInt16) :
    (bytesOf false done).length +
        Unibrow.length u.toUInt32 (done.getLast?.map UInt16.toUInt32) =
      (bytesOf false (done ++ [u])).length := by
  have hlt := UInt16.toNat_lt u
  have hstands : At false done ⟨bytesOf false done, done.getLast?.map UInt16.toUInt32⟩ :=
    ⟨rfl, Or.inl rfl⟩
  have hpair := hstands.isSurrogatePair u
  rw [Unibrow.length, hpair, UInt16.toNat_toUInt32, kMaxOneByteChar, Unibrow.kMaxTwoByteChar,
    Unibrow.kMaxThreeByteChar]
  by_cases hjoined : Utf8.joined done [u]
  · -- a trailing surrogate lies in the three-byte range
    obtain ⟨-, -, -, -, htrail⟩ := exists_of_joined hjoined
    simp only [Utf8.isTrail, Bool.and_eq_true, decide_eq_true_eq] at htrail
    rw [length_bytesOf_joined hjoined, if_neg (by omega), if_neg (by omega), if_pos (by omega),
      if_pos hjoined]
    rfl
  · rw [bytesOf_append (Bool.not_eq_true _ ▸ hjoined), bytesOf_singleton, List.length_append,
      length_form (by omega), Utf8.encodeCodePoint, if_neg hjoined]
    congr 1
    split_ifs <;> rfl

theorem utf8LengthTwoByte_eq (done s : JsString) :
    (bytesOf false done).length +
        utf8LengthTwoByte (done.getLast?.map UInt16.toUInt32) s =
      (bytesOf false (done ++ s)).length := by
  induction s generalizing done with
  | nil => rw [utf8LengthTwoByte, List.append_nil, Nat.add_zero]
  | cons u s ih =>
    have hrest := ih (done ++ [u])
    rw [List.getLast?_concat, List.append_assoc, List.singleton_append] at hrest
    rw [utf8LengthTwoByte, ← Nat.add_assoc, length_eq]
    exact hrest

/-- The highest bit of a one-byte character is its second byte. -/
theorem length_encodeOneByte (c : UInt8) :
    (Unibrow.encodeOneByte c).length = (c >>> 7 : UInt8).toNat + 1 :=
  forall_byte (p := fun c => (Unibrow.encodeOneByte c).length = (c >>> 7 : UInt8).toNat + 1)
    (by decide +kernel) c

/-- The count is the number of bytes. -/
theorem utf8Length_eq (content : FlatContent) :
    utf8Length content = (Utf8.encodeUnits content.units).length := by
  cases content with
  | oneByte chars =>
    rw [FlatContent.units, ← bytesOf_false, bytesOf_latin1, utf8Length]
    induction chars with
    | nil => rfl
    | cons c chars ih =>
      rw [List.flatMap_cons, List.length_append, ← ih, length_encodeOneByte, List.map_cons,
        List.sum_cons, List.length_cons]
      omega
  | twoByte chars =>
    have h := utf8LengthTwoByte_eq [] chars
    have hempty : bytesOf false [] = [] := rfl
    rwa [List.nil_append, bytesOf_false chars, hempty, List.length_nil, Nat.zero_add] at h

/-- Without a capacity, the bytes are written and a terminator if asked for. -/
theorem writeUtf8_none (content : FlatContent) (options : WriteOptions) :
    (writeUtf8 content none options).buffer =
      bytesOf options.replaceInvalidUtf8 content.units ++
        if options.noNullTermination = false then [0] else [] := by
  have hlaw : WritingLaw content.units none options (writeUtf8 content none options) := by
    cases content with
    | oneByte chars => exact writingLaw_none encodes_uint8_t chars options
    | twoByte chars =>
      have h := writingLaw_none encodes_uint16_t chars options
      rwa [List.map_id] at h
  have hall : (writeUtf8 content none options).utf16CharsRead = content.units.length := by
    refine le_antisymm hlaw.greatest.1.1 (hlaw.greatest.2 ⟨le_rfl, ?_, nofun⟩)
    intro _
    rw [List.drop_length]
    exact joined_nil
  rw [hlaw.buffer, hall, List.take_length]
  congr 1
  exact if_congr ⟨And.left, fun h => ⟨h, rfl, nofun⟩⟩ rfl rfl

theorem str_new (content : FlatContent) :
    (Utf8Value.new content).str = Utf8.encodeUnits content.units ++ [0] :=
  writeUtf8_none content {}

theorem cstring_new (content : FlatContent) :
    CString.ofBuffer (Utf8Value.new content).str = utf8Value content.units := by
  rw [str_new, CString.ofBuffer_append_zero, utf8Value]

/-- A unit takes three bytes at most. -/
theorem length_encodeUnits_le (s : JsString) : (Utf8.encodeUnits s).length ≤ 3 * s.length := by
  rw [← bytesOf_false]
  induction s using List.reverseRec with
  | nil => exact le_rfl
  | append_singleton s u ih =>
    have hone := (length_bytesOf_concat false s u).2
    rw [List.length_append, List.length_singleton]
    omega

/-- **`Utf8Value`.** For every string the count is that of the bytes which are written. -/
theorem utf8ValueLaw (content : FlatContent) : Utf8ValueLaw content := by
  have hlength : (Utf8Value.new content).length = (Utf8.encodeUnits content.units).length :=
    utf8Length_eq content
  refine { str := str_new content, filled := ?_, cstring := cstring_new content, le := ?_ }
  · rw [str_new, hlength, List.length_append, List.length_singleton]
  · rw [hlength]
    exact length_encodeUnits_le content.units

/-! ## Crossing -/

/-- Only text is read. -/
theorem exists_text (address : ℕ) (bytes : List UInt8) :
    ∃ text, (newStringFromUtf8 address bytes).units = Utf8.textUnits text := by
  obtain ⟨out, hout⟩ := exists_lossy bytes
  exact ⟨_, units_newStringFromUtf8 address hout⟩

/-- A zero code unit is read from a zero byte only. -/
theorem zero_notMem_units {bytes : List UInt8} (address : ℕ) (h : (0 : UInt8) ∉ bytes) :
    (0 : UInt16) ∉ (newStringFromUtf8 address bytes).units := by
  obtain ⟨out, hout⟩ := exists_lossy bytes
  rw [units_newStringFromUtf8 address hout, ← Utf8.zero_mem_encodeUnits_iff,
    Utf8.encodeUnits_textUnits]
  intro hmem
  have hzero : '\x00' ∈ Strings.replaced out :=
    (Utf8.ofNat_mem_encodeText_iff (c := '\x00') (by decide)).mp hmem
  obtain ⟨o, ho, heq⟩ := List.mem_map.mp hzero
  cases o with
  | none => exact absurd heq (by decide)
  | some c =>
    obtain rfl : c = '\x00' := heq
    exact h (hout.mem ho List.mem_cons_self)

theorem units_newStringFromUtf8_encodeUnits (address : ℕ) (s : JsString) :
    (newStringFromUtf8 address (Utf8.encodeUnits s)).units = s ↔
      ∃ text, Utf8.textUnits text = s := by
  constructor
  · intro h
    obtain ⟨text, htext⟩ := exists_text address (Utf8.encodeUnits s)
    exact ⟨text, htext ▸ h⟩
  · rintro ⟨text, rfl⟩
    rw [Utf8.encodeUnits_textUnits, units_newStringFromUtf8_encodeText]

/-- **Crossing to native code and back.** For every string, what comes back is the text of
the string if surrogates are replaced, and the string itself exactly if it is text, without a
zero if it has been a C string. -/
theorem crossingLaw (address : ℕ) (content : FlatContent) : CrossingLaw address content := by
  refine { replaced := ?_, written := ?_, cstring := ?_, limit := stringNewFromUtf8_eq address }
  · rw [writeUtf8_none, bytesOf_true, if_neg (by decide), List.append_nil,
      units_newStringFromUtf8_encodeText]
  · rw [writeUtf8_none, bytesOf_false, if_neg (by decide), List.append_nil]
    exact units_newStringFromUtf8_encodeUnits address content.units
  · rw [cstring_new]
    by_cases hzero : (0 : UInt16) ∈ content.units
    · -- the text that is read has no zero in it
      refine iff_of_false (fun h => ?_) fun h => h.2 hzero
      have hread := zero_notMem_units address (utf8Value content.units).nonzero
      rw [h] at hread
      exact hread hzero
    · rw [utf8Value_bytes hzero, units_newStringFromUtf8_encodeUnits, and_iff_left hzero]

end Count

end NodeMini.Strings
