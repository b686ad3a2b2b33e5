import Mathlib.Order.Bounds.Basic
import NodeMini.Lib.Surrogates
import NodeMini.Strings.Utf8Decoder

/-!
# Bytes from strings

V8 writes the UTF-8 of a string into a buffer in two phases. The first writes blocks that
fit whatever their characters are, without looking at the capacity; the second writes unit
by unit and looks. A trailing surrogate is written over the three bytes of the leading one
before it.

The two phases write as much of the string as the buffer has room for, and the terminator
only behind a string that has been written whole. If unpaired surrogates are replaced, no
pair is torn.

## Main definitions

* `Unibrow.encode`, `Unibrow.encodeOneByte` — of `unibrow::Utf8`
* `writeUtf8` — `String::WriteUtf8`
* `WritingLaw` — what is written to a buffer

## Main results

* `writeFast_spec`, `writeSlow_spec` — what each phase writes
* `writingLaw` — `WritingLaw` for all strings, capacities and options
-/

namespace NodeMini.Strings

open Lib

/-! ## One code unit -/

/-- `Utf16::IsLeadSurrogate`. -/
def isLeadSurrogate (code : UInt32) : Bool := code &&& 0xfc00 = 0xd800

/-- `Utf16::IsTrailSurrogate`. -/
def isTrailSurrogate (code : UInt32) : Bool := code &&& 0xfc00 = 0xdc00

/-- `Utf16::IsSurrogatePair`, with `none` for `kNoPreviousCharacter`. -/
def isSurrogatePair (lead : Option UInt32) (trail : UInt32) : Bool :=
  lead.any isLeadSurrogate && isTrailSurrogate trail

/-- `Utf16::CombineSurrogatePair`. -/
def combineSurrogatePair (lead trail : UInt32) : UInt32 :=
  (0x10000 : UInt32) + ((lead &&& 0x3ff) <<< 10) + (trail &&& 0x3ff)

namespace Unibrow

/-- `kMaxTwoByteChar`. -/
def kMaxTwoByteChar : ℕ := 0x7ff

/-- `kMaxThreeByteChar`. -/
def kMaxThreeByteChar : ℕ := 0xffff

/-- `kSizeOfUnmatchedSurrogate`. -/
def kSizeOfUnmatchedSurrogate : ℕ := 3

/-- `kMaxEncodedSize`. -/
def kMaxEncodedSize : ℕ := 4

/-- `kMask` of `Encode` and `EncodeOneByte`. -/
def kMask : UInt32 := ~~~((1 : UInt32) <<< 6)

/-- A first byte: its mark and the highest bits of the character. -/
def leadByte (mark bits : UInt32) : UInt8 := (mark ||| bits).toUInt8

/-- Any other byte: `0x80 | (bits & kMask)`. -/
def tailByte (bits : UInt32) : UInt8 := ((0x80 : UInt32) ||| (bits &&& kMask)).toUInt8

/-- `Utf8::Encode` without a previous character. -/
def encodeAlone (c : UInt32) (replaceInvalid : Bool) : List UInt8 :=
  if c.toNat ≤ kMaxOneByteChar then [c.toUInt8]
  else if c.toNat ≤ kMaxTwoByteChar then [leadByte 0xC0 (c >>> 6), tailByte c]
  else if c.toNat ≤ kMaxThreeByteChar then
    let c := if replaceInvalid && (isLeadSurrogate c || isTrailSurrogate c) then kBadChar else c
    [leadByte 0xE0 (c >>> 12), tailByte (c >>> 6), tailByte c]
  else [leadByte 0xF0 (c >>> 18), tailByte (c >>> 12), tailByte (c >>> 6), tailByte c]

/-- `Utf8::Encode`, with the bytes that have been written before. The second half of a pair
is written three bytes back, over the first. -/
def encode (out : List UInt8) (c : UInt32) (previous : Option UInt32) (replaceInvalid : Bool) :
    List UInt8 :=
  match previous with
  | none => out ++ encodeAlone c replaceInvalid
  | some lead =>
    if kMaxTwoByteChar < c.toNat ∧ c.toNat ≤ kMaxThreeByteChar ∧ isSurrogatePair lead c then
      out.take (out.length - kSizeOfUnmatchedSurrogate) ++
        encodeAlone (combineSurrogatePair lead c) replaceInvalid
    else out ++ encodeAlone c replaceInvalid

/-- `Utf8::EncodeOneByte`. -/
def encodeOneByte (c : UInt8) : List UInt8 :=
  if c.toNat ≤ kMaxOneByteChar then [c]
  else [leadByte 0xC0 (c.toUInt32 >>> 6), tailByte c.toUInt32]

end Unibrow

/-! ## The two phases -/

/-- The options of `WriteUtf8` that are looked at. -/
structure WriteOptions where
  noNullTermination : Bool := false
  replaceInvalidUtf8 : Bool := false
  deriving DecidableEq, Repr

/-- What has been written, and `prev_char`. -/
structure Writer where
  written : List UInt8
  prevChar : Option UInt32
  deriving DecidableEq, Repr

/-- What `WriteUtf8Impl` makes of its character type. -/
structure CharType (Unit : Type) where
  kMaxSizePerChar : ℕ
  code : Unit → UInt32
  /-- The block of the first phase. -/
  writeBlock : Bool → Writer → List Unit → Writer

/-- `WriteUtf8Impl<uint8_t>` copies a block of ASCII characters. -/
def uint8_t : CharType UInt8 where
  kMaxSizePerChar := 2
  code := UInt8.toUInt32
  writeBlock _ w chars :=
    let charMask := chars.foldl (fun mask c => mask ||| c) 0
    if charMask &&& 0x80 = 0 then { w with written := w.written ++ chars }
    else { w with written := chars.foldl (fun out c => out ++ Unibrow.encodeOneByte c) w.written }

/-- One character of the first phase of `WriteUtf8Impl<uint16_t>`. -/
def Writer.put (replaceInvalid : Bool) (w : Writer) (character : UInt32) : Writer where
  written := Unibrow.encode w.written character w.prevChar replaceInvalid
  prevChar := some character

/-- `WriteUtf8Impl<uint16_t>` encodes a block. -/
def uint16_t : CharType UInt16 where
  kMaxSizePerChar := 3
  code := UInt16.toUInt32
  writeBlock replaceInvalid w chars :=
    chars.foldl (fun w c => w.put replaceInvalid c.toUInt32) w

section Phases

variable {Unit : Type} (T : CharType Unit)

/-- How many characters the first phase writes next, of those that are left. -/
def upTo (capacity : Option ℕ) (w : Writer) (rest : List Unit) : ℕ :=
  match capacity with
  | none => rest.length
  | some capacity =>
    min rest.length ((capacity - w.written.length - T.kMaxSizePerChar) / T.kMaxSizePerChar)

/-- The first phase, and the characters it leaves to the second. -/
def writeFast (capacity : Option ℕ) (replaceInvalid : Bool) (w : Writer) (rest : List Unit) :
    Writer × List Unit :=
  if _h : rest = [] ∨ upTo T capacity w rest = 0 then (w, rest)
  else
    writeFast capacity replaceInvalid
      (T.writeBlock replaceInvalid w (rest.take (upTo T capacity w rest)))
      (rest.drop (upTo T capacity w rest))
termination_by rest.length
decreasing_by
  obtain ⟨hrest, hupTo⟩ := not_or.mp _h
  have hpos := List.length_pos_of_ne_nil hrest
  rw [List.length_drop]
  omega

/-- The second phase: what it has written, the characters it has not read, and
`write_null`, unless that is set before. -/
def writeSlow (capacity : ℕ) (replaceInvalid : Bool) :
    Writer → List Unit → Writer × List Unit × Bool
  | w, [] => (w, [], true)
  | w, c :: rest =>
    let remainingCapacity := capacity - w.written.length
    if remainingCapacity = 0 then (w, c :: rest, true)
    else
      let character := T.code c
      if isSurrogatePair w.prevChar character then
        writeSlow capacity replaceInvalid (w.put replaceInvalid character) rest
      else if replaceInvalid && remainingCapacity < Unibrow.kMaxEncodedSize &&
          isLeadSurrogate character && rest.head?.any (isTrailSurrogate <| T.code ·) then
        (w, c :: rest, false)
      else
        let tempBuffer := Unibrow.encode [] character none replaceInvalid
        if tempBuffer.length > remainingCapacity then (w, c :: rest, false)
        else writeSlow capacity replaceInvalid ⟨w.written ++ tempBuffer, some character⟩ rest

/-- The buffer from its start, as far as it has been written, and `utf16_chars_read_out`. -/
structure WriteResult where
  buffer : List UInt8
  utf16CharsRead : ℕ
  deriving DecidableEq, Repr

/-- `WriteUtf8Impl`, with `none` for the capacity `-1`. -/
def writeUtf8Impl (string : List Unit) (capacity : Option ℕ) (options : WriteOptions) :
    WriteResult :=
  let writeNull := !options.noNullTermination
  let (w, rest) := writeFast T capacity options.replaceInvalidUtf8 ⟨[], none⟩ string
  let (w, rest, writeNull) :=
    match capacity with
    | none => (w, rest, writeNull)
    | some capacity =>
      let (w, rest, fits) := writeSlow T capacity options.replaceInvalidUtf8 w rest
      (w, rest, writeNull && fits)
  { buffer := w.written ++
      if writeNull && capacity.all (w.written.length < ·) then [0] else []
    utf16CharsRead := string.length - rest.length }

end Phases

/-- `String::WriteUtf8`. -/
def writeUtf8 (content : FlatContent) (capacity : Option ℕ) (options : WriteOptions) :
    WriteResult :=
  match content with
  | .oneByte chars => writeUtf8Impl uint8_t chars capacity options
  | .twoByte chars => writeUtf8Impl uint16_t chars capacity options

/-! ## The law -/

/-- The bytes of a code point: of the character it is replaced by, or its own. -/
def form (replaceInvalid : Bool) (n : ℕ) : List UInt8 :=
  Utf8.encodeCodePoint (if replaceInvalid then (Utf8.charOf n).toNat else n)

/-- The bytes of a string, as text or as it is. -/
def bytesOf (replaceInvalid : Bool) (s : JsString) : List UInt8 :=
  (Utf8.codePoints s).flatMap (form replaceInvalid)

/-- The lengths of the parts of a string that may be written: they fit the buffer and, if
surrogates are replaced, end in no torn pair. -/
def Fitting (capacity : Option ℕ) (replaceInvalid : Bool) (s : JsString) : Set ℕ :=
  {k | k ≤ s.length ∧ (replaceInvalid = true → Utf8.joined (s.take k) (s.drop k) = false) ∧
    ∀ c, capacity = some c → (bytesOf replaceInvalid (s.take k)).length ≤ c}

/-- What is written of a string to a buffer. -/
structure WritingLaw (s : JsString) (capacity : Option ℕ) (options : WriteOptions)
    (result : WriteResult) : Prop where
  /-- As many units are written as may be. -/
  greatest : IsGreatest (Fitting capacity options.replaceInvalidUtf8 s) result.utf16CharsRead
  /-- Their bytes are written, and the terminator if all are and there is room for it. -/
  buffer : result.buffer =
    bytesOf options.replaceInvalidUtf8 (s.take result.utf16CharsRead) ++
      if options.noNullTermination = false ∧ result.utf16CharsRead = s.length ∧
          ∀ c, capacity = some c → (bytesOf options.replaceInvalidUtf8 s).length < c
        then [0] else []
  /-- The buffer is not overrun. -/
  bounded : ∀ c, capacity = some c → result.buffer.length ≤ c

/-! ## Bits -/

section Bits

open Unibrow

variable {c lead trail : UInt32} {n : ℕ} {u v : UInt16}

/-- A statement about bytes is checked byte by byte. -/
theorem forall_byte {p : UInt8 → Prop} (h : ∀ n < 256, p (UInt8.ofNat n)) (b : UInt8) : p b := by
  have hb := h b.toNat (UInt8.toNat_lt b)
  rwa [UInt8.ofNat_toNat] at hb

theorem tailByte_eq (hc : c.toNat = n) : tailByte c = UInt8.ofNat (n % 64 + 0x80) := by
  have hbyte := forall_byte
    (p := fun b => 0x80 ||| (b &&& 0xbf) = UInt8.ofNat (b.toNat % 64 + 0x80))
    (by decide +kernel) c.toUInt8
  have hmask : kMask.toUInt8 = 0xbf := rfl
  have hmark : (0x80 : UInt32).toUInt8 = 0x80 := rfl
  rw [tailByte, UInt32.toUInt8_or, UInt32.toUInt8_and, hmask, hmark, hbyte, UInt32.toNat_toUInt8,
    hc, Nat.mod_mod_of_dvd n (by decide)]

/-- The bits under a mark do not touch it. -/
theorem leadByte_eq {mark : UInt32} {bits : ℕ} (size : ℕ) (hc : c.toNat = bits) (hbits : bits < size)
    (hmark : ∀ n < size, mark.toUInt8 ||| UInt8.ofNat n = UInt8.ofNat (n + mark.toNat)) :
    leadByte mark c = UInt8.ofNat (bits + mark.toNat) := by
  have hbyte : c.toUInt8 = UInt8.ofNat bits := by
    apply UInt8.toNat_inj.mp
    rw [UInt32.toNat_toUInt8, hc, UInt8.toNat_ofNat']
  rw [leadByte, UInt32.toUInt8_or, hbyte, hmark bits hbits]

theorem toNat_shiftRight (hc : c.toNat = n) (k : UInt32) (hk : k.toNat < 32) :
    (c >>> k).toNat = n / 2 ^ k.toNat := by
  rw [UInt32.toNat_shiftRight, hc, Nat.shiftRight_eq_div_pow, Nat.mod_eq_of_lt hk]

/-- Six bits of sixteen are masked. -/
theorem and_highMask (hn : n < 2 ^ 16) : n &&& 0xfc00 = n / 2 ^ 10 * 2 ^ 10 := by
  have hhigh : n / 2 ^ 10 < 2 ^ 6 := by omega
  have hmask : (0xfc00 : ℕ) = (2 ^ 6 - 1) <<< 10 := rfl
  rw [hmask, ← Nat.shiftLeft_eq, ← Nat.shiftRight_eq_div_pow]
  apply Nat.eq_of_testBit_eq
  intro i
  rw [Nat.testBit_and, Nat.testBit_shiftLeft, Nat.testBit_shiftLeft, Nat.testBit_shiftRight,
    Nat.testBit_two_pow_sub_one]
  by_cases hi : 10 ≤ i
  · have hsum : 10 + (i - 10) = i := by omega
    rw [hsum]
    by_cases hlow : i - 10 < 6
    · simp [hi, hlow]
    · -- bits from the sixteenth on are zero
      have hzero : n.testBit i = false :=
        Nat.testBit_lt_two_pow (hn.trans_le (Nat.pow_le_pow_right (by decide) (by omega)))
      simp [hzero]
  · simp [hi]

theorem isLeadSurrogate_iff (hc : c.toNat = n) (hn : n < 2 ^ 16) :
    isLeadSurrogate c ↔ 0xD800 ≤ n ∧ n < 0xDC00 := by
  have hmask : (0xfc00 : UInt32).toNat = 0xfc00 := rfl
  have hvalue : (0xd800 : UInt32).toNat = 0xd800 := rfl
  rw [isLeadSurrogate, decide_eq_true_eq, ← UInt32.toNat_inj, UInt32.toNat_and, hc, hmask,
    and_highMask hn, hvalue]
  omega

theorem isTrailSurrogate_iff (hc : c.toNat = n) (hn : n < 2 ^ 16) :
    isTrailSurrogate c ↔ 0xDC00 ≤ n ∧ n < 0xE000 := by
  have hmask : (0xfc00 : UInt32).toNat = 0xfc00 := rfl
  have hvalue : (0xdc00 : UInt32).toNat = 0xdc00 := rfl
  rw [isTrailSurrogate, decide_eq_true_eq, ← UInt32.toNat_inj, UInt32.toNat_and, hc, hmask,
    and_highMask hn, hvalue]
  omega

@[simp] theorem isLeadSurrogate_toUInt32 (u : UInt16) :
    isLeadSurrogate u.toUInt32 = Utf8.isLead u := by
  rw [Bool.eq_iff_iff, isLeadSurrogate_iff (UInt16.toNat_toUInt32 u) (UInt16.toNat_lt u)]
  simp [Utf8.isLead]

@[simp] theorem isTrailSurrogate_toUInt32 (u : UInt16) :
    isTrailSurrogate u.toUInt32 = Utf8.isTrail u := by
  rw [Bool.eq_iff_iff, isTrailSurrogate_iff (UInt16.toNat_toUInt32 u) (UInt16.toNat_lt u)]
  simp [Utf8.isTrail]

theorem toNat_combineSurrogatePair (hu : Utf8.isLead u) (hv : Utf8.isTrail v) :
    (combineSurrogatePair u.toUInt32 v.toUInt32).toNat = Utf8.combine u v := by
  simp only [Utf8.isLead, Utf8.isTrail, Bool.and_eq_true, decide_eq_true_eq] at hu hv
  have hpayload : ∀ w : UInt16, (w.toUInt32 &&& 0x3ff).toNat = w.toNat % 0x400 := by
    intro w
    rw [UInt32.toNat_and, UInt16.toNat_toUInt32]
    exact Nat.and_two_pow_sub_one_eq_mod _ 10
  have hshift : ((u.toUInt32 &&& 0x3ff) <<< 10).toNat = u.toNat % 0x400 * 0x400 := by
    rw [UInt32.toNat_shiftLeft, hpayload, Nat.shiftLeft_eq]
    exact Nat.mod_eq_of_lt (by simp; omega)
  have hbase : (0x10000 : UInt32).toNat = 0x10000 := rfl
  rw [combineSurrogatePair, UInt32.toNat_add, UInt32.toNat_add, hshift, hpayload, hbase,
    Utf8.combine]
  omega

theorem encodeAlone_false (hc : c.toNat = n) (hn : n < 0x110000) :
    encodeAlone c false = Utf8.encodeCodePoint n := by
  have h6 : (c >>> 6).toNat = n / 64 := toNat_shiftRight hc 6 (by decide)
  have h12 : (c >>> 12).toNat = n / 4096 := toNat_shiftRight hc 12 (by decide)
  have h18 : (c >>> 18).toNat = n / 262144 := toNat_shiftRight hc 18 (by decide)
  rw [encodeAlone, hc, Utf8.encodeCodePoint, kMaxOneByteChar, kMaxTwoByteChar, kMaxThreeByteChar]
  simp only [Bool.false_and, Bool.false_eq_true, if_false]
  -- forms of one, two, three and four bytes
  split_ifs with h₁ h₂ h₃
  · have hbyte : c.toUInt8 = UInt8.ofNat n := by
      apply UInt8.toNat_inj.mp
      rw [UInt32.toNat_toUInt8, hc, UInt8.toNat_ofNat']
    rw [hbyte]
  · rw [tailByte_eq hc, leadByte_eq 32 h6 (by omega) (by decide +kernel),
      Nat.mod_eq_of_lt (by omega : n / 64 < 32)]
    rfl
  · rw [tailByte_eq hc, tailByte_eq h6,
      leadByte_eq 16 h12 (by omega) (by decide +kernel),
      Nat.mod_eq_of_lt (by omega : n / 4096 < 16)]
    rfl
  · rw [tailByte_eq hc, tailByte_eq h6, tailByte_eq h12,
      leadByte_eq 8 h18 (by omega) (by decide +kernel),
      Nat.mod_eq_of_lt (by omega : n / 262144 < 8)]
    rfl

/-- A surrogate alone is replaced. -/
theorem encodeAlone_true (hc : c.toNat = n) (hn : n < 0x110000) :
    encodeAlone c true = Utf8.encodeCodePoint (Utf8.charOf n).toNat := by
  have hsurrogate : n < 2 ^ 16 →
      ((isLeadSurrogate c || isTrailSurrogate c) = true ↔ ¬ n.isValidChar) := by
    intro hlt
    unfold Nat.isValidChar
    rw [Bool.or_eq_true, isLeadSurrogate_iff hc hlt, isTrailSurrogate_iff hc hlt]
    omega
  rw [Utf8.toNat_charOf]
  split_ifs with hvalid
  · rw [← encodeAlone_false hc hn, encodeAlone, encodeAlone, hc]
    refine if_congr Iff.rfl rfl (if_congr Iff.rfl rfl ?_)
    by_cases h3 : n ≤ kMaxThreeByteChar
    · have hnot : (isLeadSurrogate c || isTrailSurrogate c) = false := by
        rw [Bool.eq_false_iff]
        exact fun h => (hsurrogate (Nat.lt_succ_of_le h3)).mp h hvalid
      rw [if_pos h3, if_pos h3, hnot]
      rfl
    · rw [if_neg h3, if_neg h3]
  · have hrange : 0xD800 ≤ n ∧ n < 0xE000 := by
      unfold Nat.isValidChar at hvalid
      omega
    have hbad : kBadChar.toNat = 0xFFFD := rfl
    have h1 : ¬ n ≤ kMaxOneByteChar := by rw [kMaxOneByteChar]; omega
    have h2 : ¬ n ≤ kMaxTwoByteChar := by rw [kMaxTwoByteChar]; omega
    have h3 : n ≤ kMaxThreeByteChar := by rw [kMaxThreeByteChar]; omega
    rw [← encodeAlone_false hbad (by decide), encodeAlone, hc, if_neg h1, if_neg h2, if_pos h3,
      (hsurrogate (by omega)).mpr hvalid]
    rfl

/-- A character alone is written in its form. -/
theorem encodeAlone_eq (replaceInvalid : Bool) (hc : c.toNat = n) (hn : n < 0x110000) :
    encodeAlone c replaceInvalid = form replaceInvalid n := by
  cases replaceInvalid with
  | false => exact encodeAlone_false hc hn
  | true => exact encodeAlone_true hc hn

theorem encodeOneByte_eq (b : UInt8) : encodeOneByte b = Utf8.encodeCodePoint b.toNat :=
  forall_byte (p := fun b => encodeOneByte b = Utf8.encodeCodePoint b.toNat) (by decide +kernel) b

end Bits

/-! ## The bytes of a part -/

section Parts

variable {replaceInvalid : Bool} {s t done rest : JsString} {u v : UInt16} {w : Writer}

theorem bytesOf_false (s : JsString) : bytesOf false s = Utf8.encodeUnits s := rfl

theorem bytesOf_true (s : JsString) : bytesOf true s = Utf8.encodeText (Utf8.textOf s) := by
  rw [bytesOf, Utf8.textOf, Utf8.encodeText, List.flatMap_map]
  rfl

theorem bytesOf_append (h : Utf8.joined s t = false) :
    bytesOf replaceInvalid (s ++ t) = bytesOf replaceInvalid s ++ bytesOf replaceInvalid t := by
  rw [bytesOf, Utf8.codePoints_append h, List.flatMap_append, bytesOf, bytesOf]

theorem bytesOf_singleton (u : UInt16) :
    bytesOf replaceInvalid [u] = form replaceInvalid u.toNat := by
  rw [bytesOf, Utf8.codePoints, List.flatMap_singleton]

theorem length_form {n : ℕ} (hn : n < 0x110000) :
    (form replaceInvalid n).length = (Utf8.encodeCodePoint n).length := by
  cases replaceInvalid with
  | false => rfl
  | true => exact Utf8.length_encodeCodePoint_charOf hn

/-- A torn-off leading surrogate takes three bytes. -/
theorem length_form_lead (hu : Utf8.isLead u) : (form replaceInvalid u.toNat).length = 3 := by
  have hlt := UInt16.toNat_lt u
  simp only [Utf8.isLead, Bool.and_eq_true, decide_eq_true_eq] at hu
  rw [length_form (by omega), Utf8.encodeCodePoint, if_neg (by omega), if_neg (by omega),
    if_pos (by omega)]
  rfl

/-- A pair takes four bytes. -/
theorem length_form_combine (hu : Utf8.isLead u) (hv : Utf8.isTrail v) :
    (form replaceInvalid (Utf8.combine u v)).length = 4 := by
  have hrange := Utf8.combine_range hu hv
  rw [length_form hrange.2, Utf8.encodeCodePoint, if_neg (by omega), if_neg (by omega),
    if_neg (by omega)]
  rfl

/-- Where a string is not cut through a pair, its last unit is not the first half of one. -/
theorem exists_of_joined (h : Utf8.joined done (v :: rest)) :
    ∃ init u, done = init ++ [u] ∧ Utf8.isLead u ∧ Utf8.isTrail v := by
  rcases List.eq_nil_or_concat' done with rfl | ⟨init, u, rfl⟩
  · cases h
  · rw [Utf8.joined_concat, Bool.and_eq_true] at h
    exact ⟨init, u, rfl, h.1, h.2⟩

/-- The second half of a pair is written over the first. -/
theorem bytesOf_pair (hu : Utf8.isLead u) (hv : Utf8.isTrail v) (init : JsString) :
    bytesOf replaceInvalid (init ++ [u] ++ [v]) =
      (bytesOf replaceInvalid (init ++ [u])).take ((bytesOf replaceInvalid (init ++ [u])).length - 3)
        ++ form replaceInvalid (Utf8.combine u v) := by
  have hpair : bytesOf replaceInvalid (init ++ [u] ++ [v]) =
      bytesOf replaceInvalid init ++ form replaceInvalid (Utf8.combine u v) := by
    rw [List.append_assoc, List.singleton_append, bytesOf, Utf8.codePoints_append_pair hu hv,
      List.flatMap_append, List.flatMap_singleton, bytesOf]
  have hlead : bytesOf replaceInvalid (init ++ [u]) =
      bytesOf replaceInvalid init ++ form replaceInvalid u.toNat := by
    rw [bytesOf_append (Utf8.joined_lead hu), bytesOf_singleton]
  rw [hpair, hlead, List.length_append, length_form_lead hu, Nat.add_sub_cancel, List.take_left]

/-- Where the writer stands: `done` has been written, and `prev_char` is its last unit, or
that is not the first half of a pair. -/
structure At (replaceInvalid : Bool) (done : JsString) (w : Writer) : Prop where
  written : w.written = bytesOf replaceInvalid done
  prev : w.prevChar = done.getLast?.map UInt16.toUInt32 ∨
    w.prevChar.any isLeadSurrogate = false ∧ done.getLast?.any Utf8.isLead = false

theorem at_start : At replaceInvalid [] ⟨[], none⟩ := ⟨rfl, Or.inl rfl⟩

/-- The writer knows whether the next unit completes a pair. -/
theorem At.isSurrogatePair (h : At replaceInvalid done w) (u : UInt16) :
    isSurrogatePair w.prevChar u.toUInt32 = Utf8.joined done [u] := by
  have hhead : [u].head?.any Utf8.isTrail = Utf8.isTrail u := rfl
  rw [Strings.isSurrogatePair, isTrailSurrogate_toUInt32, Utf8.joined, hhead]
  congr 1
  rcases h.prev with hprev | ⟨hprev, hlast⟩
  · rw [hprev, Option.any_map]
    exact congrArg (Option.any · _) (funext isLeadSurrogate_toUInt32)
  · rw [hprev, hlast]

/-- A unit that completes no pair is written behind the others. -/
theorem At.alone (h : At replaceInvalid done w) (hu : Utf8.joined done [u] = false) :
    bytesOf replaceInvalid (done ++ [u]) =
      w.written ++ Unibrow.encodeAlone u.toUInt32 replaceInvalid := by
  have hlt := UInt16.toNat_lt u
  rw [h.written, encodeAlone_eq replaceInvalid (UInt16.toNat_toUInt32 u) (by omega),
    bytesOf_append hu, bytesOf_singleton]

/-- `Encode` writes one unit more. -/
theorem At.put (h : At replaceInvalid done w) (u : UInt16) :
    At replaceInvalid (done ++ [u]) (w.put replaceInvalid u.toUInt32) := by
  refine ⟨?_, Or.inl (by rw [List.getLast?_concat]; rfl)⟩
  have hpair := h.isSurrogatePair u
  rw [Writer.put]
  by_cases hjoined : Utf8.joined done [u]
  · obtain ⟨init, lead, rfl, hlead, htrail⟩ := exists_of_joined hjoined
    have hprev : w.prevChar = some lead.toUInt32 := by
      rcases h.prev with hprev | ⟨-, hlast⟩
      · rwa [List.getLast?_concat] at hprev
      · rw [List.getLast?_concat] at hlast
        exact absurd hlead (Bool.eq_false_iff.mp hlast)
    have hrange : Unibrow.kMaxTwoByteChar < u.toUInt32.toNat ∧
        u.toUInt32.toNat ≤ Unibrow.kMaxThreeByteChar := by
      have hlt := UInt16.toNat_lt u
      simp only [Utf8.isTrail, Bool.and_eq_true, decide_eq_true_eq] at htrail
      rw [UInt16.toNat_toUInt32, Unibrow.kMaxTwoByteChar, Unibrow.kMaxThreeByteChar]
      omega
    rw [hjoined, hprev] at hpair
    rw [hprev, Unibrow.encode, if_pos ⟨hrange.1, hrange.2, hpair⟩, h.written,
      encodeAlone_eq replaceInvalid (toNat_combineSurrogatePair hlead htrail)
        (Utf8.combine_range hlead htrail).2, bytesOf_pair hlead htrail]
    rfl
  · rw [Bool.not_eq_true] at hjoined
    rw [hjoined] at hpair
    have halone : Unibrow.encode w.written u.toUInt32 w.prevChar replaceInvalid =
        w.written ++ Unibrow.encodeAlone u.toUInt32 replaceInvalid := by
      cases hprev : w.prevChar with
      | none => rfl
      | some lead =>
        rw [hprev] at hpair
        rw [Unibrow.encode, if_neg]
        rintro ⟨-, -, htrue⟩
        rw [hpair] at htrue
        cases htrue
    rw [halone, h.alone hjoined]

/-- The second half of a pair takes one byte more. -/
theorem length_bytesOf_joined (h : Utf8.joined done [v]) :
    (bytesOf replaceInvalid (done ++ [v])).length = (bytesOf replaceInvalid done).length + 1 := by
  obtain ⟨init, u, rfl, hu, hv⟩ := exists_of_joined h
  have hlength : 3 ≤ (bytesOf replaceInvalid (init ++ [u])).length := by
    rw [bytesOf_append (Utf8.joined_lead hu), bytesOf_singleton, List.length_append,
      length_form_lead hu]
    omega
  rw [bytesOf_pair hu hv, List.length_append, length_form_combine hu hv, List.length_take]
  omega

/-- Every unit takes a byte or more, and at most three. -/
theorem length_bytesOf_concat (replaceInvalid : Bool) (done : JsString) (u : UInt16) :
    (bytesOf replaceInvalid done).length < (bytesOf replaceInvalid (done ++ [u])).length ∧
      (bytesOf replaceInvalid (done ++ [u])).length ≤ (bytesOf replaceInvalid done).length + 3 := by
  by_cases hjoined : Utf8.joined done [u]
  · rw [length_bytesOf_joined hjoined]
    omega
  · have hlt := UInt16.toNat_lt u
    have hform : 1 ≤ (form replaceInvalid u.toNat).length ∧
        (form replaceInvalid u.toNat).length ≤ 3 := by
      rw [length_form (by omega), Utf8.encodeCodePoint]
      split_ifs with h₁ h₂ h₃
      · exact ⟨by simp, by simp⟩
      · exact ⟨by simp, by simp⟩
      · exact ⟨by simp, by simp⟩
      · omega
    rw [bytesOf_append (Bool.not_eq_true _ ▸ hjoined), bytesOf_singleton, List.length_append]
    omega

theorem length_bytesOf_append (replaceInvalid : Bool) (done more : JsString) :
    (bytesOf replaceInvalid done).length + more.length ≤
      (bytesOf replaceInvalid (done ++ more)).length := by
  induction more generalizing done with
  | nil => simp
  | cons u more ih =>
    have hunit := (length_bytesOf_concat replaceInvalid done u).1
    have hmore := ih (done ++ [u])
    rw [List.append_assoc, List.singleton_append] at hmore
    rw [List.length_cons]
    omega

end Parts

/-! ## The phases -/

section Phases

variable {Unit : Type} {T : CharType Unit} {unit : Unit → UInt16} {capacity : Option ℕ} {c : ℕ}
  {replaceInvalid flag : Bool} {before chars rest : List Unit} {w : Writer}

/-- What the phases rely on: characters are code units, a block is encoded, and no character
takes more bytes than the first phase reckons with. -/
structure CharType.Encodes (T : CharType Unit) (unit : Unit → UInt16) : Prop where
  code : ∀ c, T.code c = (unit c).toUInt32
  block : ∀ {replaceInvalid before w} (chars : List Unit), At replaceInvalid (before.map unit) w →
    At replaceInvalid ((before ++ chars).map unit) (T.writeBlock replaceInvalid w chars)
  pos : 0 < T.kMaxSizePerChar
  size : ∀ replaceInvalid before c, (bytesOf replaceInvalid ((before ++ [c]).map unit)).length ≤
    (bytesOf replaceInvalid (before.map unit)).length + T.kMaxSizePerChar

/-- Characters `before` have been written and `rest` have not. There is room for the second
half of a pair if surrogates are replaced. -/
structure Stands (unit : Unit → UInt16) (capacity : Option ℕ) (replaceInvalid : Bool)
    (before rest : List Unit) (w : Writer) : Prop where
  written : At replaceInvalid (before.map unit) w
  fits : ∀ c, capacity = some c → w.written.length ≤ c
  room : replaceInvalid = true → Utf8.joined (before.map unit) (rest.map unit) = true →
    ∀ c, capacity = some c → w.written.length < c

theorem CharType.Encodes.length_le (hT : T.Encodes unit) (replaceInvalid : Bool)
    (before chars : List Unit) :
    (bytesOf replaceInvalid ((before ++ chars).map unit)).length ≤
      (bytesOf replaceInvalid (before.map unit)).length + T.kMaxSizePerChar * chars.length := by
  induction chars generalizing before with
  | nil => simp
  | cons c chars ih =>
    have hone := hT.size replaceInvalid before c
    have hmore := ih (before ++ [c])
    rw [List.append_assoc, List.singleton_append] at hmore
    rw [List.length_cons, Nat.mul_succ]
    omega

/-- The first phase writes what fits, and everything if there is no capacity. -/
theorem writeFast_spec (hT : T.Encodes unit) (h : Stands unit capacity replaceInvalid before rest w) :
    ∃ more, rest = more ++ (writeFast T capacity replaceInvalid w rest).2 ∧
      Stands unit capacity replaceInvalid (before ++ more)
        (writeFast T capacity replaceInvalid w rest).2
        (writeFast T capacity replaceInvalid w rest).1 ∧
      (capacity = none → (writeFast T capacity replaceInvalid w rest).2 = []) := by
  fun_induction writeFast T capacity replaceInvalid w rest generalizing before with
  | case1 w rest hstop =>
    refine ⟨[], rfl, by rwa [List.append_nil], ?_⟩
    rintro rfl
    exact hstop.elim id fun hupTo => List.eq_nil_of_length_eq_zero hupTo
  | case2 w rest hgo ih =>
    obtain ⟨hrest, hupTo⟩ := not_or.mp hgo
    have hsize := hT.pos
    have hblock := hT.block (rest.take (upTo T capacity w rest)) h.written
    have hwritten := hT.length_le replaceInvalid before (rest.take (upTo T capacity w rest))
    rw [← hblock.written, ← h.written.written, List.length_take] at hwritten
    -- the estimate leaves room for one character more
    have hroom : ∀ c, capacity = some c → (T.writeBlock replaceInvalid w
        (rest.take (upTo T capacity w rest))).written.length < c := by
      rintro c rfl
      have hle : upTo T (some c) w rest ≤
          (c - w.written.length - T.kMaxSizePerChar) / T.kMaxSizePerChar := Nat.min_le_right _ _
      have hmul := (Nat.le_div_iff_mul_le hT.pos).mp hle
      have hmin : T.kMaxSizePerChar * min (upTo T (some c) w rest) rest.length ≤
          upTo T (some c) w rest * T.kMaxSizePerChar := by
        rw [Nat.mul_comm]
        exact Nat.mul_le_mul_right _ (Nat.min_le_left _ _)
      have hpos : 0 < upTo T (some c) w rest * T.kMaxSizePerChar :=
        Nat.mul_pos (Nat.pos_of_ne_zero hupTo) hT.pos
      omega
    obtain ⟨more, hmore, hstands, hnone⟩ := ih
      ⟨hblock, fun c hc => (hroom c hc).le, fun _ _ => hroom⟩
    refine ⟨rest.take (upTo T capacity w rest) ++ more, ?_, ?_, hnone⟩
    · rw [List.append_assoc, ← hmore, List.take_append_drop]
    · rwa [← List.append_assoc]

/-- Where the second phase ends: no longer part fits, and the terminator has to be left out
unless all has been written or the buffer is full. -/
structure Ends (unit : Unit → UInt16) (c : ℕ) (replaceInvalid : Bool) (before rest : List Unit)
    (w : Writer) (flag : Bool) : Prop where
  written : At replaceInvalid (before.map unit) w
  fits : w.written.length ≤ c
  whole : replaceInvalid = true → Utf8.joined (before.map unit) (rest.map unit) = false
  full : ∀ {more rest'}, rest = more ++ rest' → more ≠ [] →
    (replaceInvalid = true → Utf8.joined ((before ++ more).map unit) (rest'.map unit) = false) →
    c < (bytesOf replaceInvalid ((before ++ more).map unit)).length
  done : rest = [] → flag = true
  left : flag = true → w.written.length < c → rest = []

theorem length_bytesOf_map (unit : Unit → UInt16) (replaceInvalid : Bool)
    (before more : List Unit) :
    (bytesOf replaceInvalid (before.map unit)).length + more.length ≤
      (bytesOf replaceInvalid ((before ++ more).map unit)).length := by
  have hle := length_bytesOf_append replaceInvalid (before.map unit) (more.map unit)
  rwa [List.length_map, ← List.map_append] at hle

theorem joined_nil {s : JsString} : Utf8.joined s [] = false := Bool.and_false _

variable {u : Unit}

theorem map_concat : (before ++ [u]).map unit = before.map unit ++ [unit u] := by
  rw [List.map_append, List.map_singleton]

/-- If one unit more is too long, any longer part is. -/
theorem full_of_unit (hunit : c < (bytesOf replaceInvalid ((before ++ [u]).map unit)).length)
    {more rest' : List Unit} (hmore : u :: rest = more ++ rest') (hne : more ≠ []) :
    c < (bytesOf replaceInvalid ((before ++ more).map unit)).length := by
  obtain ⟨x, more, rfl⟩ := List.exists_cons_of_ne_nil hne
  obtain rfl : u = x := (List.cons.inj hmore).1
  have hle := length_bytesOf_map unit replaceInvalid (before ++ [u]) more
  rw [List.append_assoc, List.singleton_append] at hle
  omega

/-! The exits of the loop, and its steps. -/

theorem Stands.ends_nil (h : Stands unit (some c) replaceInvalid before [] w) :
    Ends unit c replaceInvalid before [] w true where
  written := h.written
  fits := h.fits c rfl
  whole _ := joined_nil
  full hmore hne := absurd (List.append_eq_nil_iff.mp hmore.symm).1 hne
  done _ := rfl
  left _ _ := rfl

/-- The buffer is full. -/
theorem Stands.ends_full (h : Stands unit (some c) replaceInvalid before (u :: rest) w)
    (hfull : c - w.written.length = 0) :
    Ends unit c replaceInvalid before (u :: rest) w true := by
  have hfits := h.fits c rfl
  have hlength := congrArg List.length h.written.written
  have hone := (length_bytesOf_concat replaceInvalid (before.map unit) (unit u)).1
  refine { written := h.written, fits := hfits, whole := ?_, full := ?_, done := nofun,
           left := fun _ hlt => absurd hlt (by omega) }
  · intro hreplace
    rw [Bool.eq_false_iff]
    intro hjoined
    have hlt := h.room hreplace hjoined c rfl
    omega
  · exact fun hmore hne _ => full_of_unit (by rw [map_concat]; omega) hmore hne

/-- The pair would be torn. -/
theorem Stands.ends_torn (h : Stands unit (some c) replaceInvalid before (u :: rest) w)
    (hroom : c - w.written.length < 4) (hreplace : replaceInvalid = true)
    (hlead : Utf8.isLead (unit u)) (htrail : (rest.map unit).head?.any Utf8.isTrail) :
    Ends unit c replaceInvalid before (u :: rest) w false := by
  have hlength := congrArg List.length h.written.written
  refine { written := h.written, fits := h.fits c rfl, whole := fun _ => Utf8.joined_lead hlead,
           full := ?_, done := nofun, left := nofun }
  intro more rest' hmore hne hwhole
  cases rest with
  | nil => cases htrail
  | cons v rest =>
    obtain ⟨x, more, rfl⟩ := List.exists_cons_of_ne_nil hne
    obtain ⟨rfl, hrest⟩ : u = x ∧ v :: rest = more ++ rest' := List.cons.inj hmore
    cases more with
    | nil =>
      -- the part ends between the two halves
      rw [List.nil_append] at hrest
      rw [← hrest, map_concat, Utf8.joined_concat, hlead, Bool.true_and] at hwhole
      exact absurd htrail (Bool.eq_false_iff.mp (hwhole hreplace))
    | cons y more =>
      obtain ⟨rfl, -⟩ : v = y ∧ rest = more ++ rest' := List.cons.inj hrest
      have hjoined : Utf8.joined ((before ++ [u]).map unit) [unit v] := by
        rw [map_concat, Utf8.joined_concat, hlead]
        exact htrail
      have hpair : (bytesOf replaceInvalid ((before ++ [u] ++ [v]).map unit)).length =
          (bytesOf replaceInvalid (before.map unit)).length + 4 := by
        rw [map_concat, length_bytesOf_joined hjoined, map_concat,
          bytesOf_append (Utf8.joined_lead hlead), bytesOf_singleton, List.length_append,
          length_form_lead hlead]
      have hle := length_bytesOf_map unit replaceInvalid (before ++ [u] ++ [v]) more
      have hsame : before ++ [u] ++ [v] ++ more = before ++ u :: v :: more := by simp
      rw [hsame] at hle
      omega

/-- The unit does not fit. -/
theorem Stands.ends_long (h : Stands unit (some c) replaceInvalid before (u :: rest) w)
    (halone : Utf8.joined (before.map unit) [unit u] = false)
    (hlong : c - w.written.length < (Unibrow.encodeAlone (unit u).toUInt32 replaceInvalid).length) :
    Ends unit c replaceInvalid before (u :: rest) w false := by
  have hlength := congrArg List.length (h.written.alone halone)
  rw [List.length_append] at hlength
  exact { written := h.written, fits := h.fits c rfl, whole := fun _ => halone,
          full := fun hmore hne _ => full_of_unit (by rw [map_concat]; omega) hmore hne,
          done := nofun, left := nofun }

/-- The second half of a pair is written. -/
theorem Stands.pair (h : Stands unit (some c) replaceInvalid before (u :: rest) w)
    (hroom : c - w.written.length ≠ 0) (hjoined : Utf8.joined (before.map unit) [unit u]) :
    Stands unit (some c) replaceInvalid (before ++ [u]) rest
      (w.put replaceInvalid (unit u).toUInt32) := by
  obtain ⟨init, lead, -, hlead, htrail⟩ := exists_of_joined hjoined
  have hput := h.written.put (unit u)
  have hlength := congrArg List.length h.written.written
  have hputlength := congrArg List.length hput.written
  rw [length_bytesOf_joined hjoined] at hputlength
  refine ⟨by rwa [map_concat], ?_, ?_⟩
  · rintro _ ⟨⟩
    omega
  · intro _ hnext
    rw [map_concat, Utf8.joined_concat, Bool.and_eq_true] at hnext
    exact absurd htrail (by rw [Utf8.isTrail_of_isLead hnext.1]; decide)

/-- A unit that completes no pair is written. -/
theorem Stands.alone (h : Stands unit (some c) replaceInvalid before (u :: rest) w)
    (halone : Utf8.joined (before.map unit) [unit u] = false)
    (hfits : (Unibrow.encodeAlone (unit u).toUInt32 replaceInvalid).length ≤ c - w.written.length)
    (htorn : replaceInvalid = true → Utf8.isLead (unit u) = true →
      (rest.map unit).head?.any Utf8.isTrail = true → 4 ≤ c - w.written.length) :
    Stands unit (some c) replaceInvalid (before ++ [u]) rest
      ⟨w.written ++ Unibrow.encodeAlone (unit u).toUInt32 replaceInvalid,
        some (unit u).toUInt32⟩ := by
  have hlt := UInt16.toNat_lt (unit u)
  have hle := h.fits c rfl
  refine ⟨⟨?_, Or.inl ?_⟩, ?_, ?_⟩
  · rw [map_concat, h.written.alone halone]
  · rw [map_concat, List.getLast?_concat]
    rfl
  · rintro _ ⟨⟩
    rw [List.length_append]
    omega
  · rintro hreplace hnext _ ⟨⟩
    rw [map_concat, Utf8.joined_concat, Bool.and_eq_true] at hnext
    have hroom := htorn hreplace hnext.1 hnext.2
    rw [List.length_append,
      encodeAlone_eq replaceInvalid (UInt16.toNat_toUInt32 (unit u)) (by omega),
      length_form_lead hnext.1]
    omega

/-- The second phase writes as much as may be. -/
theorem writeSlow_spec (hT : T.Encodes unit)
    (h : Stands unit (some c) replaceInvalid before rest w) :
    ∃ more, rest = more ++ (writeSlow T c replaceInvalid w rest).2.1 ∧
      Ends unit c replaceInvalid (before ++ more) (writeSlow T c replaceInvalid w rest).2.1
        (writeSlow T c replaceInvalid w rest).1 (writeSlow T c replaceInvalid w rest).2.2 := by
  induction rest generalizing before w with
  | nil =>
    refine ⟨[], rfl, ?_⟩
    rw [List.append_nil]
    exact h.ends_nil
  | cons u rest ih =>
    -- what holds of the rest holds of the whole
    have hcons : ∀ {w' : Writer}, Stands unit (some c) replaceInvalid (before ++ [u]) rest w' →
        ∃ more, u :: rest = more ++ (writeSlow T c replaceInvalid w' rest).2.1 ∧
          Ends unit c replaceInvalid (before ++ more) (writeSlow T c replaceInvalid w' rest).2.1
            (writeSlow T c replaceInvalid w' rest).1
            (writeSlow T c replaceInvalid w' rest).2.2 := by
      intro w' hstands
      obtain ⟨more, hmore, hends⟩ := ih hstands
      rw [List.append_assoc, List.singleton_append] at hends
      refine ⟨u :: more, ?_, hends⟩
      rw [List.cons_append, ← hmore]
    have htrail : rest.head?.any (isTrailSurrogate <| T.code ·) =
        (rest.map unit).head?.any Utf8.isTrail := by
      rw [List.head?_map, Option.any_map]
      congr 1
      funext v
      rw [hT.code, isTrailSurrogate_toUInt32]
    rw [writeSlow]
    dsimp only
    rw [hT.code, h.written.isSurrogatePair (unit u), isLeadSurrogate_toUInt32, htrail]
    split_ifs with hfull hjoined htorn hlong
    · exact ⟨[], rfl, by rw [List.append_nil]; exact h.ends_full hfull⟩
    · exact hcons (h.pair hfull hjoined)
    · simp only [Bool.and_eq_true, decide_eq_true_eq] at htorn
      obtain ⟨⟨⟨hreplace, hroom⟩, hlead⟩, hnext⟩ := htorn
      exact ⟨[], rfl, by rw [List.append_nil]; exact h.ends_torn hroom hreplace hlead hnext⟩
    · have halone := Bool.not_eq_true _ ▸ hjoined
      exact ⟨[], rfl, by rw [List.append_nil]; exact h.ends_long halone hlong⟩
    · have halone := Bool.not_eq_true _ ▸ hjoined
      refine hcons (h.alone halone (Nat.le_of_not_lt hlong) ?_)
      intro hreplace hlead hnext
      by_contra hroom
      apply htorn
      simp only [Bool.and_eq_true, decide_eq_true_eq]
      exact ⟨⟨⟨hreplace, Nat.lt_of_not_le hroom⟩, hlead⟩, hnext⟩

end Phases

/-! ## One-byte and two-byte characters -/

section Latin1

variable {replaceInvalid : Bool} {before chars : List UInt8} {w : Writer}

theorem isLead_toUInt16 (c : UInt8) : Utf8.isLead c.toUInt16 = false := by
  have hlt := UInt8.toNat_lt c
  rw [Utf8.isLead, Bool.and_eq_false_iff, decide_eq_false_iff_not, UInt8.toNat_toUInt16]
  omega

theorem codePoints_latin1 (chars : List UInt8) :
    Utf8.codePoints (chars.map UInt8.toUInt16) = chars.map UInt8.toNat := by
  induction chars with
  | nil => rfl
  | cons c chars ih =>
    rw [List.map_cons, Utf8.codePoints_cons_of_not_pair, ih, UInt8.toNat_toUInt16, List.map_cons]
    intro v _ hpair
    rw [isLead_toUInt16, Bool.false_and] at hpair
    cases hpair

/-- `EncodeOneByte` writes the form of a character, which nothing replaces. -/
theorem bytesOf_latin1 (replaceInvalid : Bool) (chars : List UInt8) :
    bytesOf replaceInvalid (chars.map UInt8.toUInt16) = chars.flatMap Unibrow.encodeOneByte := by
  rw [bytesOf, codePoints_latin1, List.flatMap_map]
  refine List.flatMap_congr fun c _ => ?_
  have hlt := UInt8.toNat_lt c
  have hvalid : c.toNat.isValidChar := Or.inl (by omega)
  rw [encodeOneByte_eq, form, Utf8.toNat_charOf, if_pos hvalid, ite_self]

/-- The mask of the first phase tells ASCII characters. -/
theorem mask_eq_zero_iff (chars : List UInt8) (mask : UInt8) :
    chars.foldl (fun mask c => mask ||| c) mask &&& 0x80 = 0 ↔
      mask &&& 0x80 = 0 ∧ ∀ c ∈ chars, c.toNat < 0x80 := by
  induction chars generalizing mask with
  | nil => simp
  | cons c chars ih =>
    have hbit : c &&& 0x80 = 0 ↔ c.toNat < 0x80 :=
      forall_byte (p := fun c => c &&& 0x80 = 0 ↔ c.toNat < 0x80) (by decide +kernel) c
    have hor : (mask ||| c) &&& 0x80 = 0 ↔ mask &&& 0x80 = 0 ∧ c &&& 0x80 = 0 := by
      rw [← UInt8.toBitVec_inj, ← UInt8.toBitVec_inj, ← UInt8.toBitVec_inj]
      simp [BitVec.and_or_distrib_right]
    rw [List.foldl_cons, ih, hor, hbit, List.forall_mem_cons, and_assoc]

theorem foldl_encodeOneByte (chars out : List UInt8) :
    chars.foldl (fun out c => out ++ Unibrow.encodeOneByte c) out =
      out ++ chars.flatMap Unibrow.encodeOneByte := by
  induction chars generalizing out with
  | nil => simp
  | cons c chars ih => rw [List.foldl_cons, ih, List.flatMap_cons, List.append_assoc]

theorem flatMap_encodeOneByte_ascii (h : ∀ c ∈ chars, c.toNat < 0x80) :
    chars.flatMap Unibrow.encodeOneByte = chars := by
  induction chars with
  | nil => rfl
  | cons c chars ih =>
    have hc := h c List.mem_cons_self
    rw [List.flatMap_cons, ih fun d hd => h d (List.mem_cons_of_mem c hd),
      Unibrow.encodeOneByte, kMaxOneByteChar, if_pos (Nat.le_of_lt_succ hc), List.singleton_append]

/-- Both ways of writing a block of one-byte characters write its bytes. -/
theorem written_uint8_t (replaceInvalid : Bool) (w : Writer) (chars : List UInt8) :
    (uint8_t.writeBlock replaceInvalid w chars) =
      { w with written := w.written ++ chars.flatMap Unibrow.encodeOneByte } := by
  rw [uint8_t]
  dsimp only
  split_ifs with hmask
  · have hascii := ((mask_eq_zero_iff chars 0).mp hmask).2
    rw [flatMap_encodeOneByte_ascii hascii]
  · rw [foldl_encodeOneByte]

theorem getLast?_latin1 (chars : List UInt8) :
    (chars.map UInt8.toUInt16).getLast?.any Utf8.isLead = false := by
  rw [List.getLast?_map, Option.any_map]
  cases chars.getLast? with
  | none => rfl
  | some c => exact isLead_toUInt16 c

theorem encodes_uint8_t : uint8_t.Encodes UInt8.toUInt16 where
  code c := by
    apply UInt32.toNat_inj.mp
    rw [UInt16.toNat_toUInt32, UInt8.toNat_toUInt16]
    exact UInt8.toNat_toUInt32 c
  block := by
    intro replaceInvalid before w chars h
    rw [written_uint8_t]
    refine ⟨?_, Or.inr ⟨?_, getLast?_latin1 _⟩⟩
    · rw [h.written, bytesOf_latin1, bytesOf_latin1, List.flatMap_append]
    · -- the character before is none of two bytes
      rcases h.prev with hprev | ⟨hprev, -⟩
      · rw [hprev, Option.any_map]
        exact (congrArg (Option.any · _) (funext isLeadSurrogate_toUInt32)).trans
          (getLast?_latin1 before)
      · exact hprev
  pos := by decide
  size := by
    intro replaceInvalid before c
    have hone : (Unibrow.encodeOneByte c).length ≤ 2 := by
      unfold Unibrow.encodeOneByte
      split_ifs <;> simp
    rw [bytesOf_latin1, bytesOf_latin1, List.flatMap_append, List.flatMap_singleton,
      List.length_append]
    exact Nat.add_le_add_left hone _

end Latin1

theorem encodes_uint16_t : uint16_t.Encodes id where
  code _ := rfl
  block := by
    intro replaceInvalid before w chars h
    rw [List.map_id] at h ⊢
    have hblock : uint16_t.writeBlock replaceInvalid w chars =
        chars.foldl (fun w c => w.put replaceInvalid c.toUInt32) w := rfl
    rw [hblock]
    induction chars generalizing before w with
    | nil => rwa [List.append_nil]
    | cons c chars ih =>
      have hrest := ih (h.put c) rfl
      rwa [List.append_assoc, List.singleton_append] at hrest
  pos := by decide
  size := by
    intro replaceInvalid before c
    rw [List.map_id, List.map_id]
    exact (length_bytesOf_concat replaceInvalid before c).2

/-! ## The law -/

section Law

variable {Unit : Type} {T : CharType Unit} {unit : Unit → UInt16}

theorem stands_start (capacity : Option ℕ) (replaceInvalid : Bool) (string : List Unit) :
    Stands unit capacity replaceInvalid [] string ⟨[], none⟩ where
  written := at_start
  fits _ _ := Nat.zero_le _
  room _ h := by cases h

/-- Without a capacity everything is written. -/
theorem writingLaw_none (hT : T.Encodes unit) (string : List Unit) (options : WriteOptions) :
    WritingLaw (string.map unit) none options (writeUtf8Impl T string none options) := by
  obtain ⟨more, hmore, hstands, hnone⟩ :=
    writeFast_spec hT (stands_start none options.replaceInvalidUtf8 string)
  rw [hnone rfl, List.append_nil] at hmore
  rw [List.nil_append, hnone rfl, ← hmore] at hstands
  have hwritten := hstands.written.written
  have hresult : writeUtf8Impl T string none options =
      ⟨bytesOf options.replaceInvalidUtf8 (string.map unit) ++
        if !options.noNullTermination then [0] else [], string.length⟩ := by
    rw [writeUtf8Impl]
    dsimp only
    rw [hnone rfl, hwritten, List.length_nil, Nat.sub_zero, Option.all_none, Bool.and_true]
  have htake : (string.map unit).take string.length = string.map unit :=
    List.take_of_length_le (List.length_map unit).le
  have hdrop : (string.map unit).drop string.length = [] :=
    List.drop_of_length_le (List.length_map unit).le
  rw [hresult]
  refine { greatest := ⟨⟨(List.length_map unit).ge, ?_, nofun⟩, ?_⟩, buffer := ?_,
           bounded := nofun }
  · intro _
    rw [htake, hdrop]
    exact joined_nil
  · rintro k ⟨hk, -⟩
    rwa [List.length_map] at hk
  · simp [htake]

theorem take_map_append (before rest : List Unit) :
    ((before ++ rest).map unit).take before.length = before.map unit := by
  rw [← List.map_take, List.take_left]

theorem drop_map_append (before rest : List Unit) :
    ((before ++ rest).map unit).drop before.length = rest.map unit := by
  rw [← List.map_drop, List.drop_left]

/-- The second phase ends behind the longest part that fits. -/
theorem Ends.greatest {c : ℕ} {replaceInvalid flag : Bool} {before rest : List Unit} {w : Writer}
    (h : Ends unit c replaceInvalid before rest w flag) :
    IsGreatest (Fitting (some c) replaceInvalid ((before ++ rest).map unit)) before.length := by
  refine ⟨⟨?_, ?_, ?_⟩, ?_⟩
  · rw [List.length_map, List.length_append]
    exact Nat.le_add_right _ _
  · rw [take_map_append, drop_map_append]
    exact h.whole
  · rintro _ ⟨⟩
    rw [take_map_append, ← h.written.written]
    exact h.fits
  · rintro k ⟨hk, hwhole, hfits⟩
    -- a longer part begins with what has been written
    by_contra hlt
    obtain ⟨extra, rfl⟩ := Nat.exists_eq_add_of_le (Nat.le_of_not_le hlt)
    rw [← List.map_take, ← List.map_drop, List.take_length_add_append,
      List.drop_length_add_append] at hwhole
    rw [← List.map_take, List.take_length_add_append] at hfits
    rw [List.length_map, List.length_append] at hk
    have hne : rest.take extra ≠ [] := by
      intro hnil
      have hlength := congrArg List.length hnil
      rw [List.length_take, List.length_nil] at hlength
      omega
    have hlong := h.full (List.take_append_drop extra rest).symm hne hwhole
    exact absurd (hfits c rfl) (Nat.not_le_of_lt hlong)

/-- With a capacity, what the second phase leaves is too long. -/
theorem writingLaw_some (hT : T.Encodes unit) (string : List Unit) (c : ℕ)
    (options : WriteOptions) :
    WritingLaw (string.map unit) (some c) options (writeUtf8Impl T string (some c) options) := by
  obtain ⟨first, hfirst, hstands, -⟩ :=
    writeFast_spec hT (stands_start (some c) options.replaceInvalidUtf8 string)
  rw [List.nil_append] at hstands
  obtain ⟨second, hsecond, hends⟩ := writeSlow_spec hT hstands
  rw [writeUtf8Impl]
  dsimp only
  generalize writeFast T (some c) options.replaceInvalidUtf8 ⟨[], none⟩ string = fast at *
  generalize writeSlow T c options.replaceInvalidUtf8 fast.1 fast.2 = slow at *
  obtain ⟨w, rest, flag⟩ := slow
  dsimp only at hsecond hends ⊢
  generalize hbefore : first ++ second = before at hends
  obtain rfl : string = before ++ rest := by
    rw [hfirst, hsecond, ← List.append_assoc, hbefore]
  have hread : (before ++ rest).length - rest.length = before.length := by
    rw [List.length_append, Nat.add_sub_cancel]
  have hwritten := hends.written.written
  rw [hread, Option.all_some]
  refine { greatest := hends.greatest, buffer := ?_, bounded := ?_ }
  · dsimp only
    rw [take_map_append, hwritten]
    congr 1
    refine if_congr ?_ rfl rfl
    simp only [Bool.and_eq_true, Bool.not_eq_true', decide_eq_true_eq, Option.some.injEq,
      forall_eq', List.length_map, List.length_append]
    constructor
    · rintro ⟨⟨hnull, hflag⟩, hroom⟩
      have hrest := hends.left hflag (by rwa [hwritten])
      refine ⟨hnull, by rw [hrest]; rfl, ?_⟩
      rwa [hrest, List.append_nil]
    · rintro ⟨hnull, hlength, hroom⟩
      have hrest : rest = [] := List.eq_nil_of_length_eq_zero (by omega)
      refine ⟨⟨hnull, hends.done hrest⟩, ?_⟩
      rwa [hrest, List.append_nil] at hroom
  · rintro _ ⟨⟩
    dsimp only
    rw [List.length_append]
    split_ifs with hroom
    · rw [Bool.and_eq_true, decide_eq_true_eq] at hroom
      exact hroom.2
    · exact hends.fits

/-- **Bytes from strings.** For every string, capacity and options, `WriteUtf8` writes the
longest part of the string that the buffer has room for, and the terminator behind the
whole. -/
theorem writingLaw (content : FlatContent) (capacity : Option ℕ) (options : WriteOptions) :
    WritingLaw content.units capacity options (writeUtf8 content capacity options) := by
  have himpl : ∀ {Unit : Type} {T : CharType Unit} {unit : Unit → UInt16}, T.Encodes unit →
      ∀ string, WritingLaw (string.map unit) capacity options
        (writeUtf8Impl T string capacity options) := by
    intro Unit T unit hT string
    cases capacity with
    | none => exact writingLaw_none hT string options
    | some c => exact writingLaw_some hT string c options
  cases content with
  | oneByte chars => exact himpl encodes_uint8_t chars
  | twoByte chars =>
    have h := himpl encodes_uint16_t chars
    rwa [List.map_id] at h

end Law

end NodeMini.Strings
