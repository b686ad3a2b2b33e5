import NodeMini.Files.ReadFile
import NodeMini.Native.JsString
import NodeMini.Strings.Utf8Dfa

/-!
# Strings from bytes

V8 makes a string of bytes in two passes over them: the constructor of `Utf8Decoder` counts
the code units and finds out whether they fit one byte each, the string is allocated, and
`Decode` writes the code units to it. Neither pass looks at an ASCII prefix, which
`NonAsciiStart` finds word by word.

Both passes run the automaton, so they agree: as many units are written as have been
counted, no unit is cut off in a string of one-byte characters, and the alignment of the
bytes plays no role. The string is the decoding of the bytes with replacement.

## Main definitions

* `nonAsciiStart` — `NonAsciiStart`
* `Utf8Decoder.new`, `Utf8Decoder.decode` — the two passes
* `newStringFromUtf8`, `stringNewFromUtf8` — `Factory::NewStringFromUtf8`, and
  `String::NewFromUtf8` in front of it
* `DecodingLaw` — what the passes do to any bytes

## Main results

* `exists_lossy_values` — the automaton decodes with replacement
* `decodingLaw` — `DecodingLaw` for all bytes at every address
* `units_newStringFromUtf8_encodeText` — text is decoded to its code units
-/

namespace NodeMini.Strings

open Lib

/-! ## The ASCII prefix -/

/-- `unibrow::Utf8::kMaxOneByteChar`. -/
def kMaxOneByteChar : ℕ := 0x7f

/-- The first loop of `NonAsciiStart`, up to an aligned address: the result is returned, or
the position and the rest of the bytes. -/
def skipUnaligned (address : ℕ) : ℕ → List UInt8 → ℕ ⊕ ℕ × List UInt8
  | pos, [] => .inr (pos, [])
  | pos, c :: rest =>
    if (address + pos) % 8 = 0 then .inr (pos, c :: rest)
    else if c.toNat > kMaxOneByteChar then .inl pos
    else skipUnaligned address (pos + 1) rest

/-- The second loop, over words: a word is masked for the high bits of its bytes. -/
def skipWords : ℕ → List UInt8 → ℕ ⊕ ℕ × List UInt8
  | pos, b0 :: b1 :: b2 :: b3 :: b4 :: b5 :: b6 :: b7 :: rest =>
    if [b0, b1, b2, b3, b4, b5, b6, b7].any (0x80 ≤ ·.toNat) then .inl pos
    else skipWords (pos + 8) rest
  | pos, rest => .inr (pos, rest)

/-- The last loop, over bytes. -/
def skipBytes : ℕ → List UInt8 → ℕ
  | pos, [] => pos
  | pos, c :: rest => if c.toNat > kMaxOneByteChar then pos else skipBytes (pos + 1) rest

/-- `NonAsciiStart`, for characters at an address. -/
def nonAsciiStart (address : ℕ) (chars : List UInt8) : ℕ :=
  if 8 ≤ chars.length then
    match skipUnaligned address 0 chars with
    | .inl pos => pos
    | .inr (pos, rest) =>
      match skipWords pos rest with
      | .inl pos => pos
      | .inr (pos, rest) => skipBytes pos rest
  else skipBytes 0 chars

/-! ## The two passes -/

section Loop

variable {σ : Type}

theorem advanced_or_start (next : UInt8) (d : Dfa) :
    (valueOfIncremental next d).advanced = true ∨
      d.state ≠ .kAccept ∧ (valueOfIncremental next d).dfa.state = .kAccept := by
  unfold valueOfIncremental
  split
  · exact Or.inl rfl
  split
  · exact Or.inl rfl
  · by_cases h : d.state = .kAccept
    · exact Or.inl (by simpa using h)
    · exact Or.inr ⟨h, rfl⟩
  · exact Or.inl rfl

/-- The loop `while (cursor < end)`, with what it does with a character. -/
def valueLoop (body : σ → UInt32 → σ) : List UInt8 → Dfa → σ → σ × Dfa
  | [], d, acc => (acc, d)
  | next :: rest, d, acc =>
    let t := valueOfIncremental next d
    let acc := if t.value ≠ kIncomplete then body acc t.value else acc
    if _h : t.advanced then valueLoop body rest t.dfa acc
    else valueLoop body (next :: rest) t.dfa acc
termination_by bytes d _ => (bytes.length, if d.state = .kAccept then 0 else 1)
decreasing_by
  · exact Prod.Lex.left _ _ (Nat.lt_succ_self _)
  · obtain ⟨hstate, hdfa⟩ := (advanced_or_start next d).resolve_left _h
    rw [if_neg hstate, if_pos hdfa]
    exact Prod.Lex.right _ Nat.zero_lt_one

end Loop

/-- `Utf8Decoder::Encoding`. -/
inductive Encoding
  | kAscii
  | kLatin1
  | kUtf16
  deriving DecidableEq, Repr

/-- `class Utf8Decoder`. -/
structure Utf8Decoder where
  encoding : Encoding
  nonAsciiStart : ℕ
  utf16Length : ℕ
  deriving DecidableEq, Repr

/-- `is_one_byte`. -/
def Utf8Decoder.isOneByte (decoder : Utf8Decoder) : Bool := decoder.encoding ≠ .kUtf16

/-- What the constructor keeps: `is_one_byte` and `utf16_length_`. -/
structure Count where
  isOneByte : Bool
  utf16Length : ℕ
  deriving DecidableEq, Repr

/-- The body of the loop of the constructor. -/
def Count.add (count : Count) (t : UInt32) : Count where
  isOneByte := count.isOneByte && t.toNat ≤ 0xff
  utf16Length := count.utf16Length + 1 + if t.toNat > 0xffff then 1 else 0

/-- The constructor of `Utf8Decoder`, for characters at an address. -/
def Utf8Decoder.new (address : ℕ) (chars : List UInt8) : Utf8Decoder :=
  let start := Strings.nonAsciiStart address chars
  if start = chars.length then ⟨.kAscii, start, start⟩
  else
    let (count, dfa) := valueLoop Count.add (chars.drop start) .start ⟨true, start⟩
    let count :=
      if valueOfIncrementalFinish dfa ≠ kBufferEmpty then ⟨false, count.utf16Length + 1⟩
      else count
    ⟨if count.isOneByte then .kLatin1 else .kUtf16, start, count.utf16Length⟩

/-- `Utf8Decoder::Decode`, with the type of the code units given by how a character is
written and how a byte and the last character are cast to it. -/
def Utf8Decoder.decode {Unit : Type} (put : UInt32 → List Unit) (copy : UInt8 → Unit)
    (cast : UInt32 → Unit) (decoder : Utf8Decoder) (data : List UInt8) : List Unit :=
  let (out, dfa) := valueLoop (fun out t => out ++ put t) (data.drop decoder.nonAsciiStart) .start
    ((data.take decoder.nonAsciiStart).map copy)
  let t := valueOfIncrementalFinish dfa
  if t ≠ kBufferEmpty then out ++ [cast t] else out

/-- `Utf16::LeadSurrogate`. -/
def leadSurrogate (c : UInt32) : UInt16 :=
  ((0xd800 : UInt32) + (((c - 0x10000) >>> 10) &&& 0x3ff)).toUInt16

/-- `Utf16::TrailSurrogate`. -/
def trailSurrogate (c : UInt32) : UInt16 := ((0xdc00 : UInt32) + (c &&& 0x3ff)).toUInt16

/-- A character is written as one code unit or as a surrogate pair. -/
def putTwoByte (t : UInt32) : List UInt16 :=
  if t.toNat ≤ 0xffff then [t.toUInt16] else [leadSurrogate t, trailSurrogate t]

/-- `Decode<uint8_t>`. -/
def Utf8Decoder.decodeOneByte : Utf8Decoder → List UInt8 → List UInt8 :=
  Utf8Decoder.decode (fun t => [t.toUInt8]) id UInt32.toUInt8

/-- `Decode<uint16_t>`. -/
def Utf8Decoder.decodeTwoByte : Utf8Decoder → List UInt8 → List UInt16 :=
  Utf8Decoder.decode putTwoByte UInt8.toUInt16 UInt32.toUInt16

/-- The characters of a flat string: of one byte each, or of two. -/
inductive FlatContent
  | oneByte (chars : List UInt8)
  | twoByte (chars : List UInt16)
  deriving DecidableEq, Repr

/-- The code units of a string. -/
def FlatContent.units : FlatContent → JsString
  | .oneByte chars => chars.map UInt8.toUInt16
  | .twoByte chars => chars

/-- `Factory::NewStringFromUtf8`. -/
def newStringFromUtf8 (address : ℕ) (string : List UInt8) : FlatContent :=
  let decoder := Utf8Decoder.new address string
  if decoder.utf16Length = 0 then .oneByte []
  else if decoder.isOneByte then .oneByte (decoder.decodeOneByte string)
  else .twoByte (decoder.decodeTwoByte string)

/-- The text that bytes are decoded to. -/
def replaced (out : List (Option Char)) : List Char := out.map fun o => o.getD '\uFFFD'

/-- `String::NewFromUtf8` on a buffer at an address, with the string that is made of the bytes. -/
def stringNewFromUtf8 (address : ℕ) (data : List UInt8) (length : ℤ) :
    Except Halt (Option FlatContent) := do
  return (← newFromUtf8 data length).map (newStringFromUtf8 address)

/-- What the two passes do to bytes at an address. -/
structure DecodingLaw (address : ℕ) (bytes : List UInt8) : Prop where
  /-- The string is the decoding of the bytes with replacement. -/
  decoded : ∃ out, Lossy Utf8.encodeChar bytes out ∧
    (newStringFromUtf8 address bytes).units = Utf8.textUnits (replaced out)
  /-- The second pass fills the string that the first has measured. -/
  fits : (newStringFromUtf8 address bytes).units.length =
    (Utf8Decoder.new address bytes).utf16Length
  /-- The string is no longer than the bytes. -/
  le : (Utf8Decoder.new address bytes).utf16Length ≤ bytes.length
  /-- One byte is used for each character whenever that is possible. -/
  oneByte : (Utf8Decoder.new address bytes).isOneByte = true ↔
    ∀ u ∈ (newStringFromUtf8 address bytes).units, u.toNat ≤ 0xff
  /-- The address does not matter. -/
  aligned : ∀ address', newStringFromUtf8 address' bytes = newStringFromUtf8 address bytes
  /-- `NewFromUtf8` makes this string of up to `String::kMaxLength` bytes, and none of more. -/
  limit : stringNewFromUtf8 address bytes bytes.length =
    .ok (if bytes.length ≤ kMaxLength then some (newStringFromUtf8 address bytes) else none)

/-! ## The loop as a list of characters -/

section Values

variable {σ : Type} {body : σ → UInt32 → σ} {acc : σ} {d : Dfa} {next : UInt8}
  {rest bytes p : List UInt8} {ts : List UInt32}

/-- The characters the loop finds, and the automaton behind it. -/
def values (bytes : List UInt8) (d : Dfa) : List UInt32 × Dfa :=
  valueLoop (fun ts t => ts ++ [t]) bytes d []

/-- The loop does the same to whatever has been found so far. -/
theorem valueLoop_foldl (body : σ → UInt32 → σ) (bytes : List UInt8) (d : Dfa) (acc : σ)
    (ts : List UInt32) : valueLoop body bytes d (ts.foldl body acc) =
      ((valueLoop (fun ts t => ts ++ [t]) bytes d ts).1.foldl body acc,
        (valueLoop (fun ts t => ts ++ [t]) bytes d ts).2) := by
  fun_induction valueLoop (fun ts t => ts ++ [t]) bytes d ts with
  | case1 d ts => rw [valueLoop]
  | case2 next rest d ts t ts' hadvanced ih =>
    rw [valueLoop, ← ih]
    simp only [t, ts'] at hadvanced ⊢
    rw [dif_pos hadvanced]
    split_ifs <;> simp
  | case3 next rest d ts t ts' hadvanced ih =>
    rw [valueLoop, ← ih]
    simp only [t, ts'] at hadvanced ⊢
    rw [dif_neg hadvanced]
    split_ifs <;> simp

theorem valueLoop_eq (body : σ → UInt32 → σ) (bytes : List UInt8) (d : Dfa) (acc : σ) :
    valueLoop body bytes d acc = ((values bytes d).1.foldl body acc, (values bytes d).2) :=
  valueLoop_foldl body bytes d acc []

/-- The characters of both passes: those of the loop, and the one for an incomplete end. -/
def decodedValues (bytes : List UInt8) (d : Dfa) : List UInt32 :=
  (values bytes d).1 ++
    if valueOfIncrementalFinish (values bytes d).2 ≠ kBufferEmpty then [kBadChar] else []

theorem values_cons (next : UInt8) (rest : List UInt8) (d : Dfa) :
    let t := valueOfIncremental next d
    let more := values (if t.advanced then rest else next :: rest) t.dfa
    values (next :: rest) d = ((if t.value ≠ kIncomplete then [t.value] else []) ++ more.1,
      more.2) := by
  have happend : ∀ ts us : List UInt32, us.foldl (fun ts t => ts ++ [t]) ts = ts ++ us := by
    intro ts us
    induction us generalizing ts with
    | nil => simp
    | cons u us ih => rw [List.foldl_cons, ih, List.append_assoc, List.singleton_append]
  intro t more
  rw [values, valueLoop]
  by_cases hadvanced : t.advanced = true
  · rw [dif_pos hadvanced, valueLoop_eq, happend]
    simp only [more, hadvanced, if_true, t]
    split_ifs <;> rfl
  · rw [dif_neg hadvanced, valueLoop_eq, happend]
    simp only [more, if_neg hadvanced, t]
    split_ifs <;> rfl

theorem decodedValues_cons (next : UInt8) (rest : List UInt8) (d : Dfa) :
    decodedValues (next :: rest) d =
      (if (valueOfIncremental next d).value ≠ kIncomplete then [(valueOfIncremental next d).value]
        else []) ++
      decodedValues (if (valueOfIncremental next d).advanced then rest else next :: rest)
        (valueOfIncremental next d).dfa := by
  rw [decodedValues, values_cons, decodedValues, List.append_assoc]

/-- The number of a character, or of the replacement character. -/
def code (o : Option Char) : UInt32 := (o.getD '\uFFFD').val

theorem code_ne_kIncomplete (o : Option Char) : code o ≠ kIncomplete := by
  intro h
  have hlt : (o.getD '\uFFFD').val.toNat < 0x110000 := Utf8.toNat_lt _
  rw [← code, h] at hlt
  exact absurd hlt (by decide)

/-- The automaton decodes with replacement, between characters and within one. -/
theorem exists_lossy_values (bytes : List UInt8) :
    (∃ out, Lossy Utf8.encodeChar bytes out ∧ decodedValues bytes .start = out.map code) ∧
    ∀ {d p}, Pending d p →
      ∃ out, Lossy Utf8.encodeChar (p ++ bytes) out ∧ decodedValues bytes d = out.map code := by
  induction bytes with
  | nil =>
    refine ⟨⟨[], .nil, ?_⟩, fun {d p} hd => ⟨[none], ?_, ?_⟩⟩
    · rw [decodedValues, values, valueLoop]
      rfl
    · rw [List.append_nil]
      exact .finish Utf8.prefixCode (hd.live.incomplete hd.within.1).1 hd.ne_nil
    · rw [decodedValues, values, valueLoop, valueOfIncrementalFinish, if_neg hd.within.1]
      rfl
  | cons next rest ih =>
    obtain ⟨⟨out, hout, hvalues⟩, hpending⟩ := ih
    have hchar : ∀ {value : UInt32} {c : Char}, value.toNat = c.toNat → value = code (some c) :=
      fun h => UInt32.toNat_inj.mp h
    have hstart : ∃ out, Lossy Utf8.encodeChar (next :: rest) out ∧
        decodedValues (next :: rest) .start = out.map code := by
      have hanswer := valueOfIncremental_start next
      rw [decodedValues_cons]
      generalize valueOfIncremental next .start = t at hanswer ⊢
      cases hanswer with
      | char c value hc hvalue =>
        refine ⟨some c :: out, Lossy.word (p := []) hc hout, ?_⟩
        rw [hchar hvalue, if_pos (code_ne_kIncomplete _), if_pos rfl, hvalues]
        rfl
      | more d hd =>
        obtain ⟨out, hout, hvalues⟩ := hpending hd
        exact ⟨out, hout, by rw [if_neg (by simp), if_pos rfl, hvalues]; rfl⟩
      | refuse h =>
        refine ⟨none :: out, .stray Utf8.prefixCode h hout, ?_⟩
        rw [if_pos (show kBadChar ≠ kIncomplete by decide), if_pos (by decide), hvalues]
        rfl
    refine ⟨hstart, fun {d p} hd => ?_⟩
    have hanswer := valueOfIncremental_pending hd next
    rw [decodedValues_cons]
    generalize valueOfIncremental next d = t at hanswer ⊢
    cases hanswer with
    | char c value hc hvalue =>
      refine ⟨some c :: out, .word hc hout, ?_⟩
      rw [hchar hvalue, if_pos (code_ne_kIncomplete _), if_pos rfl, hvalues]
      rfl
    | more d hd =>
      obtain ⟨out, hout, hvalues⟩ := hpending hd
      refine ⟨out, ?_, by rw [if_neg (by simp), if_pos rfl, hvalues]; rfl⟩
      rwa [List.append_assoc] at hout
    | refuse h =>
      -- the byte is looked at again, between characters
      obtain ⟨out, hout, hvalues⟩ := hstart
      have hincomplete := (hd.live.incomplete hd.within.1).1
      refine ⟨none :: out, .refuse Utf8.prefixCode hincomplete hd.ne_nil h hout, ?_⟩
      rw [if_pos (show kBadChar ≠ kIncomplete by decide), if_neg (by decide), hvalues]
      rfl

end Values

/-! ## The ASCII prefix is ASCII -/

section Prefix

variable {address pos n : ℕ} {chars rest : List UInt8}

/-- A loop has passed ASCII only, and stays within the bytes. -/
def Passed (chars : List UInt8) (n : ℕ) : Prop :=
  n ≤ chars.length ∧ ∀ b ∈ chars.take n, b.toNat < 0x80

theorem Passed.cons {c : UInt8} (hc : c.toNat ≤ 0x7f) (h : Passed rest n) :
    Passed (c :: rest) (n + 1) := by
  refine ⟨Nat.succ_le_succ h.1, fun b hb => ?_⟩
  rw [List.take_succ_cons] at hb
  rcases List.mem_cons.mp hb with rfl | hb
  · omega
  · exact h.2 b hb

theorem passed_zero (chars : List UInt8) : Passed chars 0 :=
  ⟨Nat.zero_le _, fun b hb => by cases hb⟩

theorem Passed.append {front : List UInt8} (hfront : ∀ b ∈ front, b.toNat < 0x80)
    (h : Passed rest n) : Passed (front ++ rest) (front.length + n) := by
  induction front with
  | nil => simpa using h
  | cons c front ih =>
    have hc := hfront c List.mem_cons_self
    have := (ih fun b hb => hfront b (List.mem_cons_of_mem c hb)).cons (c := c) (by omega)
    rwa [List.length_cons, Nat.add_right_comm]

theorem passed_skipBytes (pos : ℕ) (chars : List UInt8) :
    ∃ n, skipBytes pos chars = pos + n ∧ Passed chars n := by
  fun_induction skipBytes pos chars with
  | case1 pos => exact ⟨0, rfl, passed_zero _⟩
  | case2 pos c rest hc => exact ⟨0, rfl, passed_zero _⟩
  | case3 pos c rest hc ih =>
    obtain ⟨n, hn, hpassed⟩ := ih
    exact ⟨n + 1, by omega, hpassed.cons (Nat.le_of_not_lt hc)⟩

theorem passed_skipWords (pos : ℕ) (chars : List UInt8) :
    ∃ n, Passed chars n ∧ (skipWords pos chars = .inl (pos + n) ∨
      skipWords pos chars = .inr (pos + n, chars.drop n)) := by
  fun_induction skipWords pos chars with
  | case1 pos b0 b1 b2 b3 b4 b5 b6 b7 rest hany => exact ⟨0, passed_zero _, Or.inl rfl⟩
  | case2 pos b0 b1 b2 b3 b4 b5 b6 b7 rest hany ih =>
    obtain ⟨n, hpassed, hn⟩ := ih
    have hfront : ∀ b ∈ [b0, b1, b2, b3, b4, b5, b6, b7], b.toNat < 0x80 := by
      intro b hb
      by_contra hge
      exact hany (List.any_eq_true.mpr ⟨b, hb, by simpa using hge⟩)
    refine ⟨8 + n, hpassed.append hfront, ?_⟩
    rw [Nat.add_assoc] at hn
    exact hn.imp id fun hn => hn.trans (by simp [Nat.add_comm 8 n])
  | case3 pos chars hshort => exact ⟨0, passed_zero _, Or.inr rfl⟩

theorem passed_skipUnaligned (address pos : ℕ) (chars : List UInt8) :
    ∃ n, Passed chars n ∧ (skipUnaligned address pos chars = .inl (pos + n) ∨
      skipUnaligned address pos chars = .inr (pos + n, chars.drop n)) := by
  fun_induction skipUnaligned address pos chars with
  | case1 pos => exact ⟨0, passed_zero _, Or.inr rfl⟩
  | case2 pos c rest haligned => exact ⟨0, passed_zero _, Or.inr rfl⟩
  | case3 pos c rest haligned hc => exact ⟨0, passed_zero _, Or.inl rfl⟩
  | case4 pos c rest haligned hc ih =>
    obtain ⟨n, hpassed, hn⟩ := ih
    refine ⟨n + 1, hpassed.cons (Nat.le_of_not_lt hc), ?_⟩
    rw [Nat.add_right_comm] at hn
    exact hn

theorem Passed.drop_append {m : ℕ} (h : Passed chars n) (hm : Passed (chars.drop n) m) :
    Passed chars (n + m) := by
  have hall := hm.append h.2
  rwa [List.take_append_drop, List.length_take_of_le h.1] at hall

/-- What `NonAsciiStart` passes is ASCII, at every address. -/
theorem passed_nonAsciiStart (address : ℕ) (chars : List UInt8) :
    Passed chars (nonAsciiStart address chars) := by
  unfold nonAsciiStart
  split
  · obtain ⟨n, hn, hunaligned⟩ := passed_skipUnaligned address 0 chars
    rw [Nat.zero_add] at hunaligned
    rcases hunaligned with hunaligned | hunaligned <;> rw [hunaligned]
    · exact hn
    · obtain ⟨m, hm, hwords⟩ := passed_skipWords n (chars.drop n)
      rcases hwords with hwords | hwords <;> simp only [hwords]
      · exact hn.drop_append hm
      · obtain ⟨k, hk, hbytes⟩ := passed_skipBytes (n + m) ((chars.drop n).drop m)
        rw [hk, Nat.add_assoc]
        exact hn.drop_append (hm.drop_append hbytes)
  · obtain ⟨n, hn, hbytes⟩ := passed_skipBytes 0 chars
    rw [hn, Nat.zero_add]
    exact hbytes

/-- The decoding of ASCII bytes and more. -/
theorem exists_lossy_ascii {front : List UInt8} {out : List (Option Char)}
    (hfront : ∀ b ∈ front, b.toNat < 0x80) (h : Lossy Utf8.encodeChar rest out) :
    ∃ text : List Char, text.map (fun c => c.val) = front.map UInt8.toUInt32 ∧
      Lossy Utf8.encodeChar (front ++ rest) (text.map some ++ out) := by
  induction front with
  | nil => exact ⟨[], rfl, h⟩
  | cons b front ih =>
    obtain ⟨text, htext, hlossy⟩ := ih fun b' hb => hfront b' (List.mem_cons_of_mem b hb)
    have hb := hfront b List.mem_cons_self
    obtain ⟨c, hc, hbytes⟩ : Whole b.toNat [b] := by
      refine whole_of_encode (Or.inl (by omega)) ?_
      rw [Utf8.encodeCodePoint_ascii (by omega), UInt8.ofNat_toNat]
    refine ⟨c :: text, ?_, Lossy.word (p := []) hbytes hlossy⟩
    rw [List.map_cons, List.map_cons, htext]
    congr 1
    apply UInt32.toNat_inj.mp
    rw [UInt8.toNat_toUInt32]
    exact hc

end Prefix

/-! ## Code units -/

theorem toNat_leadSurrogate {n : ℕ} {c : UInt32} (hc : c.toNat = n) (hlow : 0x10000 ≤ n)
    (hhigh : n < 0x110000) : (leadSurrogate c).toNat = 0xD800 + (n - 0x10000) / 0x400 := by
  have hsub : (c - 0x10000).toNat = n - 0x10000 := by
    rw [UInt32.toNat_sub_of_le _ _ (UInt32.le_iff_toNat_le.mpr (by simpa [hc] using hlow)), hc]
    rfl
  have hmask : ((c - 0x10000) >>> 10 &&& 0x3ff).toNat = (n - 0x10000) / 0x400 := by
    rw [UInt32.toNat_and, UInt32.toNat_shiftRight, hsub, Nat.shiftRight_eq_div_pow]
    exact (Nat.and_two_pow_sub_one_eq_mod _ 10).trans (Nat.mod_eq_of_lt (by simp; omega))
  have hbase : (0xd800 : UInt32).toNat = 0xd800 := rfl
  rw [leadSurrogate, UInt32.toNat_toUInt16, UInt32.toNat_add, hmask, hbase]
  omega

theorem toNat_trailSurrogate {n : ℕ} {c : UInt32} (hc : c.toNat = n) (hlow : 0x10000 ≤ n) :
    (trailSurrogate c).toNat = 0xDC00 + (n - 0x10000) % 0x400 := by
  have hmask : (c &&& 0x3ff).toNat = (n - 0x10000) % 0x400 := by
    rw [UInt32.toNat_and, hc]
    exact (Nat.and_two_pow_sub_one_eq_mod _ 10).trans (by omega)
  have hbase : (0xdc00 : UInt32).toNat = 0xdc00 := rfl
  rw [trailSurrogate, UInt32.toNat_toUInt16, UInt32.toNat_add, hmask, hbase]
  omega

/-- A character is written as its code units. -/
theorem putTwoByte_code (o : Option Char) :
    putTwoByte (code o) = Utf8.codeUnits (o.getD '\uFFFD').toNat := by
  have hc : (code o).toNat = (o.getD '\uFFFD').toNat := rfl
  have hlt := Utf8.toNat_lt (o.getD '\uFFFD')
  rw [← hc] at hlt ⊢
  generalize code o = t at hlt
  have hunit : ∀ {u : UInt16} {k : ℕ}, u.toNat = k → k < 0x10000 → u = UInt16.ofNat k := by
    intro u k hu hk
    apply UInt16.toNat_inj.mp
    rw [hu, UInt16.toNat_ofNat', Nat.mod_eq_of_lt hk]
  unfold putTwoByte Utf8.codeUnits
  by_cases hbmp : t.toNat ≤ 0xffff
  · rw [if_pos hbmp, if_pos (by omega)]
    rfl
  · rw [if_neg hbmp, if_neg (by omega),
      hunit (toNat_leadSurrogate rfl (by omega) hlt) (by omega),
      hunit (toNat_trailSurrogate rfl (by omega)) (by omega)]

theorem flatMap_putTwoByte (out : List (Option Char)) :
    (out.map code).flatMap putTwoByte = Utf8.textUnits (replaced out) := by
  rw [List.flatMap_map, replaced, Utf8.textUnits, List.flatMap_map]
  exact List.flatMap_congr fun o _ => putTwoByte_code o

/-! ## The two passes agree -/

section Passes

variable {address : ℕ} {bytes : List UInt8} {out : List (Option Char)} {ts : List UInt32}

/-- All characters, those of the ASCII prefix included. -/
def allValues (address : ℕ) (bytes : List UInt8) : List UInt32 :=
  (bytes.take (nonAsciiStart address bytes)).map UInt8.toUInt32 ++
    decodedValues (bytes.drop (nonAsciiStart address bytes)) .start

/-- At every address the characters are those of the decoding with replacement. -/
theorem allValues_eq (address : ℕ) (h : Lossy Utf8.encodeChar bytes out) :
    allValues address bytes = out.map code := by
  obtain ⟨out', hlossy, hvalues⟩ :=
    (exists_lossy_values (bytes.drop (nonAsciiStart address bytes))).1
  obtain ⟨text, htext, hall⟩ := exists_lossy_ascii (passed_nonAsciiStart address bytes).2 hlossy
  rw [List.take_append_drop] at hall
  rw [allValues, hvalues, ← htext, h.unique Utf8.prefixCode hall, List.map_append, List.map_map]
  rfl

theorem exists_lossy (bytes : List UInt8) : ∃ out, Lossy Utf8.encodeChar bytes out := by
  obtain ⟨out, hout, -⟩ := (exists_lossy_values bytes).1
  exact ⟨out, hout⟩

/-- The last character is the replacement character, if there is one. -/
theorem valueOfIncrementalFinish_cases (d : Dfa) :
    valueOfIncrementalFinish d = kBufferEmpty ∨ valueOfIncrementalFinish d = kBadChar := by
  unfold valueOfIncrementalFinish
  split
  · exact Or.inl rfl
  · exact Or.inr rfl

/-- The second pass writes all characters. -/
theorem decode_eq {Unit : Type} {put : UInt32 → List Unit} {copy : UInt8 → Unit}
    {cast : UInt32 → Unit} {decoder : Utf8Decoder}
    (hdecoder : decoder.nonAsciiStart = nonAsciiStart address bytes)
    (hcopy : ∀ b : UInt8, b.toNat < 0x80 → put b.toUInt32 = [copy b])
    (hcast : put kBadChar = [cast kBadChar]) :
    decoder.decode put copy cast bytes = (allValues address bytes).flatMap put := by
  have happend : ∀ (us : List Unit) (ts : List UInt32),
      ts.foldl (fun out t => out ++ put t) us = us ++ ts.flatMap put := by
    intro us ts
    induction ts generalizing us with
    | nil => simp
    | cons t ts ih => rw [List.foldl_cons, ih, List.flatMap_cons, List.append_assoc]
  have hfront : (bytes.take (nonAsciiStart address bytes)).map copy =
      ((bytes.take (nonAsciiStart address bytes)).map UInt8.toUInt32).flatMap put := by
    have hone := fun b hb => hcopy b ((passed_nonAsciiStart address bytes).2 b hb)
    rw [List.flatMap_map, List.flatMap_congr hone, ← List.map_eq_flatMap]
  rw [Utf8Decoder.decode, hdecoder, valueLoop_eq, happend, allValues, decodedValues,
    List.flatMap_append, List.flatMap_append, ← List.append_assoc, ← hfront]
  rcases valueOfIncrementalFinish_cases
    (values (bytes.drop (nonAsciiStart address bytes)) .start).2 with hfinish | hfinish
  · simp [hfinish]
  · have hbad : kBadChar ≠ kBufferEmpty := by decide
    simp [hfinish, hbad, hcast]

/-- What the first pass counts. -/
theorem foldl_add (count : Count) (ts : List UInt32) : ts.foldl Count.add count =
    ⟨count.isOneByte && ts.all (·.toNat ≤ 0xff),
      count.utf16Length + (ts.flatMap putTwoByte).length⟩ := by
  induction ts generalizing count with
  | nil => simp
  | cons t ts ih =>
    rw [List.foldl_cons, ih, List.flatMap_cons, List.length_append, List.all_cons, Count.add,
      Bool.and_assoc]
    congr 1
    unfold putTwoByte
    split_ifs <;> simp <;> omega

/-- The character for an incomplete end is counted as the others are. -/
theorem count_eq (rest : List UInt8) (start : ℕ) :
    (if valueOfIncrementalFinish (values rest .start).2 ≠ kBufferEmpty then
        ⟨false, ((values rest .start).1.foldl Count.add ⟨true, start⟩).utf16Length + 1⟩
      else (values rest .start).1.foldl Count.add ⟨true, start⟩) =
      (⟨(decodedValues rest .start).all (·.toNat ≤ 0xff),
        start + ((decodedValues rest .start).flatMap putTwoByte).length⟩ : Count) := by
  have hfold := foldl_add ⟨true, start⟩ (decodedValues rest .start)
  rw [Bool.true_and] at hfold
  rw [← hfold, decodedValues, List.foldl_append]
  split_ifs
  · have hbad : decide (kBadChar.toNat ≤ 0xff) = false := by decide
    rw [List.foldl_cons, List.foldl_nil, Count.add, hbad, Bool.and_false, if_neg (by decide)]
  · rfl

/-- A prefix of ASCII is counted by its length. -/
theorem length_flatMap_ascii {front : List UInt8} (hfront : ∀ b ∈ front, b.toNat < 0x80) :
    ((front.map UInt8.toUInt32).flatMap putTwoByte).length = front.length ∧
      (front.map UInt8.toUInt32).all (·.toNat ≤ 0xff) = true := by
  constructor
  · have hone : ∀ b ∈ front, putTwoByte b.toUInt32 = [b.toUInt32.toUInt16] := by
      intro b hb
      have := hfront b hb
      rw [putTwoByte, if_pos (by rw [UInt8.toNat_toUInt32]; omega)]
    rw [List.flatMap_map, List.flatMap_congr hone, ← List.map_eq_flatMap, List.length_map]
  · rw [List.all_eq_true]
    intro t ht
    obtain ⟨b, hb, rfl⟩ := List.mem_map.mp ht
    have := hfront b hb
    rw [decide_eq_true_eq, UInt8.toNat_toUInt32]
    omega

/-- The first pass has counted all characters. -/
theorem new_eq (address : ℕ) (bytes : List UInt8) : Utf8Decoder.new address bytes =
    ⟨if nonAsciiStart address bytes = bytes.length then .kAscii
      else if (allValues address bytes).all (·.toNat ≤ 0xff) then .kLatin1 else .kUtf16,
      nonAsciiStart address bytes, ((allValues address bytes).flatMap putTwoByte).length⟩ := by
  have hpassed := passed_nonAsciiStart address bytes
  obtain ⟨hlength, hall⟩ := length_flatMap_ascii hpassed.2
  rw [List.length_take_of_le hpassed.1] at hlength
  rw [allValues, List.all_append, hall, Bool.true_and, List.flatMap_append, List.length_append,
    hlength, Utf8Decoder.new]
  by_cases hascii : nonAsciiStart address bytes = bytes.length
  · -- nothing is left for the loop
    have hrest : decodedValues (bytes.drop (nonAsciiStart address bytes)) .start = [] := by
      rw [hascii, List.drop_length, decodedValues, values, valueLoop]
      rfl
    simp only [if_pos hascii, hrest]
    rfl
  · simp only [if_neg hascii, valueLoop_eq, count_eq]

/-- A string of one-byte characters is made exactly if all characters fit. -/
theorem isOneByte_new (address : ℕ) (bytes : List UInt8) :
    (Utf8Decoder.new address bytes).isOneByte = (allValues address bytes).all (·.toNat ≤ 0xff) := by
  rw [new_eq, Utf8Decoder.isOneByte]
  split_ifs with hascii hone
  · -- all bytes are ASCII
    have hpassed := passed_nonAsciiStart address bytes
    have hrest : decodedValues (bytes.drop (nonAsciiStart address bytes)) .start = [] := by
      rw [hascii, List.drop_length, decodedValues, values, valueLoop]
      rfl
    rw [allValues, hrest, List.append_nil, (length_flatMap_ascii hpassed.2).2]
    rfl
  · rw [hone]
    rfl
  · rw [Bool.eq_false_iff.mpr hone]
    rfl

/-- The string with some characters. -/
def ofCodes (ts : List UInt32) : FlatContent :=
  if ts.flatMap putTwoByte = [] then .oneByte []
  else if ts.all (·.toNat ≤ 0xff) then .oneByte (ts.map UInt32.toUInt8)
  else .twoByte (ts.flatMap putTwoByte)

/-- The string has all characters. -/
theorem newStringFromUtf8_eq (address : ℕ) (bytes : List UInt8) :
    newStringFromUtf8 address bytes = ofCodes (allValues address bytes) := by
  have hone : ∀ b : UInt8, b.toNat < 0x80 → [b.toUInt32.toUInt8] = [id b] := by simp
  have htwo : ∀ b : UInt8, b.toNat < 0x80 → putTwoByte b.toUInt32 = [b.toUInt16] := by
    intro b hb
    rw [putTwoByte, if_pos (by rw [UInt8.toNat_toUInt32]; omega)]
    simp
  have hstart : (Utf8Decoder.new address bytes).nonAsciiStart = nonAsciiStart address bytes := by
    rw [new_eq]
  rw [newStringFromUtf8, isOneByte_new, Utf8Decoder.decodeOneByte, Utf8Decoder.decodeTwoByte,
    decode_eq hstart hone rfl,
    decode_eq hstart htwo rfl, ← List.map_eq_flatMap, new_eq]
  simp only [List.length_eq_zero_iff]
  rfl

theorem units_ofCodes (ts : List UInt32) : (ofCodes ts).units = ts.flatMap putTwoByte := by
  unfold ofCodes
  split_ifs with hempty hone
  · rw [hempty]
    rfl
  · rw [FlatContent.units, List.map_map, List.map_eq_flatMap]
    refine List.flatMap_congr fun t ht => ?_
    have hle : t.toNat ≤ 0xff := by simpa using List.all_eq_true.mp hone t ht
    have hunit : t.toUInt8.toUInt16 = t.toUInt16 := by
      apply UInt16.toNat_inj.mp
      rw [UInt8.toNat_toUInt16, UInt32.toNat_toUInt8, UInt32.toNat_toUInt16]
      omega
    rw [putTwoByte, if_pos (by omega), Function.comp_apply, hunit]
  · rfl

/-- The string is the decoding with replacement. -/
theorem units_newStringFromUtf8 (address : ℕ) (h : Lossy Utf8.encodeChar bytes out) :
    (newStringFromUtf8 address bytes).units = Utf8.textUnits (replaced out) := by
  rw [newStringFromUtf8_eq, units_ofCodes, allValues_eq address h, flatMap_putTwoByte]

/-- A character has no more code units than bytes, and a replacement has one. -/
theorem length_textUnits_le (h : Lossy Utf8.encodeChar bytes out) :
    (Utf8.textUnits (replaced out)).length ≤ bytes.length := by
  induction h with
  | nil => exact Nat.le_refl 0
  | @char c rest out _ ih =>
    have hlength : (Utf8.codeUnits c.toNat).length ≤ (Utf8.encodeChar c).length := by
      unfold Utf8.codeUnits Utf8.encodeChar Utf8.encodeCodePoint
      split_ifs <;> simp
      omega
    have hcons : Utf8.textUnits (replaced (some c :: out)) =
        Utf8.codeUnits c.toNat ++ Utf8.textUnits (replaced out) := rfl
    rw [hcons, List.length_append, List.length_append]
    omega
  | @replace p rest out hp _ ih =>
    have hcons : Utf8.textUnits (replaced (none :: out)) =
        [0xfffd] ++ Utf8.textUnits (replaced out) := rfl
    have hlength : 1 ≤ p.length := List.length_pos_of_ne_nil hp.ne_nil
    rw [hcons, List.length_append, List.length_append, List.length_singleton]
    omega

/-- A unit of a character fits one byte exactly if the character does. -/
theorem forall_putTwoByte_iff (o : Option Char) :
    (∀ u ∈ putTwoByte (code o), u.toNat ≤ 0xff) ↔ (code o).toNat ≤ 0xff := by
  have hlt : (code o).toNat < 0x110000 := Utf8.toNat_lt (o.getD '\uFFFD')
  by_cases hbmp : (code o).toNat ≤ 0xffff
  · rw [putTwoByte, if_pos hbmp, List.forall_mem_singleton, UInt32.toNat_toUInt16,
      Nat.mod_eq_of_lt (by omega)]
  · rw [putTwoByte, if_neg hbmp]
    refine iff_of_false (fun h => ?_) (by omega)
    have hlead := h _ List.mem_cons_self
    rw [toNat_leadSurrogate rfl (by omega) hlt] at hlead
    omega

/-- What is longer than the longest string is refused unread. -/
theorem stringNewFromUtf8_eq (address : ℕ) (bytes : List UInt8) :
    stringNewFromUtf8 address bytes bytes.length =
      .ok (if bytes.length ≤ kMaxLength then some (newStringFromUtf8 address bytes) else none) := by
  unfold stringNewFromUtf8
  split_ifs with h
  · rw [newFromUtf8_of_le bytes h, List.take_length]
    rfl
  · rw [newFromUtf8_of_lt bytes (Int.not_le.mp h)]
    rfl

/-- **Strings from bytes.** For all bytes, at every address, the two passes of V8 agree, and
the string is the decoding of the bytes with replacement. -/
theorem decodingLaw (address : ℕ) (bytes : List UInt8) : DecodingLaw address bytes := by
  obtain ⟨out, hout⟩ := exists_lossy bytes
  have hunits := units_newStringFromUtf8 address hout
  have hlength : (Utf8Decoder.new address bytes).utf16Length =
      (Utf8.textUnits (replaced out)).length := by
    rw [new_eq, allValues_eq address hout, flatMap_putTwoByte]
  refine { decoded := ⟨out, hout, hunits⟩, fits := by rw [hunits, hlength],
           le := hlength ▸ length_textUnits_le hout, oneByte := ?_, aligned := ?_,
           limit := stringNewFromUtf8_eq address bytes }
  · rw [isOneByte_new, newStringFromUtf8_eq, units_ofCodes, allValues_eq address hout,
      List.all_eq_true, List.forall_mem_map, List.flatMap_map]
    simp only [List.mem_flatMap, forall_exists_index, and_imp, decide_eq_true_eq]
    constructor
    · exact fun h u o ho => (forall_putTwoByte_iff o).mpr (h o ho) u
    · exact fun h o ho => (forall_putTwoByte_iff o).mp fun u hu => h u o ho hu
  · intro address'
    rw [newStringFromUtf8_eq, newStringFromUtf8_eq, allValues_eq address hout,
      allValues_eq address' hout]

/-- Text is decoded to its code units. -/
theorem units_newStringFromUtf8_encodeText (address : ℕ) (text : List Char) :
    (newStringFromUtf8 address (Utf8.encodeText text)).units = Utf8.textUnits text := by
  rw [← Utf8.flatMap_encodeChar, units_newStringFromUtf8 address (lossy_text text), replaced,
    List.map_map]
  exact congrArg Utf8.textUnits (List.map_id text)

end Passes

end NodeMini.Strings
