import Mathlib.Data.Nat.Bitwise
import NodeMini.Lib.Replacement

/-!
# The UTF-8 automaton

V8 decodes UTF-8 with an automaton, two tables and a buffer for the bits of the character.
`ValueOfIncremental` runs it on one byte: it returns a character, asks for more bytes, or
returns the replacement character, and then it may want to see the byte again.

The tables know which bytes may follow in which state. That is all there is to UTF-8: in
each state the bytes so far begin a character, every byte of the range of the state goes on
with it, and no other does.

## Main definitions

* `Dfa.decode` — `Utf8DfaDecoder::Decode`
* `valueOfIncremental` — `Utf8::ValueOfIncremental`
* `Pending` — the automaton has read the beginning of a character

## Main results

* `next_eq` — what the two tables say
* `valueOfIncremental_start`, `valueOfIncremental_pending` — one byte, between characters and
  within one
-/

namespace NodeMini.Strings

open Lib

/-- `Utf8DfaDecoder::State`. -/
inductive State
  | kReject
  | kAccept
  | kTwoByte
  | kThreeByte
  | kThreeByteLowMid
  | kFourByte
  | kFourByteLow
  | kThreeByteHigh
  | kFourByteMidHigh
  deriving DecidableEq, Repr

/-- The number of a state. -/
def State.code : State → ℕ
  | .kReject => 0
  | .kAccept => 12
  | .kTwoByte => 24
  | .kThreeByte => 36
  | .kThreeByteLowMid => 48
  | .kFourByte => 60
  | .kFourByteLow => 72
  | .kThreeByteHigh => 84
  | .kFourByteMidHigh => 96

/-- `static_cast<State>`. -/
def State.ofCode : ℕ → State
  | 12 => .kAccept
  | 24 => .kTwoByte
  | 36 => .kThreeByte
  | 48 => .kThreeByteLowMid
  | 60 => .kFourByte
  | 72 => .kFourByteLow
  | 84 => .kThreeByteHigh
  | 96 => .kFourByteMidHigh
  | _ => .kReject

/-- The table from bytes to transitions. -/
def transitions : List ℕ := [
  0,  0, 0, 0, 0, 0, 0, 0, 0, 0, 0, 0, 0, 0, 0, 0,  -- 00-0F
  0,  0, 0, 0, 0, 0, 0, 0, 0, 0, 0, 0, 0, 0, 0, 0,  -- 10-1F
  0,  0, 0, 0, 0, 0, 0, 0, 0, 0, 0, 0, 0, 0, 0, 0,  -- 20-2F
  0,  0, 0, 0, 0, 0, 0, 0, 0, 0, 0, 0, 0, 0, 0, 0,  -- 30-3F
  0,  0, 0, 0, 0, 0, 0, 0, 0, 0, 0, 0, 0, 0, 0, 0,  -- 40-4F
  0,  0, 0, 0, 0, 0, 0, 0, 0, 0, 0, 0, 0, 0, 0, 0,  -- 50-5F
  0,  0, 0, 0, 0, 0, 0, 0, 0, 0, 0, 0, 0, 0, 0, 0,  -- 60-6F
  0,  0, 0, 0, 0, 0, 0, 0, 0, 0, 0, 0, 0, 0, 0, 0,  -- 70-7F
  1,  1, 1, 1, 1, 1, 1, 1, 1, 1, 1, 1, 1, 1, 1, 1,  -- 80-8F
  2,  2, 2, 2, 2, 2, 2, 2, 2, 2, 2, 2, 2, 2, 2, 2,  -- 90-9F
  3,  3, 3, 3, 3, 3, 3, 3, 3, 3, 3, 3, 3, 3, 3, 3,  -- A0-AF
  3,  3, 3, 3, 3, 3, 3, 3, 3, 3, 3, 3, 3, 3, 3, 3,  -- B0-BF
  9,  9, 4, 4, 4, 4, 4, 4, 4, 4, 4, 4, 4, 4, 4, 4,  -- C0-CF
  4,  4, 4, 4, 4, 4, 4, 4, 4, 4, 4, 4, 4, 4, 4, 4,  -- D0-DF
  10, 5, 5, 5, 5, 5, 5, 5, 5, 5, 5, 5, 5, 6, 5, 5,  -- E0-EF
  11, 7, 7, 7, 8, 9, 9, 9, 9, 9, 9, 9, 9, 9, 9, 9]  -- F0-FF

/-- The table from a state and a transition to the new state. -/
def states : List ℕ := [
  0,  0,  0,  0,  0,  0,  0,  0,  0,  0, 0,  0,   -- REJECT = 0
  12, 0,  0,  0,  24, 36, 48, 60, 72, 0, 84, 96,  -- ACCEPT = 12
  0,  12, 12, 12, 0,  0,  0,  0,  0,  0, 0,  0,   -- 2-byte = 24
  0,  24, 24, 24, 0,  0,  0,  0,  0,  0, 0,  0,   -- 3-byte = 36
  0,  24, 24, 0,  0,  0,  0,  0,  0,  0, 0,  0,   -- 3-byte low/mid = 48
  0,  36, 36, 36, 0,  0,  0,  0,  0,  0, 0,  0,   -- 4-byte = 60
  0,  36, 0,  0,  0,  0,  0,  0,  0,  0, 0,  0,   -- 4-byte low = 72
  0,  0,  0,  24, 0,  0,  0,  0,  0,  0, 0,  0,   -- 3-byte high = 84
  0,  0,  36, 36, 0,  0,  0,  0,  0,  0, 0,  0]   -- 4-byte mid/high = 96

/-- `type`, the transition of a byte. -/
def transition (byte : UInt8) : ℕ := transitions.getD byte.toNat 0

/-- The automaton: `*state` and `*buffer`. -/
structure Dfa where
  state : State
  buffer : UInt32
  deriving DecidableEq, Repr

/-- The automaton between characters. -/
def Dfa.start : Dfa := ⟨.kAccept, 0⟩

/-- The bits of a byte that belong to the character. -/
def bits (byte : UInt8) : UInt32 :=
  byte.toUInt32 &&& UInt32.ofNat (0x7F >>> (transition byte >>> 1))

/-- `Utf8DfaDecoder::Decode`. -/
def Dfa.decode (byte : UInt8) (d : Dfa) : Dfa where
  state := .ofCode (states.getD (d.state.code + transition byte) 0)
  buffer := d.buffer <<< 6 ||| bits byte

/-- `Utf8::kBadChar`. -/
def kBadChar : UInt32 := 0xFFFD

/-- `Utf8::kIncomplete`. -/
def kIncomplete : UInt32 := 0xFFFFFFFC

/-- `Utf8::kBufferEmpty`. -/
def kBufferEmpty : UInt32 := 0

/-- What `ValueOfIncremental` returns, whether the cursor has moved on, and the automaton
behind it. -/
structure Incremental where
  value : UInt32
  advanced : Bool
  dfa : Dfa
  deriving DecidableEq, Repr

/-- `Utf8::ValueOfIncremental`. -/
def valueOfIncremental (next : UInt8) (d : Dfa) : Incremental :=
  if next.toNat ≤ 0x7f ∧ d.state = .kAccept then ⟨next.toUInt32, true, d⟩
  else
    match (d.decode next).state with
    | .kAccept => ⟨(d.decode next).buffer, true, ⟨.kAccept, 0⟩⟩
    -- a byte that does not continue the character is looked at again
    | .kReject => ⟨kBadChar, d.state = .kAccept, ⟨.kAccept, 0⟩⟩
    | _ => ⟨kIncomplete, true, d.decode next⟩

/-- `Utf8::ValueOfIncrementalFinish`. -/
def valueOfIncrementalFinish (d : Dfa) : UInt32 :=
  if d.state = .kAccept then kBufferEmpty else kBadChar

/-! ## The tables -/

/-- The first byte of a range of a state. -/
def State.low : State → ℕ
  | .kThreeByteHigh => 0xA0
  | .kFourByteMidHigh => 0x90
  | _ => 0x80

/-- The last byte of the range of a state. -/
def State.high : State → ℕ
  | .kThreeByteLowMid => 0x9F
  | .kFourByteLow => 0x8F
  | _ => 0xBF

/-- The state behind a byte of the range. -/
def State.succ : State → State
  | .kTwoByte => .kAccept
  | .kThreeByte | .kThreeByteLowMid | .kThreeByteHigh => .kTwoByte
  | .kFourByte | .kFourByteLow | .kFourByteMidHigh => .kThreeByte
  | .kAccept | .kReject => .kReject

/-- The state behind the first byte of a character. -/
def lead (n : ℕ) : State :=
  if n < 0x80 then .kAccept
  else if n < 0xC2 then .kReject
  else if n ≤ 0xDF then .kTwoByte
  else if n = 0xE0 then .kThreeByteHigh
  else if n = 0xED then .kThreeByteLowMid
  else if n ≤ 0xEF then .kThreeByte
  else if n = 0xF0 then .kFourByteMidHigh
  else if n ≤ 0xF3 then .kFourByte
  else if n = 0xF4 then .kFourByteLow
  else .kReject

/-- The state behind a byte. -/
def State.next (s : State) (n : ℕ) : State :=
  if s = .kAccept then lead n
  else if s.low ≤ n ∧ n ≤ s.high then s.succ
  else .kReject

/-- The transition of a byte, by the ranges of the first table. -/
def kind (n : ℕ) : ℕ :=
  if n < 0x80 then 0
  else if n < 0x90 then 1
  else if n < 0xA0 then 2
  else if n < 0xC0 then 3
  else if n < 0xC2 then 9
  else if n < 0xE0 then 4
  else if n = 0xE0 then 10
  else if n = 0xED then 6
  else if n < 0xF0 then 5
  else if n = 0xF0 then 11
  else if n < 0xF4 then 7
  else if n = 0xF4 then 8
  else 9

theorem transition_eq (byte : UInt8) : transition byte = kind byte.toNat := by
  have htable : ∀ n < 256, transitions.getD n 0 = kind n := by decide +kernel
  exact htable byte.toNat (UInt8.toNat_lt byte)

/-- What the two tables say together. -/
theorem next_eq (s : State) (byte : UInt8) :
    State.ofCode (states.getD (s.code + transition byte) 0) = s.next byte.toNat := by
  have htable : ∀ n < 256, State.ofCode (states.getD (s.code + kind n) 0) = s.next n := by
    cases s <;> decide +kernel
  rw [transition_eq]
  exact htable byte.toNat (UInt8.toNat_lt byte)

/-- The number that the bits of a byte stand for. -/
def payload (n : ℕ) : ℕ :=
  if n < 0xC0 then n - 0x80
  else if n < 0xE0 then n - 0xC0
  else if n < 0xF0 then n - 0xE0
  else n - 0xF0

theorem toNat_bits {byte : UInt8} (hlow : 0x80 ≤ byte.toNat) (hhigh : byte.toNat ≤ 0xF4) :
    (bits byte).toNat = payload byte.toNat := by
  have htable : ∀ n < 256, 0x80 ≤ n → n ≤ 0xF4 →
      (n &&& (0x7F >>> (kind n >>> 1)) % 2 ^ 32) = payload n := by decide +kernel
  rw [bits, UInt32.toNat_and, UInt32.toNat_ofNat', UInt8.toNat_toUInt32, transition_eq]
  exact htable byte.toNat (UInt8.toNat_lt byte) hlow hhigh

/-- A byte below `40` is put behind the bits so far. -/
theorem toNat_decode_buffer {byte : UInt8} {d : Dfa} (hbuffer : d.buffer.toNat * 64 < 0x110000)
    (hlow : 0x80 ≤ byte.toNat) (hhigh : byte.toNat ≤ 0xF4) (hpayload : payload byte.toNat < 64) :
    (d.decode byte).buffer.toNat = d.buffer.toNat * 64 + payload byte.toNat := by
  have hshift : (d.buffer <<< 6).toNat = d.buffer.toNat <<< 6 := by
    rw [UInt32.toNat_shiftLeft, Nat.shiftLeft_eq, Nat.shiftLeft_eq]
    exact Nat.mod_eq_of_lt (by simp; omega)
  rw [Dfa.decode, UInt32.toNat_or, hshift, toNat_bits hlow hhigh,
    ← Nat.shiftLeft_add_eq_or_of_lt hpayload, Nat.shiftLeft_eq]

/-! ## Characters that go on -/

/-- `P` holds behind every byte of a range. -/
def Goes (low high : ℕ) (P : ℕ → List UInt8 → Prop) (acc : ℕ) (p : List UInt8) : Prop :=
  ∀ x : UInt8, low ≤ x.toNat → x.toNat ≤ high → P (acc * 64 + (x.toNat - 0x80)) (p ++ [x])

/-- The bytes are those of the character with the number. -/
def Whole (n : ℕ) (p : List UInt8) : Prop := ∃ c : Char, c.toNat = n ∧ Utf8.encodeChar c = p

/-- Whatever bytes of their ranges follow, they make up a character with the bits so far. -/
def Live : State → ℕ → List UInt8 → Prop
  | .kReject => fun _ _ => False
  | .kAccept => Whole
  | .kTwoByte => Goes 0x80 0xBF Whole
  | .kThreeByte => Goes 0x80 0xBF (Goes 0x80 0xBF Whole)
  | .kThreeByteLowMid => Goes 0x80 0x9F (Goes 0x80 0xBF Whole)
  | .kThreeByteHigh => Goes 0xA0 0xBF (Goes 0x80 0xBF Whole)
  | .kFourByte => Goes 0x80 0xBF (Goes 0x80 0xBF (Goes 0x80 0xBF Whole))
  | .kFourByteLow => Goes 0x80 0x8F (Goes 0x80 0xBF (Goes 0x80 0xBF Whole))
  | .kFourByteMidHigh => Goes 0x90 0xBF (Goes 0x80 0xBF (Goes 0x80 0xBF Whole))

/-- A character that goes on with a byte has it from the range of the state. -/
def Only (s : State) (p : List UInt8) : Prop :=
  ∀ x, Begins Utf8.encodeChar (p ++ [x]) → s.low ≤ x.toNat ∧ x.toNat ≤ s.high

/-- The automaton has read the beginning `p` of a character. -/
structure Pending (d : Dfa) (p : List UInt8) : Prop where
  ne_nil : p ≠ []
  within : d.state ≠ .kAccept ∧ d.state ≠ .kReject
  live : Live d.state d.buffer.toNat p
  only : Only d.state p

section Pending

variable {s : State} {d : Dfa} {acc n low high : ℕ} {p : List UInt8} {x byte : UInt8}
  {P : ℕ → List UInt8 → Prop}

theorem live_succ (haccept : s ≠ .kAccept) (hreject : s ≠ .kReject) (h : Live s acc p) :
    Goes s.low s.high (Live s.succ) acc p := by
  cases s with
  | kAccept => exact absurd rfl haccept
  | kReject => exact absurd rfl hreject
  | _ => exact h

theorem Whole.begins (h : Whole acc p) : Begins Utf8.encodeChar p ∧ acc < 0x110000 := by
  obtain ⟨c, rfl, rfl⟩ := h
  exact ⟨⟨c, List.prefix_refl _⟩, Utf8.toNat_lt c⟩

/-- What goes on is not finished, and its bits so far are few. -/
theorem Goes.incomplete (hrange : low ≤ high ∧ high < 256)
    (hP : ∀ {acc p}, P acc p → Begins Utf8.encodeChar p ∧ acc < 0x110000)
    (h : Goes low high P acc p) : Incomplete Utf8.encodeChar p ∧ acc * 64 < 0x110000 := by
  have hbyte : (UInt8.ofNat low).toNat = low := Utf8.toNat_ofNat_lt (by omega)
  obtain ⟨⟨c, hc⟩, hlt⟩ := hP (h (UInt8.ofNat low) (by omega) (by omega))
  refine ⟨⟨c, (List.prefix_append p _).trans hc, ?_⟩, by omega⟩
  rintro rfl
  have hlength := hc.length_le
  rw [List.length_append, List.length_singleton] at hlength
  omega

theorem Goes.begins (hrange : low ≤ high ∧ high < 256)
    (hP : ∀ {acc p}, P acc p → Begins Utf8.encodeChar p ∧ acc < 0x110000)
    (h : Goes low high P acc p) : Begins Utf8.encodeChar p ∧ acc < 0x110000 := by
  obtain ⟨hincomplete, hlt⟩ := h.incomplete hrange hP
  exact ⟨hincomplete.begins, by omega⟩

theorem Live.incomplete (haccept : s ≠ .kAccept) (h : Live s acc p) :
    Incomplete Utf8.encodeChar p ∧ acc * 64 < 0x110000 := by
  have htwo : ∀ {acc p}, Goes 0x80 0xBF Whole acc p →
      Begins Utf8.encodeChar p ∧ acc < 0x110000 := fun h => h.begins (by decide) Whole.begins
  have hthree : ∀ {acc p}, Goes 0x80 0xBF (Goes 0x80 0xBF Whole) acc p →
      Begins Utf8.encodeChar p ∧ acc < 0x110000 := fun h => h.begins (by decide) htwo
  cases s with
  | kReject => cases h
  | kAccept => exact absurd rfl haccept
  | kTwoByte => exact Goes.incomplete (by decide) Whole.begins h
  | kThreeByte | kThreeByteLowMid | kThreeByteHigh => exact Goes.incomplete (by decide) htwo h
  | kFourByte | kFourByteLow | kFourByteMidHigh => exact Goes.incomplete (by decide) hthree h

/-! ## The bytes of a character -/

/-- The number of a character, given its bytes. -/
theorem whole_of_encode (hvalid : n.isValidChar) (h : Utf8.encodeCodePoint n = p) : Whole n p := by
  have hchar : (Char.ofNat n).toNat = n := by
    rw [Char.ofNat, dif_pos hvalid]
    rfl
  exact ⟨Char.ofNat n, hchar, by rw [Utf8.encodeChar, hchar, h]⟩

theorem ofNat_eq {k : ℕ} {b : UInt8} (h : k = b.toNat) : UInt8.ofNat k = b := by
  rw [h, UInt8.ofNat_toNat]

theorem goes_two {b : UInt8} (hb : 0xC2 ≤ b.toNat ∧ b.toNat ≤ 0xDF) :
    Goes 0x80 0xBF Whole (b.toNat - 0xC0) [b] := by
  intro x hx hx'
  refine whole_of_encode (Or.inl (by omega)) ?_
  rw [Utf8.encodeCodePoint, if_neg (by omega), if_pos (by omega), ofNat_eq (b := b) (by omega),
    ofNat_eq (b := x) (by omega)]
  rfl

/-- The second byte keeps clear of longer forms and of surrogates. -/
theorem goes_three {b : UInt8} (hb : 0xE0 ≤ b.toNat ∧ b.toNat ≤ 0xEF)
    (hrange : 0x80 ≤ low ∧ high ≤ 0xBF) (hlong : b.toNat = 0xE0 → 0xA0 ≤ low)
    (hsurrogate : b.toNat = 0xED → high ≤ 0x9F) :
    Goes low high (Goes 0x80 0xBF Whole) (b.toNat - 0xE0) [b] := by
  intro x hx hx' y hy hy'
  refine whole_of_encode (?_ : _ ∨ _) ?_
  · omega
  · rw [Utf8.encodeCodePoint, if_neg (by omega), if_neg (by omega), if_pos (by omega),
      ofNat_eq (b := b) (by omega), ofNat_eq (b := x) (by omega), ofNat_eq (b := y) (by omega)]
    rfl

/-- The second byte keeps clear of longer forms and of numbers above `10FFFF`. -/
theorem goes_four {b : UInt8} (hb : 0xF0 ≤ b.toNat ∧ b.toNat ≤ 0xF4)
    (hrange : 0x80 ≤ low ∧ high ≤ 0xBF) (hlong : b.toNat = 0xF0 → 0x90 ≤ low)
    (hmax : b.toNat = 0xF4 → high ≤ 0x8F) :
    Goes low high (Goes 0x80 0xBF (Goes 0x80 0xBF Whole)) (b.toNat - 0xF0) [b] := by
  intro x hx hx' y hy hy' z hz hz'
  refine whole_of_encode (Or.inr ⟨by omega, by omega⟩) ?_
  rw [Utf8.encodeCodePoint, if_neg (by omega), if_neg (by omega), if_neg (by omega),
    ofNat_eq (b := b) (by omega), ofNat_eq (b := x) (by omega), ofNat_eq (b := y) (by omega),
    ofNat_eq (b := z) (by omega)]
  rfl

/-- The first bytes of characters, and the states behind them. -/
inductive Leads : ℕ → State → Prop
  | reject {n : ℕ} (h : n < 0xC2 ∨ 0xF4 < n) : Leads n .kReject
  | two {n : ℕ} (h : 0xC2 ≤ n ∧ n ≤ 0xDF) : Leads n .kTwoByte
  | high {n : ℕ} (h : n = 0xE0) : Leads n .kThreeByteHigh
  | lowMid {n : ℕ} (h : n = 0xED) : Leads n .kThreeByteLowMid
  | three {n : ℕ} (h : 0xE0 < n ∧ n ≤ 0xEF ∧ n ≠ 0xED) : Leads n .kThreeByte
  | midHigh {n : ℕ} (h : n = 0xF0) : Leads n .kFourByteMidHigh
  | four {n : ℕ} (h : 0xF0 < n ∧ n ≤ 0xF3) : Leads n .kFourByte
  | low {n : ℕ} (h : n = 0xF4) : Leads n .kFourByteLow

theorem leads_lead (hn : 0x80 ≤ n) : Leads n (lead n) := by
  unfold lead
  split_ifs
  · omega
  · exact .reject (by omega)
  · exact .two (by omega)
  · exact .high (by omega)
  · exact .lowMid (by omega)
  · exact .three (by omega)
  · exact .midHigh (by omega)
  · exact .four (by omega)
  · exact .low (by omega)
  · exact .reject (by omega)

theorem payload_two (h : 0xC0 ≤ n ∧ n < 0xE0) : payload n = n - 0xC0 := by
  rw [payload, if_neg (by omega), if_pos (by omega)]

theorem payload_three (h : 0xE0 ≤ n ∧ n < 0xF0) : payload n = n - 0xE0 := by
  rw [payload, if_neg (by omega), if_neg (by omega), if_pos (by omega)]

theorem payload_four (h : 0xF0 ≤ n) : payload n = n - 0xF0 := by
  rw [payload, if_neg (by omega), if_neg (by omega), if_neg (by omega)]

/-- The first byte of a character leads to a state in which it goes on. -/
theorem live_lead {b : UInt8} (hlead : Leads b.toNat s) (h : s ≠ .kReject) :
    Live s (payload b.toNat) [b] := by
  cases hlead with
  | reject _ => exact absurd rfl h
  | two hb =>
    rw [payload_two (by omega)]
    exact goes_two hb
  | high hb | lowMid hb | three hb =>
    rw [payload_three (by omega)]
    exact goes_three (by omega) (by omega) (by omega) (by omega)
  | midHigh hb | four hb | low hb =>
    rw [payload_four (by omega)]
    exact goes_four (by omega) (by omega) (by omega) (by omega)

/-- The number of a character, from its first byte, and from its second. -/
theorem head_of_prefix {b : UInt8} {n : ℕ} (hn : n < 0x110000)
    (h : b :: p <+: Utf8.encodeCodePoint n) :
    n < 0x80 ∧ b.toNat = n ∨
      ((0x80 ≤ n ∧ n < 0x800 ∧ b.toNat = n / 64 + 0xC0 ∧
          ∀ x, p.head? = some x → x.toNat = n % 64 + 0x80) ∨
        (0x800 ≤ n ∧ n < 0x10000 ∧ b.toNat = n / 4096 + 0xE0 ∧
          ∀ x, p.head? = some x → x.toNat = n / 64 % 64 + 0x80) ∨
        (0x10000 ≤ n ∧ b.toNat = n / 262144 + 0xF0 ∧
          ∀ x, p.head? = some x → x.toNat = n / 4096 % 64 + 0x80)) := by
  -- the second symbol of a prefix is that of the whole
  have hsecond : ∀ {k : ℕ} {word : List UInt8} {x : UInt8}, k < 64 →
      p <+: UInt8.ofNat (k + 0x80) :: word → p.head? = some x → x.toNat = k + 0x80 := by
    intro k word x hk hp hx
    obtain ⟨p, rfl⟩ : ∃ p', p = x :: p' := List.head?_eq_some_iff.mp hx
    rw [(List.cons_prefix_cons.mp hp).1, Utf8.toNat_ofNat_lt (by omega)]
  unfold Utf8.encodeCodePoint at h
  split_ifs at h with h1 h2 h3
  all_goals obtain ⟨rfl, hp⟩ := List.cons_prefix_cons.mp h
  · exact Or.inl ⟨by omega, Utf8.toNat_ofNat_lt (by omega)⟩
  · refine Or.inr (Or.inl ⟨by omega, by omega, ?_, fun x hx => hsecond (by omega) hp hx⟩)
    rw [Utf8.toNat_ofNat_lt (by omega)]
    omega
  · refine Or.inr (Or.inr (Or.inl ⟨by omega, by omega, ?_, fun x hx => hsecond (by omega) hp hx⟩))
    rw [Utf8.toNat_ofNat_lt (by omega)]
    omega
  · refine Or.inr (Or.inr (Or.inr ⟨by omega, ?_, fun x hx => hsecond (by omega) hp hx⟩))
    rw [Utf8.toNat_ofNat_lt (by omega)]
    omega

/-- A byte that leads nowhere begins no character. -/
theorem not_begins_of_lead {b : UInt8} (hb : 0x80 ≤ b.toNat) (hlead : Leads b.toNat .kReject) :
    ¬ Begins Utf8.encodeChar [b] := by
  rintro ⟨c, hc⟩
  have hc' := Utf8.toNat_lt c
  cases hlead with
  | reject h => rcases head_of_prefix hc' hc with h' | h' | h' | h' <;> omega

/-- The second byte of a character is from the range of the state behind the first. -/
theorem only_lead {b : UInt8} (hb : 0x80 ≤ b.toNat) (hlead : Leads b.toNat s) :
    Only s [b] := by
  rintro x ⟨c, hc⟩
  have hc' := Utf8.toNat_lt c
  have hscalar := Utf8.scalar_range c
  have hsecond := head_of_prefix (p := [x]) hc' hc
  simp only [List.head?_cons, Option.some.injEq, forall_eq'] at hsecond
  cases hlead <;> simp only [State.low, State.high] <;> omega

/-- All bytes of a character but the first are continuation bytes. -/
theorem tail_of_prefix (hp : p ≠ []) (h : Begins Utf8.encodeChar (p ++ [x])) :
    0x80 ≤ x.toNat ∧ x.toNat ≤ 0xBF := by
  obtain ⟨c, hc⟩ := h
  have hmem : ∀ {word : List UInt8}, p ++ [x] <+: word → x ∈ word.tail := by
    intro word hword
    obtain ⟨b, p, rfl⟩ := List.exists_cons_of_ne_nil hp
    obtain ⟨more, rfl⟩ := hword
    simp
  have hbyte : ∀ {k : ℕ}, k < 64 →
      0x80 ≤ (UInt8.ofNat (k + 0x80)).toNat ∧ (UInt8.ofNat (k + 0x80)).toNat ≤ 0xBF := by
    intro k hk
    rw [Utf8.toNat_ofNat_lt (by omega)]
    omega
  have hx := hmem hc
  unfold Utf8.encodeChar Utf8.encodeCodePoint at hx
  split_ifs at hx
  · cases hx
  all_goals
    simp only [List.tail_cons, List.mem_cons, List.not_mem_nil, or_false] at hx
  · rw [hx]
    exact hbyte (by omega)
  · rcases hx with rfl | rfl <;> exact hbyte (by omega)
  · rcases hx with rfl | rfl | rfl <;> exact hbyte (by omega)

/-! ## One byte -/

section Byte

variable {next : UInt8}

theorem state_decode (next : UInt8) (d : Dfa) :
    (d.decode next).state = d.state.next next.toNat := next_eq d.state next

theorem valueOfIncremental_accept (hslow : ¬ (next.toNat ≤ 0x7f ∧ d.state = .kAccept))
    (h : (d.decode next).state = .kAccept) :
    valueOfIncremental next d = ⟨(d.decode next).buffer, true, .start⟩ := by
  rw [valueOfIncremental, if_neg hslow]
  simp only [h]
  rfl

theorem valueOfIncremental_reject (hslow : ¬ (next.toNat ≤ 0x7f ∧ d.state = .kAccept))
    (h : (d.decode next).state = .kReject) :
    valueOfIncremental next d = ⟨kBadChar, d.state = .kAccept, .start⟩ := by
  rw [valueOfIncremental, if_neg hslow]
  simp only [h]
  rfl

theorem valueOfIncremental_more (hslow : ¬ (next.toNat ≤ 0x7f ∧ d.state = .kAccept))
    (haccept : (d.decode next).state ≠ .kAccept) (hreject : (d.decode next).state ≠ .kReject) :
    valueOfIncremental next d = ⟨kIncomplete, true, d.decode next⟩ := by
  rw [valueOfIncremental, if_neg hslow]
  split
  · next h => exact absurd h haccept
  · next h => exact absurd h hreject
  · rfl

/-- What a byte does that is read behind `p`: it completes a character, it goes on with one,
or it is refused. -/
inductive Answer (p : List UInt8) (next : UInt8) (again : Bool) : Incremental → Prop
  | char (c : Char) (value : UInt32) (hc : Utf8.encodeChar c = p ++ [next])
    (hvalue : value.toNat = c.toNat) : Answer p next again ⟨value, true, .start⟩
  | more (d : Dfa) (hd : Pending d (p ++ [next])) : Answer p next again ⟨kIncomplete, true, d⟩
  | refuse (h : ¬ Begins Utf8.encodeChar (p ++ [next])) :
    Answer p next again ⟨kBadChar, !again, .start⟩

/-- A byte between characters. -/
theorem valueOfIncremental_start (next : UInt8) :
    Answer [] next false (valueOfIncremental next .start) := by
  by_cases hascii : next.toNat ≤ 0x7f
  · -- the shortcut for ASCII
    have hfast : valueOfIncremental next .start = ⟨next.toUInt32, true, .start⟩ := by
      rw [valueOfIncremental, if_pos ⟨hascii, rfl⟩]
    have hwhole : Whole next.toNat [next] := by
      refine whole_of_encode (Or.inl (by omega)) ?_
      rw [Utf8.encodeCodePoint_ascii (by omega), UInt8.ofNat_toNat]
    obtain ⟨c, hc, hbytes⟩ := hwhole
    rw [hfast]
    exact .char c _ hbytes (by rw [UInt8.toNat_toUInt32, hc])
  · have hslow : ¬ (next.toNat ≤ 0x7f ∧ Dfa.start.state = .kAccept) := fun h => hascii h.1
    have hstate : (Dfa.start.decode next).state = lead next.toNat := state_decode next .start
    have hlead := leads_lead (n := next.toNat) (by omega)
    by_cases hreject : lead next.toNat = .kReject
    · rw [valueOfIncremental_reject hslow (hstate.trans hreject)]
      exact .refuse (not_begins_of_lead (by omega) (hreject ▸ hlead))
    · have haccept : lead next.toNat ≠ .kAccept := by
        intro haccept
        rw [haccept] at hlead
        cases hlead
      have hrange : 0xC2 ≤ next.toNat ∧ next.toNat ≤ 0xF4 := by
        generalize lead next.toNat = s at hlead hreject
        cases hlead <;> first | omega | exact absurd rfl hreject
      have hpayload : payload next.toNat < 64 := by
        unfold payload
        split_ifs <;> omega
      have hbuffer : (Dfa.start.decode next).buffer.toNat = payload next.toNat := by
        rw [toNat_decode_buffer (by decide) (by omega) hrange.2 hpayload]
        simp [Dfa.start]
      rw [valueOfIncremental_more hslow (by rwa [hstate]) (by rwa [hstate])]
      refine .more _ ⟨List.cons_ne_nil _ _, by rw [hstate]; exact ⟨haccept, hreject⟩, ?_, ?_⟩
      · rw [hstate, hbuffer]
        exact live_lead hlead hreject
      · rw [hstate]
        exact only_lead (by omega) hlead

/-- A byte within a character. -/
theorem valueOfIncremental_pending (h : Pending d p) (next : UInt8) :
    Answer p next true (valueOfIncremental next d) := by
  obtain ⟨haccept, hreject⟩ := h.within
  have hslow : ¬ (next.toNat ≤ 0x7f ∧ d.state = .kAccept) := fun hfast => haccept hfast.2
  have hstate := state_decode next d
  rw [State.next, if_neg haccept] at hstate
  by_cases hrange : d.state.low ≤ next.toNat ∧ next.toNat ≤ d.state.high
  · rw [if_pos hrange] at hstate
    have hlive := live_succ haccept hreject h.live next hrange.1 hrange.2
    have hlow : 0x80 ≤ d.state.low := by cases d.state <;> decide
    have hhigh : d.state.high ≤ 0xBF := by cases d.state <;> decide
    have hpayload : payload next.toNat = next.toNat - 0x80 := if_pos (by omega)
    have hbuffer : (d.decode next).buffer.toNat =
        d.buffer.toNat * 64 + (next.toNat - 0x80) := by
      rw [toNat_decode_buffer (h.live.incomplete haccept).2 (by omega) (by omega) (by omega),
        hpayload]
    by_cases hsucc : d.state.succ = .kAccept
    · rw [hsucc] at hlive hstate
      obtain ⟨c, hc, hbytes⟩ := hlive
      rw [valueOfIncremental_accept hslow hstate]
      exact .char c _ hbytes (hbuffer.trans hc.symm)
    · have hsucc' : d.state.succ = .kTwoByte ∨ d.state.succ = .kThreeByte := by
        revert haccept hreject hsucc
        cases d.state <;> decide
      have hwithin : d.state.succ ≠ .kAccept ∧ d.state.succ ≠ .kReject := by
        rcases hsucc' with hs | hs <;> rw [hs] <;> decide
      rw [valueOfIncremental_more hslow (hstate ▸ hwithin.1) (hstate ▸ hwithin.2)]
      refine .more _ ⟨by simp, hstate ▸ hwithin, ?_, ?_⟩
      · rw [hstate, hbuffer]
        exact hlive
      · -- behind the second byte the ranges are those of all continuation bytes
        intro x hx
        have htail := tail_of_prefix (by simp) hx
        rw [hstate]
        rcases hsucc' with hs | hs <;> rw [hs] <;> exact htail
  · rw [if_neg hrange] at hstate
    rw [valueOfIncremental_reject hslow hstate, decide_eq_false haccept]
    exact .refuse fun hbegins => hrange (h.only next hbegins)

end Byte

end Pending

end NodeMini.Strings
