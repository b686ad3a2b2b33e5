import Mathlib.Data.List.Basic
import Mathlib.Tactic.Common

/-!
# UTF-16 code units and their UTF-8 bytes

A UTF-16 string is any list of code units, unpaired surrogates allowed. Reading its
surrogate pairs gives code points, and each code point has a byte form: the standard
UTF-8 form for a scalar value, and the same three-byte form for an unpaired surrogate.
On text (lists of `Char`) this is standard UTF-8.

## Main definitions

* `Utf8.codePoints` / `Utf8.codeUnits` — reading and writing surrogate pairs
* `Utf8.encodeCodePoint` / `Utf8.decodeCodePoints` — the byte form and its reader
* `Utf8.encodeUnits` — the bytes of a list of code units
* `Utf8.encodeText` / `Utf8.decodeText` / `Utf8.textUnits` — the same for text

## Main results

* `Utf8.decodeCodePoints_encodeUnits` — the bytes determine the code points
* `Utf8.encodeUnits_injective` — distinct code-unit strings have distinct bytes
* `Utf8.decodeText_encodeText` — text survives the round trip through bytes
* `Utf8.textUnits_of_ascii` — the code units of ASCII text are its bytes
* `Utf8.encodeUnits_append_zero` — a zero byte is exactly the code unit zero
-/

namespace Lib.Utf8

/-! ## Surrogate pairs -/

/-- A leading surrogate, `D800`–`DBFF`. -/
def isLead (u : UInt16) : Bool := 0xD800 ≤ u.toNat && u.toNat < 0xDC00

/-- A trailing surrogate, `DC00`–`DFFF`. -/
def isTrail (u : UInt16) : Bool := 0xDC00 ≤ u.toNat && u.toNat < 0xE000

/-- The code point of a surrogate pair. -/
def combine (lead trail : UInt16) : ℕ :=
  (lead.toNat - 0xD800) * 0x400 + (trail.toNat - 0xDC00) + 0x10000

/-- The code points of a list of code units: pairs are combined, an unpaired surrogate
stands for itself. -/
def codePoints : List UInt16 → List ℕ
  | [] => []
  | [u] => [u.toNat]
  | u :: v :: rest =>
    if isLead u && isTrail v then combine u v :: codePoints rest
    else u.toNat :: codePoints (v :: rest)

/-- The code units of a code point: one below `0x10000`, a surrogate pair, high before
low, from there on. -/
def codeUnits (n : ℕ) : List UInt16 :=
  if n < 0x10000 then [UInt16.ofNat n]
  else [UInt16.ofNat (0xD800 + (n - 0x10000) / 0x400),
        UInt16.ofNat (0xDC00 + (n - 0x10000) % 0x400)]

theorem codeUnits_toNat (u : UInt16) : codeUnits u.toNat = [u] := by
  simp [codeUnits, UInt16.toNat_lt u]

theorem combine_range {u v : UInt16} (hu : isLead u) (hv : isTrail v) :
    0x10000 ≤ combine u v ∧ combine u v < 0x110000 := by
  simp only [isLead, isTrail, Bool.and_eq_true, decide_eq_true_eq] at hu hv
  unfold combine
  omega

theorem codeUnits_combine {u v : UInt16} (hu : isLead u) (hv : isTrail v) :
    codeUnits (combine u v) = [u, v] := by
  have hrange := combine_range hu hv
  simp only [isLead, isTrail, Bool.and_eq_true, decide_eq_true_eq] at hu hv
  -- quotient and remainder by `400` are the payloads of the two surrogates
  have hlead : 0xD800 + (combine u v - 0x10000) / 0x400 = u.toNat := by
    unfold combine; omega
  have htrail : 0xDC00 + (combine u v - 0x10000) % 0x400 = v.toNat := by
    unfold combine; omega
  simp [codeUnits, show ¬ combine u v < 0x10000 by omega, hlead, htrail]

/-- Writing the code points of a list of code units gives the list back. -/
theorem flatMap_codeUnits_codePoints (s : List UInt16) :
    (codePoints s).flatMap codeUnits = s := by
  fun_induction codePoints s with
  | case1 => rfl
  | case2 u => simp [codeUnits_toNat]
  | case3 u v rest h ih =>
    rw [Bool.and_eq_true] at h
    simp [codeUnits_combine h.1 h.2, ih]
  | case4 u v rest h ih => simp [codeUnits_toNat, ih]

theorem codePoints_lt {s : List UInt16} {n : ℕ} (h : n ∈ codePoints s) : n < 0x110000 := by
  fun_induction codePoints s with
  | case1 => simp at h
  | case2 u =>
    have := UInt16.toNat_lt u
    simp only [List.mem_singleton] at h
    omega
  | case3 u v rest huv ih =>
    rw [Bool.and_eq_true] at huv
    rcases List.mem_cons.mp h with h | h
    · rw [h]
      exact (combine_range huv.1 huv.2).2
    · exact ih h
  | case4 u v rest huv ih =>
    have := UInt16.toNat_lt u
    rcases List.mem_cons.mp h with h | h
    · omega
    · exact ih h

/-! ## Code points as bytes -/

/-- The UTF-8 form of a code point, surrogates included. -/
def encodeCodePoint (n : ℕ) : List UInt8 :=
  if n ≤ 0x7f then [UInt8.ofNat n]
  else if n ≤ 0x7ff then [UInt8.ofNat (n / 64 % 32 + 0xc0), UInt8.ofNat (n % 64 + 0x80)]
  else if n ≤ 0xffff then
    [UInt8.ofNat (n / 4096 % 16 + 0xe0), UInt8.ofNat (n / 64 % 64 + 0x80),
     UInt8.ofNat (n % 64 + 0x80)]
  else
    [UInt8.ofNat (n / 262144 % 8 + 0xf0), UInt8.ofNat (n / 4096 % 64 + 0x80),
     UInt8.ofNat (n / 64 % 64 + 0x80), UInt8.ofNat (n % 64 + 0x80)]

theorem encodeCodePoint_ne_nil (n : ℕ) : encodeCodePoint n ≠ [] := by
  unfold encodeCodePoint
  split_ifs <;> exact List.cons_ne_nil _ _

-- on a scalar value the form is the standard one
example (c : Char) : encodeCodePoint c.toNat = String.utf8EncodeChar c := rfl

/-- A continuation byte's six payload bits. -/
def payload? (b : UInt8) : Option ℕ :=
  if 0x80 ≤ b.toNat ∧ b.toNat < 0xc0 then some (b.toNat - 0x80) else none

/-- The reader of the byte form. `need` continuation bytes are still owed to the code
point whose leading bits are `acc`, which has to come out at `low` or above. It answers
`none` on a stray or missing continuation byte, on a form longer than needed and above
`10FFFF`. -/
def decodeFrom : (need acc low : ℕ) → List UInt8 → Option (List ℕ)
  | 0, _, _, [] => some []
  | _ + 1, _, _, [] => none
  | 0, _, _, b :: rest =>
    if b.toNat < 0x80 then (decodeFrom 0 0 0 rest).map (b.toNat :: ·)
    else if b.toNat < 0xc0 then none
    else if b.toNat < 0xe0 then decodeFrom 1 (b.toNat - 0xc0) 0x80 rest
    else if b.toNat < 0xf0 then decodeFrom 2 (b.toNat - 0xe0) 0x800 rest
    else if b.toNat < 0xf8 then decodeFrom 3 (b.toNat - 0xf0) 0x10000 rest
    else none
  | need + 1, acc, low, b :: rest =>
    match payload? b with
    | none => none
    | some p =>
      if need = 0 then
        if low ≤ acc * 64 + p ∧ acc * 64 + p < 0x110000 then
          (decodeFrom 0 0 0 rest).map ((acc * 64 + p) :: ·)
        else none
      else decodeFrom need (acc * 64 + p) low rest

/-- The code points of a byte string, where the reader accepts it. -/
def decodeCodePoints (bs : List UInt8) : Option (List ℕ) := decodeFrom 0 0 0 bs

theorem payload?_ofNat {k : ℕ} (h : k < 64) : payload? (UInt8.ofNat (k + 0x80)) = some k := by
  have : (UInt8.ofNat (k + 0x80)).toNat = k + 0x80 := by
    rw [UInt8.toNat_ofNat']; omega
  simp only [payload?, this]
  rw [if_pos (by omega)]
  simp

theorem toNat_ofNat_lt {k : ℕ} (h : k < 256) : (UInt8.ofNat k).toNat = k := by
  rw [UInt8.toNat_ofNat']; omega

theorem decodeFrom_more {need acc low k : ℕ} (hk : k < 64) (bs : List UInt8) :
    decodeFrom (need + 2) acc low (UInt8.ofNat (k + 0x80) :: bs) =
      decodeFrom (need + 1) (acc * 64 + k) low bs := by
  simp only [decodeFrom, payload?_ofNat hk, Nat.add_one_ne_zero, if_false]

theorem decodeFrom_last {acc low k n : ℕ} (hk : k < 64) (hn : acc * 64 + k = n) (hlow : low ≤ n)
    (hmax : n < 0x110000) (bs : List UInt8) :
    decodeFrom 1 acc low (UInt8.ofNat (k + 0x80) :: bs) =
      (decodeCodePoints bs).map (n :: ·) := by
  simp only [decodeFrom, payload?_ofNat hk, hn, decodeCodePoints]
  rw [if_pos trivial, if_pos ⟨hlow, hmax⟩]

/-- Reading undoes writing, one code point at a time. -/
theorem decodeCodePoints_encodeCodePoint_append {n : ℕ} (hn : n < 0x110000) (bs : List UInt8) :
    decodeCodePoints (encodeCodePoint n ++ bs) = (decodeCodePoints bs).map (n :: ·) := by
  unfold encodeCodePoint
  -- forms of one, two, three and four bytes
  split_ifs with h₁ h₂ h₃
  · have hb := toNat_ofNat_lt (k := n) (by omega)
    simp only [List.cons_append, List.nil_append, decodeCodePoints, decodeFrom, hb]
    rw [if_pos (by omega)]
  · have hb := toNat_ofNat_lt (k := n / 64 % 32 + 0xc0) (by omega)
    rw [List.cons_append, decodeCodePoints, decodeFrom, hb, if_neg (by omega), if_neg (by omega),
      if_pos (by omega)]
    exact decodeFrom_last (by omega) (by omega) (by omega) hn bs
  · have hb := toNat_ofNat_lt (k := n / 4096 % 16 + 0xe0) (by omega)
    rw [List.cons_append, decodeCodePoints, decodeFrom, hb, if_neg (by omega), if_neg (by omega),
      if_neg (by omega), if_pos (by omega), List.cons_append, decodeFrom_more (by omega)]
    exact decodeFrom_last (by omega) (by omega) (by omega) hn bs
  · have hb := toNat_ofNat_lt (k := n / 262144 % 8 + 0xf0) (by omega)
    rw [List.cons_append, decodeCodePoints, decodeFrom, hb, if_neg (by omega), if_neg (by omega),
      if_neg (by omega), if_neg (by omega), if_pos (by omega), List.cons_append,
      decodeFrom_more (by omega), List.cons_append, decodeFrom_more (by omega)]
    exact decodeFrom_last (by omega) (by omega) (by omega) hn bs

theorem decodeCodePoints_flatMap_encode {ns : List ℕ} (h : ∀ n ∈ ns, n < 0x110000) :
    decodeCodePoints (ns.flatMap encodeCodePoint) = some ns := by
  induction ns with
  | nil => rfl
  | cons n ns ih =>
    rw [List.flatMap_cons, decodeCodePoints_encodeCodePoint_append (h n (by simp)),
      ih fun m hm => h m (by simp [hm])]
    rfl

/-! ## Code units as bytes -/

/-- The bytes of a list of code units. -/
def encodeUnits (s : List UInt16) : List UInt8 := (codePoints s).flatMap encodeCodePoint

/-- The code units of a byte string, where the reader accepts it. -/
def decodeUnits (bs : List UInt8) : Option (List UInt16) :=
  (decodeCodePoints bs).map (·.flatMap codeUnits)

theorem decodeCodePoints_encodeUnits (s : List UInt16) :
    decodeCodePoints (encodeUnits s) = some (codePoints s) :=
  decodeCodePoints_flatMap_encode fun _ => codePoints_lt

@[simp] theorem decodeUnits_encodeUnits (s : List UInt16) :
    decodeUnits (encodeUnits s) = some s := by
  rw [decodeUnits, decodeCodePoints_encodeUnits, Option.map_some, flatMap_codeUnits_codePoints]

/-- Distinct lists of code units have distinct bytes, unpaired surrogates included. -/
theorem encodeUnits_injective : Function.Injective encodeUnits := by
  intro s t h
  apply Option.some.inj
  rw [← decodeUnits_encodeUnits s, h, decodeUnits_encodeUnits]

/-! ### The code unit zero

A byte below `80` occurs only as the form of the code point of the same number. So cutting
the bytes at the first zero byte cuts the string at its first zero code unit, and cutting
them at newlines cuts text into its lines. -/

/-- A byte below `80` only stands for itself. -/
theorem eq_toNat_of_mem_encodeCodePoint {n : ℕ} {b : UInt8} (hn : n < 0x110000)
    (hb : b.toNat < 0x80) (h : b ∈ encodeCodePoint n) : n = b.toNat := by
  have hne : ∀ k : ℕ, 0x80 ≤ k → k < 256 → b ≠ UInt8.ofNat k := by
    rintro k hk hlt rfl
    rw [toNat_ofNat_lt hlt] at hb
    omega
  unfold encodeCodePoint at h
  split_ifs at h with h1 h2 h3
  · rw [List.mem_singleton.mp h, toNat_ofNat_lt (by omega)]
  -- every byte of a longer form is `80` or more
  all_goals
    exfalso
    revert h
    simp only [List.mem_cons, List.not_mem_nil, or_false, imp_false, not_or]
  · exact ⟨hne _ (by omega) (by omega), hne _ (by omega) (by omega)⟩
  · exact ⟨hne _ (by omega) (by omega), hne _ (by omega) (by omega), hne _ (by omega) (by omega)⟩
  · exact ⟨hne _ (by omega) (by omega), hne _ (by omega) (by omega), hne _ (by omega) (by omega),
      hne _ (by omega) (by omega)⟩

theorem zero_notMem_encodeCodePoint {n : ℕ} (hn : n < 0x110000) (h0 : n ≠ 0) :
    (0 : UInt8) ∉ encodeCodePoint n :=
  fun h => h0 (eq_toNat_of_mem_encodeCodePoint hn (by decide) h)

theorem codePoints_cons_of_not_pair {u : UInt16} {rest : List UInt16}
    (h : ∀ v, rest.head? = some v → ¬ (isLead u && isTrail v)) :
    codePoints (u :: rest) = u.toNat :: codePoints rest := by
  cases rest with
  | nil => rfl
  | cons v rest =>
    rw [codePoints, if_neg (h v rfl)]

theorem zero_notMem_encodeUnits {s : List UInt16} (h : (0 : UInt16) ∉ s) :
    (0 : UInt8) ∉ encodeUnits s := by
  intro hmem
  obtain ⟨n, hn, hb⟩ := List.mem_flatMap.mp hmem
  refine zero_notMem_encodeCodePoint (codePoints_lt hn) ?_ hb
  rintro rfl
  apply h
  rw [← flatMap_codeUnits_codePoints s]
  exact List.mem_flatMap.mpr ⟨0, hn, by simp [codeUnits]⟩

/-- The code unit zero ends a string's bytes exactly where it ends the string. -/
theorem encodeUnits_append_zero {s : List UInt16} (rest : List UInt16) :
    encodeUnits (s ++ 0 :: rest) = encodeUnits s ++ 0 :: encodeUnits rest := by
  -- zero is neither half of a surrogate pair
  have hzero : codePoints (0 :: rest) = 0 :: codePoints rest :=
    codePoints_cons_of_not_pair fun v _ => by simp [isLead]
  have hsplit : codePoints (s ++ 0 :: rest) = codePoints s ++ 0 :: codePoints rest := by
    fun_induction codePoints s with
    | case1 => exact hzero
    | case2 u =>
      rw [List.singleton_append, codePoints_cons_of_not_pair, hzero]
      · rfl
      · intro v hv
        obtain rfl : 0 = v := by simpa using hv
        simp [isTrail]
    | case3 u v tail h ih =>
      simp only [List.cons_append] at ih ⊢
      rw [codePoints, if_pos h, ih]
    | case4 u v tail h ih =>
      simp only [List.cons_append] at ih ⊢
      rw [codePoints, if_neg h, ih]
  simp [encodeUnits, hsplit, encodeCodePoint]

/-- The bytes of a string contain a zero byte only if the string has the code unit zero. -/
theorem zero_mem_encodeUnits_iff {s : List UInt16} :
    (0 : UInt8) ∈ encodeUnits s ↔ (0 : UInt16) ∈ s := by
  constructor
  · intro hbyte
    by_contra hunit
    exact zero_notMem_encodeUnits hunit hbyte
  · intro hunit
    obtain ⟨a, rest, rfl, -⟩ := List.eq_append_cons_of_mem hunit
    rw [encodeUnits_append_zero]
    exact List.mem_append_right _ List.mem_cons_self

/-! ## Text -/

/-- Standard UTF-8. -/
def encodeText (text : List Char) : List UInt8 := text.flatMap (encodeCodePoint ·.toNat)

/-- Standard UTF-16. -/
def textUnits (text : List Char) : List UInt16 := text.flatMap (codeUnits ·.toNat)

/-- The scalar value of a code point, if it is one. -/
def scalar? (n : ℕ) : Option Char := if n.isValidChar then some (Char.ofNat n) else none

/-- The strict UTF-8 reader: surrogates are refused. -/
def decodeText (bs : List UInt8) : Option (List Char) := (decodeCodePoints bs).bind (·.mapM scalar?)

theorem scalar_range (c : Char) :
    c.toNat < 0xD800 ∨ 0xDFFF < c.toNat ∧ c.toNat < 0x110000 := c.valid

theorem scalar?_toNat (c : Char) : scalar? c.toNat = some c := by
  have : c.toNat.isValidChar := c.valid
  simp [scalar?, this]

theorem mapM_scalar?_toNat (text : List Char) : (text.map Char.toNat).mapM scalar? = some text := by
  induction text with
  | nil => rfl
  | cons c text ih =>
    rw [List.map_cons, List.mapM_cons, scalar?_toNat, ih]
    rfl

@[simp] theorem decodeText_encodeText (text : List Char) :
    decodeText (encodeText text) = some text := by
  have hcps : decodeCodePoints (encodeText text) = some (text.map Char.toNat) := by
    rw [encodeText, ← List.flatMap_map, decodeCodePoints_flatMap_encode]
    intro n hn
    obtain ⟨c, -, rfl⟩ := List.mem_map.mp hn
    have := scalar_range c
    omega
  rw [decodeText, hcps, Option.bind_some, mapM_scalar?_toNat]

/-- An ASCII character is found in text where its byte is. -/
theorem ofNat_mem_encodeText_iff {text : List Char} {c : Char} (hc : c.toNat < 0x80) :
    UInt8.ofNat c.toNat ∈ encodeText text ↔ c ∈ text := by
  have hbyte : (UInt8.ofNat c.toNat).toNat = c.toNat := toNat_ofNat_lt (by omega)
  constructor
  · intro h
    obtain ⟨d, hd, hmem⟩ := List.mem_flatMap.mp h
    have hrange := scalar_range d
    have heq := eq_toNat_of_mem_encodeCodePoint (by omega) (by omega) hmem
    rw [hbyte] at heq
    rwa [← Char.toNat_inj.mp heq]
  · intro h
    refine List.mem_flatMap.mpr ⟨c, h, ?_⟩
    rw [encodeCodePoint, if_pos (by omega)]
    exact List.mem_singleton_self _

/-! ### ASCII

Below `80` a byte, a code unit and a character are the same number. -/

theorem encodeCodePoint_ascii {n : ℕ} (hn : n < 0x80) : encodeCodePoint n = [UInt8.ofNat n] := by
  rw [encodeCodePoint, if_pos (by omega)]

/-- From `80` on, the byte form has a byte from `80` on. -/
theorem exists_mem_encodeCodePoint {n : ℕ} (hn : 0x80 ≤ n) :
    ∃ b ∈ encodeCodePoint n, 0x80 ≤ b.toNat := by
  have hlast : 0x80 ≤ (UInt8.ofNat (n % 64 + 0x80)).toNat := by
    rw [toNat_ofNat_lt (by omega)]
    omega
  refine ⟨UInt8.ofNat (n % 64 + 0x80), ?_, hlast⟩
  unfold encodeCodePoint
  split_ifs with h1
  · omega
  all_goals simp

/-- ASCII bytes are text. -/
theorem exists_encodeText_of_ascii {bs : List UInt8} (h : ∀ b ∈ bs, b.toNat < 0x80) :
    ∃ text, encodeText text = bs := by
  induction bs with
  | nil => exact ⟨[], rfl⟩
  | cons b bs ih =>
    obtain ⟨text, htext⟩ := ih fun b' hb => h b' (List.mem_cons_of_mem b hb)
    have hb := h b List.mem_cons_self
    have hvalid : b.toNat.isValidChar := Or.inl (by omega)
    have hchar : (Char.ofNat b.toNat).toNat = b.toNat := by
      rw [Char.ofNat, dif_pos hvalid]
      rfl
    refine ⟨Char.ofNat b.toNat :: text, ?_⟩
    rw [encodeText, List.flatMap_cons, hchar, encodeCodePoint_ascii hb, UInt8.ofNat_toNat,
      List.singleton_append, ← htext, encodeText]

/-- The code units of ASCII text are its bytes. -/
theorem textUnits_of_ascii {text : List Char} (h : ∀ b ∈ encodeText text, b.toNat < 0x80) :
    (textUnits text).map UInt16.toNat = (encodeText text).map UInt8.toNat := by
  induction text with
  | nil => rfl
  | cons c text ih =>
    have hcons : encodeText (c :: text) = encodeCodePoint c.toNat ++ encodeText text := rfl
    have hunits : textUnits (c :: text) = codeUnits c.toNat ++ textUnits text := rfl
    rw [hcons] at h ⊢
    have hc : c.toNat < 0x80 := by
      -- otherwise its form has a byte that is not ASCII
      by_contra hge
      obtain ⟨b, hmem, hb⟩ := exists_mem_encodeCodePoint (Nat.le_of_not_lt hge)
      exact absurd (h b (List.mem_append_left _ hmem)) (by omega)
    have hbyte : (UInt8.ofNat c.toNat).toNat = c.toNat := toNat_ofNat_lt (by omega)
    have hunit : (UInt16.ofNat c.toNat).toNat = c.toNat := by rw [UInt16.toNat_ofNat']; omega
    rw [hunits, encodeCodePoint_ascii hc, codeUnits, if_pos (by omega), List.map_append,
      List.map_append, ih fun b hb => h b (List.mem_append_right _ hb), List.map_singleton,
      List.map_singleton, hbyte, hunit]

/-- A supplementary character's two code units are a surrogate pair. -/
theorem codeUnits_supplementary {n : ℕ} (h : 0x10000 ≤ n) (hlt : n < 0x110000) :
    ∃ u v, codeUnits n = [u, v] ∧ isLead u ∧ isTrail v ∧ combine u v = n := by
  have hu : (UInt16.ofNat (0xD800 + (n - 0x10000) / 0x400)).toNat =
      0xD800 + (n - 0x10000) / 0x400 := by rw [UInt16.toNat_ofNat']; omega
  have hv : (UInt16.ofNat (0xDC00 + (n - 0x10000) % 0x400)).toNat =
      0xDC00 + (n - 0x10000) % 0x400 := by rw [UInt16.toNat_ofNat']; omega
  have hunits : codeUnits n = [UInt16.ofNat (0xD800 + (n - 0x10000) / 0x400),
      UInt16.ofNat (0xDC00 + (n - 0x10000) % 0x400)] := by
    unfold codeUnits
    rw [if_neg (by omega)]
  refine ⟨_, _, hunits, ?_, ?_, ?_⟩
  · rw [isLead, hu, Bool.and_eq_true, decide_eq_true_eq, decide_eq_true_eq]
    omega
  · rw [isTrail, hv, Bool.and_eq_true, decide_eq_true_eq, decide_eq_true_eq]
    omega
  · rw [combine, hu, hv]
    omega

theorem codePoints_textUnits (text : List Char) :
    codePoints (textUnits text) = text.map Char.toNat := by
  induction text with
  | nil => rfl
  | cons c text ih =>
    have hc := scalar_range c
    have hcons : textUnits (c :: text) = codeUnits c.toNat ++ textUnits text := rfl
    rw [hcons, List.map_cons, ← ih]
    by_cases hbmp : c.toNat < 0x10000
    · -- a scalar value is no surrogate, so its unit starts no pair
      have hu : (UInt16.ofNat c.toNat).toNat = c.toNat := by rw [UInt16.toNat_ofNat']; omega
      have hlead : isLead (UInt16.ofNat c.toNat) = false := by
        rw [isLead, hu, Bool.and_eq_false_iff, decide_eq_false_iff_not, decide_eq_false_iff_not]
        omega
      rw [codeUnits, if_pos hbmp, List.singleton_append, codePoints_cons_of_not_pair, hu]
      intro v _
      simp [hlead]
    · obtain ⟨u, v, huv, hu, hv, hcomb⟩ :=
        codeUnits_supplementary (n := c.toNat) (by omega) (by omega)
      rw [huv, List.cons_append, List.singleton_append, codePoints, if_pos (by simp [hu, hv]),
        hcomb]

end Lib.Utf8
