import NodeMini.Lib.Utf8

/-!
# Unpaired surrogates

The code points of a string are read off pair by pair. Where a string is cut matters only
if the cut goes through a pair: everywhere else the code points of the whole are those of
the two parts. A string without an unpaired surrogate is text.

## Main definitions

* `Utf8.joined` — the cut between two strings goes through a pair
* `Utf8.textOf` — the text of a string, unpaired surrogates replaced

## Main results

* `Utf8.codePoints_append` — code points of a string that is not cut through a pair
* `Utf8.textOf_textUnits`, `Utf8.encodeUnits_textUnits` — strings that are text
-/

namespace Lib.Utf8

variable {s t : List UInt16} {u v : UInt16} {n : ℕ}

/-! ## Cuts -/

/-- The end of `s` and the start of `t` are the two halves of a pair. -/
def joined (s t : List UInt16) : Bool := s.getLast?.any isLead && t.head?.any isTrail

theorem isTrail_of_isLead (h : isLead u) : isTrail u = false := by
  simp only [isLead, Bool.and_eq_true, decide_eq_true_eq] at h
  simp only [isTrail, Bool.and_eq_false_iff, decide_eq_false_iff_not]
  omega

theorem joined_concat : joined (s ++ [u]) t = (isLead u && t.head?.any isTrail) := by
  rw [joined, List.getLast?_concat]
  rfl

/-- A string that is not cut through a pair is read part by part. -/
theorem codePoints_append (h : joined s t = false) :
    codePoints (s ++ t) = codePoints s ++ codePoints t := by
  fun_induction codePoints s with
  | case1 => rfl
  | case2 u =>
    rw [List.singleton_append, codePoints_cons_of_not_pair]
    · rfl
    · intro v hv hpair
      rw [joined, hv] at h
      exact Bool.eq_false_iff.mp h hpair
  | case3 u v rest huv ih =>
    have hrest : joined rest t = false := by
      cases rest with
      | nil => rfl
      | cons w rest => rwa [joined, List.getLast?_cons_cons, List.getLast?_cons_cons] at h
    rw [List.cons_append, List.cons_append, codePoints, if_pos huv, ih hrest, List.cons_append]
  | case4 u v rest huv ih =>
    have hrest : joined (v :: rest) t = false := by rwa [joined, List.getLast?_cons_cons] at h
    rw [List.cons_append, List.cons_append, codePoints, if_neg huv, ← List.cons_append,
      ih hrest, List.cons_append]

/-- A leading surrogate completes no pair. -/
theorem joined_lead (h : isLead u) : joined s (u :: t) = false := by
  have hhead : (u :: t).head?.any isTrail = isTrail u := rfl
  rw [joined, hhead, isTrail_of_isLead h, Bool.and_false]

theorem codePoints_append_pair (hu : isLead u) (hv : isTrail v) :
    codePoints (s ++ [u, v]) = codePoints s ++ [combine u v] := by
  rw [codePoints_append (joined_lead hu), codePoints, if_pos (by rw [hu, hv]; rfl)]
  rfl

/-! ## Text -/

/-- The character of a code point; a surrogate is replaced. -/
def charOf (n : ℕ) : Char := if n.isValidChar then Char.ofNat n else '\uFFFD'

/-- The text of a string, with a replacement character for each unpaired surrogate. -/
def textOf (s : List UInt16) : List Char := (codePoints s).map charOf

theorem toNat_charOf (n : ℕ) : (charOf n).toNat = if n.isValidChar then n else 0xFFFD := by
  unfold charOf
  split_ifs with hvalid
  · rw [Char.ofNat, dif_pos hvalid]
    rfl
  · rfl

theorem charOf_toNat (c : Char) : charOf c.toNat = c := by
  have hvalid : c.toNat.isValidChar := c.valid
  rw [charOf, if_pos hvalid, Char.ofNat_toNat]

/-- Text is its own text. -/
@[simp] theorem textOf_textUnits (text : List Char) : textOf (textUnits text) = text := by
  rw [textOf, codePoints_textUnits, List.map_map]
  exact (List.map_congr_left fun c _ => charOf_toNat c).trans (List.map_id text)

/-- The bytes of text are standard UTF-8. -/
theorem encodeUnits_textUnits (text : List Char) :
    encodeUnits (textUnits text) = encodeText text := by
  rw [encodeUnits, codePoints_textUnits, List.flatMap_map]
  rfl

/-- A surrogate and its replacement have byte forms of one length, as has any other code
point with its character. -/
theorem length_encodeCodePoint_charOf (hn : n < 0x110000) :
    (encodeCodePoint (charOf n).toNat).length = (encodeCodePoint n).length := by
  rw [toNat_charOf]
  split_ifs with hvalid
  · rfl
  · unfold Nat.isValidChar at hvalid
    rw [encodeCodePoint, encodeCodePoint, if_neg (by decide), if_neg (by decide),
      if_pos (by decide), if_neg (by omega), if_neg (by omega), if_pos (by omega)]
    rfl

end Lib.Utf8
