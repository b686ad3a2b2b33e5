import NodeMini.Lib.Utf8

/-!
# Decoding with replacement

A code writes each character as a nonempty word, and no word begins another. Text in the
code is decoded word by word. Input that is not text is decoded all the same: where no word
is found, the longest beginning of a word is replaced, or a single symbol if no word begins
with it, and decoding goes on behind it.

What a decoder replaces is thereby fixed for every input. A decoder that reads symbol by
symbol, with the beginning of a word in mind, produces it if it refuses a symbol exactly
when no word goes on with it.

## Main definitions

* `PrefixCode` — no word begins another
* `Begins`, `Incomplete` — a word begins like this, and is not finished
* `Lossy` — the decoding of an input, with `none` for each replacement

## Main results

* `Lossy.unique` — an input has one decoding
* `Lossy.word`, `Lossy.refuse`, `Lossy.stray`, `Lossy.finish` — what a decoder may do
* `Utf8.prefixCode` — UTF-8 is such a code
-/

namespace Lib

variable {κ β : Type*} {encode : κ → List β} {c d : κ} {b : β} {p q rest bytes : List β}
  {out out' : List (Option κ)} {text : List κ}

/-- No word is empty, and none begins another. -/
structure PrefixCode (encode : κ → List β) : Prop where
  ne_nil : ∀ c, encode c ≠ []
  eq_of_prefix : ∀ {c d}, encode c <+: encode d → c = d

/-- A word begins with `p`. -/
def Begins (encode : κ → List β) (p : List β) : Prop := ∃ c, p <+: encode c

/-- A word begins with `p` and goes on. -/
def Incomplete (encode : κ → List β) (p : List β) : Prop := ∃ c, p <+: encode c ∧ p ≠ encode c

/-- The part of an input that is replaced: no word is found where it stands, and it is the
longest beginning of a word there, or a single symbol. -/
structure Replaced (encode : κ → List β) (p rest : List β) : Prop where
  ne_nil : p ≠ []
  no_word : ∀ c, ¬ encode c <+: p ++ rest
  begins : p.length = 1 ∨ Begins encode p
  longest : ∀ b, rest.head? = some b → ¬ Begins encode (p ++ [b])

/-- The decoding of an input; `none` stands for a replacement. -/
inductive Lossy (encode : κ → List β) : List β → List (Option κ) → Prop
  | nil : Lossy encode [] []
  | char (c : κ) {rest : List β} {out : List (Option κ)} (h : Lossy encode rest out) :
    Lossy encode (encode c ++ rest) (some c :: out)
  | replace {p rest : List β} {out : List (Option κ)} (hp : Replaced encode p rest)
    (h : Lossy encode rest out) : Lossy encode (p ++ rest) (none :: out)

theorem Begins.of_prefix (h : Begins encode q) (hp : p <+: q) : Begins encode p := by
  obtain ⟨c, hc⟩ := h
  exact ⟨c, hp.trans hc⟩

theorem Incomplete.begins (h : Incomplete encode p) : Begins encode p := by
  obtain ⟨c, hc, -⟩ := h
  exact ⟨c, hc⟩

/-! ## One decoding -/

/-- Of two prefixes of one list the shorter one is followed by the next symbol of the
other. -/
theorem prefix_cases {p' rest' : List β} (h : p ++ rest = p' ++ rest') :
    p = p' ∧ rest = rest' ∨ (∃ b, rest.head? = some b ∧ p ++ [b] <+: p') ∨
      ∃ b, rest'.head? = some b ∧ p' ++ [b] <+: p := by
  rcases List.append_eq_append_iff.mp h with ⟨more, rfl, rfl⟩ | ⟨more, rfl, rfl⟩
  · cases more with
    | nil => exact Or.inl ⟨(List.append_nil p).symm, rfl⟩
    | cons b more => exact Or.inr (Or.inl ⟨b, rfl, more, by simp⟩)
  · cases more with
    | nil => exact Or.inl ⟨List.append_nil p', rfl⟩
    | cons b more => exact Or.inr (Or.inr ⟨b, rfl, more, by simp⟩)

/-- What is replaced at a place is determined: a longer part would be a longer beginning of
a word. -/
theorem Replaced.not_longer {p' rest' : List β} (hp : Replaced encode p rest)
    (hp' : Replaced encode p' rest') (hb : rest.head? = some b) : ¬ p ++ [b] <+: p' := by
  intro hlonger
  rcases hp'.begins with hone | hbegins
  · have hlength := hlonger.length_le
    rw [List.length_append, List.length_singleton, hone] at hlength
    exact hp.ne_nil (List.eq_nil_of_length_eq_zero (by omega))
  · exact hp.longest b hb (hbegins.of_prefix hlonger)

/-- An input has one decoding. -/
theorem Lossy.unique (hcode : PrefixCode encode) (h : Lossy encode bytes out)
    (h' : Lossy encode bytes out') : out = out' := by
  induction h generalizing out' with
  | nil =>
    generalize hempty : ([] : List β) = empty at h'
    cases h' with
    | nil => rfl
    | char c _ => exact absurd (List.append_eq_nil_iff.mp hempty.symm).1 (hcode.ne_nil c)
    | replace hp _ => exact absurd (List.append_eq_nil_iff.mp hempty.symm).1 hp.ne_nil
  | @char c rest out _ ih =>
    generalize hbytes : encode c ++ rest = whole at h'
    cases h' with
    | nil => exact absurd (List.append_eq_nil_iff.mp hbytes).1 (hcode.ne_nil c)
    | @char d rest' out' h' =>
      -- one of the two words begins the other
      have hprefix : encode c <+: encode d ∨ encode d <+: encode c :=
        List.prefix_or_prefix_of_prefix (List.prefix_append _ rest)
          (hbytes ▸ List.prefix_append _ rest')
      obtain rfl : c = d := hprefix.elim hcode.eq_of_prefix fun h => (hcode.eq_of_prefix h).symm
      obtain rfl := List.append_cancel_left hbytes
      rw [ih h']
    | replace hp _ => exact absurd (hbytes ▸ List.prefix_append _ _) (hp.no_word c)
  | @replace p rest out hp _ ih =>
    generalize hbytes : p ++ rest = whole at h'
    cases h' with
    | nil => exact absurd (List.append_eq_nil_iff.mp hbytes).1 hp.ne_nil
    | char d _ => exact absurd (hbytes ▸ List.prefix_append _ _) (hp.no_word d)
    | replace hp' h' =>
      rcases prefix_cases hbytes with ⟨rfl, rfl⟩ | ⟨b, hb, hlonger⟩ | ⟨b, hb, hlonger⟩
      · rw [ih h']
      · exact absurd hlonger (hp.not_longer hp' hb)
      · exact absurd hlonger (hp'.not_longer hp hb)

/-! ## Text -/

/-- Text is decoded as it is. -/
theorem lossy_text (text : List κ) : Lossy encode (text.flatMap encode) (text.map some) := by
  induction text with
  | nil => exact .nil
  | cons c text ih => exact .char c ih

/-- A character that is decoded has its word in the input. -/
theorem Lossy.mem (h : Lossy encode bytes out) (hc : some c ∈ out) (hb : b ∈ encode c) :
    b ∈ bytes := by
  induction h with
  | nil => cases hc
  | char d _ ih =>
    rcases List.mem_cons.mp hc with hd | hc
    · rw [Option.some.inj hd] at hb
      exact List.mem_append_left _ hb
    · exact List.mem_append_right _ (ih hc)
  | replace _ _ ih =>
    rcases List.mem_cons.mp hc with hd | hc
    · cases hd
    · exact List.mem_append_right _ (ih hc)

/-! ## Symbol by symbol

A decoder has read `p`, a beginning of a word or nothing, and looks at the next symbol. -/

/-- The symbol completes a word. -/
theorem Lossy.word (hc : encode c = p ++ [b]) (h : Lossy encode rest out) :
    Lossy encode (p ++ b :: rest) (some c :: out) := by
  have hsplit : p ++ b :: rest = encode c ++ rest := by rw [hc, List.append_assoc]; rfl
  rw [hsplit]
  exact .char c h

/-- No word begins with the symbol alone. -/
theorem Lossy.stray (hcode : PrefixCode encode) (hb : ¬ Begins encode [b])
    (h : Lossy encode rest out) : Lossy encode (b :: rest) (none :: out) := by
  refine Lossy.replace (p := [b]) ?_ h
  refine { ne_nil := List.cons_ne_nil _ _, no_word := ?_, begins := Or.inl rfl, longest := ?_ }
  · intro c hc
    -- a word that is found there begins with the symbol
    obtain ⟨x, word, hword⟩ := List.exists_cons_of_ne_nil (hcode.ne_nil c)
    rw [hword] at hc
    obtain ⟨rfl, -⟩ := List.cons_prefix_cons.mp hc
    exact hb ⟨c, word, hword.symm⟩
  · exact fun b' _ hbegins => hb (hbegins.of_prefix (List.prefix_append _ _))

/-- In an incomplete word no word is found, unless the word goes on. -/
theorem Incomplete.no_word (hcode : PrefixCode encode) (hp : Incomplete encode p)
    (hrest : ∀ b, rest.head? = some b → ¬ Begins encode (p ++ [b])) (c : κ) :
    ¬ encode c <+: p ++ rest := by
  rintro ⟨more, hmore⟩
  obtain ⟨d, hd, hne⟩ := hp
  rcases prefix_cases hmore.symm with ⟨rfl, -⟩ | ⟨b, hb, hlonger⟩ | ⟨b, hb, hlonger⟩
  · exact hne (congrArg encode (hcode.eq_of_prefix hd))
  · exact hrest b hb ⟨c, hlonger⟩
  · -- the word would be shorter than the incomplete one
    have hshort : encode c <+: p := (List.prefix_append _ _).trans hlonger
    obtain rfl := hcode.eq_of_prefix (hshort.trans hd)
    exact hne (hd.eq_of_length_le hshort.length_le)

/-- No word goes on with the symbol: what has been read is replaced, and the symbol is looked
at again. -/
theorem Lossy.refuse (hcode : PrefixCode encode) (hp : Incomplete encode p) (hne : p ≠ [])
    (hb : ¬ Begins encode (p ++ [b])) (h : Lossy encode (b :: rest) out) :
    Lossy encode (p ++ b :: rest) (none :: out) := by
  have hrest : ∀ b', (b :: rest).head? = some b' → ¬ Begins encode (p ++ [b']) := by
    intro b' hb'
    obtain rfl : b = b' := Option.some.inj hb'
    exact hb
  exact .replace ⟨hne, hp.no_word hcode hrest, Or.inr hp.begins, hrest⟩ h

/-- The input ends in an incomplete word. -/
theorem Lossy.finish (hcode : PrefixCode encode) (hp : Incomplete encode p) (hne : p ≠ []) :
    Lossy encode p [none] := by
  have hrest : ∀ b, ([] : List β).head? = some b → ¬ Begins encode (p ++ [b]) := nofun
  have hreplaced : Replaced encode p [] := ⟨hne, hp.no_word hcode hrest, Or.inr hp.begins, hrest⟩
  have h := Lossy.replace hreplaced .nil
  rwa [List.append_nil] at h

/-! ## UTF-8 -/

namespace Utf8

/-- The word of a character. -/
def encodeChar (c : Char) : List UInt8 := encodeCodePoint c.toNat

theorem flatMap_encodeChar (text : List Char) : text.flatMap encodeChar = encodeText text := rfl

theorem toNat_lt (c : Char) : c.toNat < 0x110000 := by
  have := scalar_range c
  omega

/-- No character's bytes begin another's. -/
theorem prefixCode : PrefixCode encodeChar where
  ne_nil c := encodeCodePoint_ne_nil c.toNat
  eq_of_prefix := by
    rintro c d ⟨more, hmore⟩
    have hone := decodeCodePoints_encodeCodePoint_append (toNat_lt d) []
    have hfirst := decodeCodePoints_encodeCodePoint_append (toNat_lt c) more
    rw [List.append_nil] at hone
    rw [encodeChar, encodeChar] at hmore
    rw [hmore, hone] at hfirst
    cases hrest : decodeCodePoints more with
    | none =>
      rw [hrest] at hfirst
      cases hfirst
    | some ns =>
      rw [hrest, Option.map_some] at hfirst
      exact Char.toNat_inj.mp (List.cons.inj (Option.some.inj hfirst)).1.symm

end Utf8

end Lib
