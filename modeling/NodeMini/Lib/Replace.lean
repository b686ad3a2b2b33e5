import Mathlib.Data.List.Infix

/-!
# Replacing a word in a text

`replaceAll old new` goes through a text from left to right and puts `new` in the place of
each occurrence of `old` that does not overlap one it has already replaced. What it puts in
is not looked at again. An empty `old` occurs in front of every symbol and at the end.

The text need not be known to be searched: it is enough to know that the gaps between some
of the occurrences are gaps, that is, that no further occurrence begins in them.

## Main definitions

* `replaceAll` — replacement of all occurrences
* `replaceOn` — the same for a text whose symbols carry more than is compared
* `NoStart` — no occurrence begins in a part of a text

## Main results

* `replaceOn_gap`, `replaceOn_match` — what the replacement does in a gap and at an occurrence
* `replaceOn_flatMap`, `replaceAll_flatMap` — a text that is made of both
* `prefix_append_cons_iff` — a word does not reach beyond a symbol outside of it
-/

namespace Lib

variable {α : Type} [DecidableEq α]

/-- Replacement from left to right, with the number of symbols still to be dropped of the
occurrence that was replaced last. -/
def replaceFrom (old new : List α) : ℕ → List α → List α
  | _, [] => []
  | skip + 1, _ :: s => replaceFrom old new skip s
  | 0, c :: s =>
    if old <+: c :: s then new ++ replaceFrom old new (old.length - 1) s
    else c :: replaceFrom old new 0 s

/-- Put `new` in the place of each occurrence of `old`. -/
def replaceAll (old new s : List α) : List α :=
  if old = [] then new ++ s.flatMap (fun c => c :: new) else replaceFrom old new 0 s

/-- No occurrence of `old` begins in the part `gap` of the text `gap ++ rest`. -/
def NoStart (old : List α) (gap rest : List α) : Prop :=
  ∀ a b, gap = a ++ b → b ≠ [] → ¬ old <+: b ++ rest

omit [DecidableEq α] in
/-- It is enough to look at the places in the gap. -/
theorem noStart_iff (old gap rest : List α) :
    NoStart old gap rest ↔ ∀ b ∈ gap.tails, b ≠ [] → ¬ old <+: b ++ rest := by
  constructor
  · intro h b hb
    obtain ⟨a, ha⟩ := (List.mem_tails _ _).mp hb
    exact h a b ha.symm
  · intro h a b hgap
    exact h b ((List.mem_tails _ _).mpr ⟨a, hgap.symm⟩)

instance (old gap rest : List α) : Decidable (NoStart old gap rest) :=
  decidable_of_iff _ (noStart_iff old gap rest).symm

variable {old new s t gap rest : List α} {c : α}

omit [DecidableEq α] in
theorem NoStart.tail (h : NoStart old (c :: gap) rest) : NoStart old gap rest :=
  fun a b hgap hb => h (c :: a) b (by rw [hgap, List.cons_append]) hb

theorem replaceAll_of_ne_nil (h : old ≠ []) : replaceAll old new s = replaceFrom old new 0 s :=
  if_neg h

/-! ## Texts whose symbols carry more than is compared -/

section Carried

variable {β : Type} (f : β → α)

/-- Replacement in a text of which `f` gives what is compared. -/
def replaceOn (old : List α) (new : List β) : ℕ → List β → List β
  | _, [] => []
  | skip + 1, _ :: s => replaceOn old new skip s
  | 0, c :: s =>
    if old <+: (c :: s).map f then new ++ replaceOn old new (old.length - 1) s
    else c :: replaceOn old new 0 s

variable {f} {new s gap rest key : List β}

theorem map_replaceOn (skip : ℕ) :
    (replaceOn f old new skip s).map f = replaceFrom old (new.map f) skip (s.map f) := by
  induction s generalizing skip with
  | nil =>
    cases skip <;> rfl
  | cons c s ih =>
    cases skip with
    | succ skip => exact ih skip
    | zero =>
      rw [replaceOn, List.map_cons, replaceFrom]
      split_ifs
      · rw [List.map_append, ih]
      · rw [List.map_cons, ih]

/-- A gap is left alone. -/
theorem replaceOn_gap (h : NoStart old (gap.map f) (rest.map f)) :
    replaceOn f old new 0 (gap ++ rest) = gap ++ replaceOn f old new 0 rest := by
  induction gap with
  | nil => rfl
  | cons c gap ih =>
    have hc : ¬ old <+: (c :: (gap ++ rest)).map f := by
      have hstart := h [] ((c :: gap).map f) rfl (by simp)
      rwa [← List.map_append] at hstart
    rw [List.cons_append, replaceOn, if_neg hc, ih h.tail, List.cons_append]

theorem replaceOn_skip (s t : List β) :
    replaceOn f old new s.length (s ++ t) = replaceOn f old new 0 t := by
  induction s with
  | nil => rfl
  | cons c s ih => exact ih

/-- An occurrence is replaced. -/
theorem replaceOn_match (hkey : key.map f = old) (hold : old ≠ []) :
    replaceOn f old new 0 (key ++ rest) = new ++ replaceOn f old new 0 rest := by
  cases key with
  | nil => exact absurd hkey.symm hold
  | cons c key =>
    have hprefix : old <+: (c :: (key ++ rest)).map f := by
      rw [← hkey, ← List.cons_append, List.map_append]
      exact List.prefix_append ((c :: key).map f) (rest.map f)
    have hlength : old.length - 1 = key.length := by
      rw [← hkey]
      simp
    rw [List.cons_append, replaceOn, if_pos hprefix, hlength, replaceOn_skip]

/-- A text in parts, each of which is an occurrence or a gap. -/
theorem replaceOn_flatMap {ι : Type} {r r' : ι → List β} {l : List ι} (hold : old ≠ [])
    (h : ∀ a p b, l = a ++ p :: b → ((r p).map f = old ∧ r' p = new) ∨
      (r' p = r p ∧ NoStart old ((r p).map f) ((b.flatMap r).map f))) :
    replaceOn f old new 0 (l.flatMap r) = l.flatMap r' := by
  induction l with
  | nil => rfl
  | cons p l ih =>
    have hrest := ih fun a q b hab => h (p :: a) q b (by rw [hab, List.cons_append])
    rw [List.flatMap_cons, List.flatMap_cons]
    rcases h [] p l rfl with ⟨hmatch, hnew⟩ | ⟨hkeep, hgap⟩
    · rw [replaceOn_match hmatch hold, hrest, hnew]
    · rw [replaceOn_gap hgap, hrest, hkeep]

/-- Where the word occurs, the new one comes in. -/
theorem exists_replaceOn (new : List β) (h : old <:+: s.map f) (hs : s ≠ []) :
    ∃ a b, replaceOn f old new 0 s = a ++ new ++ b := by
  induction s with
  | nil => exact absurd rfl hs
  | cons c s ih =>
    rw [replaceOn]
    by_cases hprefix : old <+: (c :: s).map f
    · rw [if_pos hprefix]
      exact ⟨[], _, rfl⟩
    · rw [if_neg hprefix]
      have htail : old <:+: s.map f := by
        rw [List.map_cons, List.infix_cons_iff] at h
        exact h.resolve_left hprefix
      have hne : s ≠ [] := by
        rintro rfl
        rw [List.map_nil, List.infix_nil] at htail
        exact hprefix (htail ▸ List.nil_prefix)
      obtain ⟨a, b, hab⟩ := ih htail hne
      exact ⟨c :: a, b, by rw [hab, List.cons_append, List.cons_append]⟩

theorem replaceOn_id {new s : List α} (skip : ℕ) :
    replaceOn id old new skip s = replaceFrom old new skip s := by
  have h : (replaceOn id old new skip s).map id =
      replaceFrom old (new.map id) skip (s.map id) := map_replaceOn skip
  rwa [List.map_id, List.map_id, List.map_id] at h

end Carried

/-- A text in parts, each of which is an occurrence or a gap. -/
theorem replaceAll_flatMap {ι : Type} {r r' : ι → List α} {l : List ι} (hold : old ≠ [])
    (h : ∀ a p b, l = a ++ p :: b →
      (r p = old ∧ r' p = new) ∨ (r' p = r p ∧ NoStart old (r p) (b.flatMap r))) :
    replaceAll old new (l.flatMap r) = l.flatMap r' := by
  rw [replaceAll_of_ne_nil hold, ← replaceOn_id]
  refine replaceOn_flatMap hold fun a p b hab => ?_
  rw [List.map_id, List.map_id]
  exact h a p b hab

omit [DecidableEq α] in
/-- A word that does not contain a symbol does not reach beyond it. -/
theorem prefix_append_cons_iff (hc : c ∉ old) : old <+: s ++ c :: t ↔ old <+: s := by
  constructor
  · intro h
    induction s generalizing old with
    | nil =>
      cases old with
      | nil => exact List.nil_prefix
      | cons d old =>
        obtain ⟨rfl, -⟩ := List.cons_prefix_cons.mp h
        exact absurd List.mem_cons_self hc
    | cons e s ih =>
      cases old with
      | nil => exact List.nil_prefix
      | cons d old =>
        obtain ⟨rfl, htail⟩ := List.cons_prefix_cons.mp h
        have hold := ih (fun hmem => hc (List.mem_cons_of_mem d hmem)) htail
        exact List.cons_prefix_cons.mpr ⟨rfl, hold⟩
  · exact fun h => h.trans (List.prefix_append s (c :: t))

end Lib
