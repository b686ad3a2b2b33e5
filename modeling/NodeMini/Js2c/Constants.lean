import NodeMini.Lib.Passes
import NodeMini.Js2c.Definitions

/-!
# The order of the constants

`ExpandConstants` replaces one name after another in the whole text, and each replacement
changes the text in which the others are searched. The order of the table does not matter
when the replacements keep out of each other's way: the text consists of characters and of
names, and whichever of the names have been replaced, the search for another one finds it
exactly where the text has it.

## Main definitions

* `Part`, `Template` — a text made of characters and names of constants
* `Template.render` — the text after some of the constants have been replaced
* `Template.Apart` — the search for a name finds its places, whatever has been replaced

## Main results

* `expandConstants_eq` — in every order of the table the result is the text with all names
  replaced
-/

namespace NodeMini.Js2c

open Lib

/-- A part of a text: a character, or a place of a constant. -/
inductive Part
  | char (c : Char)
  | const (name : Str)
  deriving DecidableEq, Repr

/-- A text made of characters and names of constants. -/
abbrev Template := List Part

section Constants

variable (constants : Dict Str)

/-- A part, when the constants in `done` have been replaced. -/
def Part.render (done : Str → Bool) : Part → Str
  | .char c => [c]
  | .const name => if done name then (constants.lookup name).getD name else name

/-- A text, when the constants in `done` have been replaced. -/
def Template.render (done : Str → Bool) (t : Template) : Str :=
  t.flatMap (Part.render constants done)

/-- The text before any replacement. -/
def Template.source (t : Template) : Str := t.render constants fun _ => false

/-- The text with all constants replaced. -/
def Template.value (t : Template) : Str := t.render constants fun _ => true

/-- The name begins only at its own places. -/
def Template.Clear (done : Str → Bool) (name : Str) : Template → Prop
  | [] => True
  | p :: t =>
    (p ≠ .const name → NoStart name (p.render constants done) (Template.render constants done t)) ∧
      Clear done name t

/-- Whichever constants have been replaced, another one begins only at its own places. -/
def Template.Apart (t : Template) : Prop :=
  ∀ done ∈ (constants.map Prod.fst).sublists, ∀ e ∈ constants, e.1 ∉ done →
    t.Clear constants (among done) e.1

instance decidableClear (done : Str → Bool) (name : Str) :
    ∀ t : Template, Decidable (t.Clear constants done name)
  | [] => isTrue trivial
  | _ :: t =>
    have := decidableClear done name t
    inferInstanceAs (Decidable (_ ∧ _))

instance (t : Template) : Decidable (t.Apart constants) :=
  inferInstanceAs (Decidable (∀ done ∈ _, _))

variable {constants} {t : Template} {done : Str → Bool} {items : List (Str × Str)}

theorem Template.Clear.part {name : Str} {a b : Template} {p : Part}
    (h : Template.Clear constants done name (a ++ p :: b)) (hp : p ≠ .const name) :
    NoStart name (p.render constants done) (Template.render constants done b) := by
  induction a with
  | nil => exact h.1 hp
  | cons q a ih => exact ih h.2

/-- One replacement. -/
theorem replaceAll_render {e : Str × Str} (h : t.Clear constants done e.1)
    (hnodup : (constants.map Prod.fst).Nodup) (he : e ∈ constants) (hname : e.1 ≠ [])
    (hfresh : done e.1 = false) :
    replaceAll e.1 e.2 (t.render constants done) =
      t.render constants fun name => done name || decide (name = e.1) := by
  refine replaceAll_flatMap hname fun a p b hab => ?_
  by_cases hp : p = .const e.1
  · subst hp
    left
    have hlookup : constants.lookup e.1 = some e.2 := lookup_eq_some_of_mem hnodup he
    simp [Part.render, hfresh, hlookup]
  · right
    refine ⟨?_, Template.Clear.part (hab ▸ h) hp⟩
    cases p with
    | char c => rfl
    | const name =>
      have hne : name ≠ e.1 := fun heq => hp (heq ▸ rfl)
      simp [Part.render, hne]

/-- A name that is not in the table stays. -/
theorem render_names (t : Template) :
    t.render constants (among (constants.map Prod.fst)) = t.value constants := by
  unfold Template.render Template.value
  congr 1
  funext p
  cases p with
  | char c => rfl
  | const name =>
    by_cases hname : name ∈ constants.map Prod.fst
    · have hmark : among (constants.map Prod.fst) name = true := among_eq_true_iff.mpr hname
      simp only [Part.render, hmark]
    · have hlookup : constants.lookup name = none := by
        rw [List.lookup_eq_none_iff]
        intro e he
        rw [bne_iff_ne]
        rintro rfl
        exact hname (List.mem_map_of_mem he)
      simp [Part.render, hlookup]

/-- In every order of the table all places are replaced. -/
theorem expandConstants_eq (h : t.Apart constants) (hnodup : (constants.map Prod.fst).Nodup)
    (hnames : ∀ e ∈ constants, e.1 ≠ []) (hitems : items.Perm constants) :
    expandConstants (t.source constants) items = t.value constants := by
  have hitemsnodup := (hitems.map Prod.fst).nodup_iff.mpr hnodup
  have hpasses := foldl_among (t.render constants) Prod.fst [] items
    (fun lines (e : Str × Str) => replaceAll e.1 e.2 lines) fun done e rest hes => by
      have he : e ∈ constants := hitems.mem_iff.mp (hes ▸ by simp)
      have hdone : ∀ k ∈ done.map Prod.fst, k ∈ constants.map Prod.fst := fun k hk =>
        (hitems.map Prod.fst).mem_iff.mp (hes ▸ by simp [hk])
      have hfresh : e.1 ∉ done.map Prod.fst := by
        rw [hes] at hitemsnodup
        exact not_mem_map_of_nodup hitemsnodup
      obtain ⟨sub, hsub, hmem⟩ := exists_sublist hdone
      rw [← hmem] at hfresh
      rw [List.nil_append, ← among_congr hmem]
      exact replaceAll_render (h sub hsub e he hfresh) hnodup he (hnames e he)
        (among_eq_false_iff.mpr hfresh)
  rw [List.nil_append, among_congr fun k => (hitems.map Prod.fst).mem_iff, render_names,
    among_nil] at hpasses
  exact hpasses

end Constants

end NodeMini.Js2c
