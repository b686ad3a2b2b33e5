import NodeMini.Lib.Run
import NodeMini.Js2c.Macros

/-!
# The definitions of constants and macros

`ReadMacros` takes a list of lines, each with the definition of a constant, of a text macro
or of a Python macro, and returns two dictionaries. The text of a Python macro goes to
`eval`, which is a parameter here.

## Main definitions

* `constPattern`, `macroPattern`, `pythonMacroPattern` — the three patterns of a line
* `Definition`, `Tables` — a macro of either kind, and the two dictionaries
* `readMacros` — the reader
* `expandSource` — what `JS2C` does to a source text with the two dictionaries

## Main results

* `Tables.wellFormed_of_readMacros` — the keys of the dictionaries are distinct words
-/

namespace NodeMini.Js2c

open Lib

/-! ## Dictionaries -/

section Dictionaries

variable {V : Type} {d l : Dict V} {k : Str} {v : V}

theorem mem_of_lookup (h : d.lookup k = some v) : (k, v) ∈ d := by
  obtain ⟨l₁, l₂, rfl, -⟩ := List.lookup_eq_some_iff.mp h
  simp

theorem lookup_eq_some_of_mem (hd : (d.map Prod.fst).Nodup) (h : (k, v) ∈ d) :
    d.lookup k = some v := by
  obtain ⟨l₁, l₂, rfl⟩ := List.append_of_mem h
  refine List.lookup_eq_some_iff.mpr ⟨l₁, l₂, rfl, fun p hp => ?_⟩
  rw [List.map_append, List.map_cons] at hd
  rw [bne_iff_ne]
  rintro rfl
  exact (List.nodup_append.mp hd).2.2 p.1 (List.mem_map_of_mem hp) p.1 List.mem_cons_self rfl

/-- A dictionary does not depend on its order. -/
theorem lookup_eq_of_perm (h : l.Perm d) (hd : (d.map Prod.fst).Nodup) (k : Str) :
    l.lookup k = d.lookup k := by
  have hl : (l.map Prod.fst).Nodup := (h.map Prod.fst).nodup_iff.mpr hd
  cases hk : d.lookup k with
  | some v => exact lookup_eq_some_of_mem hl (h.mem_iff.mpr (mem_of_lookup hk))
  | none =>
    rw [List.lookup_eq_none_iff] at hk ⊢
    exact fun p hp => hk p (h.mem_iff.mp hp)

theorem keys_set (d : Dict V) (k : Str) (v : V) : (d.set k v).map Prod.fst =
    if k ∈ d.map Prod.fst then d.map Prod.fst else d.map Prod.fst ++ [k] := by
  unfold Dict.set
  split_ifs with hk
  · rw [List.map_map]
    apply List.map_congr_left
    intro e _
    simp only [Function.comp_apply]
    split_ifs with he
    · exact he.symm
    · rfl
  · rw [List.map_append, List.map_singleton]

/-- Setting a key keeps the keys distinct, and adds no other. -/
theorem nodup_keys_set (hd : (d.map Prod.fst).Nodup) : ((d.set k v).map Prod.fst).Nodup := by
  rw [keys_set]
  split_ifs with hk
  · exact hd
  · exact List.nodup_append.mpr ⟨hd, List.nodup_singleton k, fun a ha b hb heq =>
      hk (List.mem_singleton.mp hb ▸ heq ▸ ha)⟩

theorem mem_keys_set {j : Str} (h : j ∈ (d.set k v).map Prod.fst) : j ∈ d.map Prod.fst ∨ j = k := by
  rw [keys_set] at h
  split_ifs at h with hk
  · exact Or.inl h
  · rw [List.mem_append, List.mem_singleton] at h
    exact h

end Dictionaries

/-! ## The patterns -/

/-- A nonempty text of word characters, which are those of `[a-zA-Z0-9_]`: the names that the
patterns recognise. In JavaScript `$` may be part of an identifier; here it separates two. -/
def Identifier (s : Str) : Prop := s ≠ [] ∧ ∀ c ∈ s, isWord c = true

instance (s : Str) : Decidable (Identifier s) :=
  decidable_of_iff (s ≠ [] ∧ s.all isWord = true) (by rw [Identifier, List.all_eq_true])

theorem Identifier.ne_nil {s : Str} (h : Identifier s) : s ≠ [] := h.1

/-- A keyword at the beginning of a line, with the `\s+` behind it. -/
def keyword (word s : Str) : Option Str :=
  if word <+: s ∧ (s.drop word.length).head?.any isSpace then
    some ((s.drop word.length).dropWhile isSpace)
  else none

/-- `([a-zA-Z0-9_]+)`, and what follows. -/
def wordGroup (s : Str) : Option (Str × Str) :=
  if s.takeWhile isWord = [] then none else some (s.takeWhile isWord, s.dropWhile isWord)

/-- `\s*` and a character. -/
def token (c : Char) (s : Str) : Option Str :=
  match s.dropWhile isSpace with
  | [] => none
  | d :: s => if d = c then some s else none

/-- `([^;]*);$`, in a line without white space at its end. -/
def valueGroup (s : Str) : Option Str :=
  if s.dropWhile (· ≠ ';') = [';'] then some (s.takeWhile (· ≠ ';')) else none

/-- `CONST_PATTERN`. -/
def constPattern (line : Str) : Option (Str × Str) := do
  let s ← keyword "const".toList line
  let (name, s) ← wordGroup s
  let s ← token '=' s
  let value ← valueGroup s
  return (name, value)

/-- `MACRO_PATTERN`. -/
def macroPattern (line : Str) : Option (Str × Str × Str) := do
  let s ← keyword "macro".toList line
  let (name, s) ← wordGroup s
  let s ← token '(' s
  let params := s.takeWhile (· ≠ ')')
  let s ← token ')' (s.dropWhile (· ≠ ')'))
  let s ← token '=' s
  let body ← valueGroup s
  return (name, params, body)

/-- `PYTHON_MACRO_PATTERN`. -/
def pythonMacroPattern (line : Str) : Option (Str × Str × Str) := do
  macroPattern (← keyword "python".toList line)

/-! ## The reader -/

/-- A macro of either kind. -/
inductive Definition
  | text (m : TextMacro)
  | python (m : PythonMacro)

/-- A macro in a table. -/
def Definition.toMacro (order : DictOrder) : Definition → Macro
  | .text m => m.toMacro order
  | .python m => m.toMacro

/-- `(constants, macros)`. -/
structure Tables where
  constants : Dict Str
  macros : Dict Definition

/-- `map(string.strip, params.split(','))`. -/
def macroArgs (params : Str) : List Str := (params.splitOn ',').map strip

/-- The text of a Python macro. -/
def lambdaText (args : List Str) (body : Str) : Str :=
  "lambda ".toList ++ [','].intercalate args ++ ": ".toList ++ body

section Reader

variable (evalLambda : Str → Except MacroError (List Str → Except MacroError Str))

/-- An iteration of `ReadMacros`. -/
def readLine (tables : Tables) (line : Str) : Except MacroError Tables :=
  let line := strip (line.takeWhile (· ≠ '#'))
  if line = [] then .ok tables
  else
    match constPattern line with
    | some (name, value) =>
      .ok { tables with constants := tables.constants.set name (strip value) }
    | none =>
      match macroPattern line with
      | some (name, params, body) =>
        let m : TextMacro := ⟨macroArgs params, strip body⟩
        .ok { tables with macros := tables.macros.set name (.text m) }
      | none =>
        match pythonMacroPattern line with
        | some (name, params, body) => do
          let func ← evalLambda (lambdaText (macroArgs params) (strip body))
          let m : PythonMacro := ⟨macroArgs params, func⟩
          return { tables with macros := tables.macros.set name (.python m) }
        | none => .error (.illegalLine line)

/-- `ReadMacros`. -/
def readMacros (lines : List Str) : Except MacroError Tables :=
  lines.foldlM (readLine evalLambda) ⟨[], []⟩

end Reader

/-- The keys of a dictionary are distinct words. -/
structure Keyed {V : Type} (d : Dict V) : Prop where
  nodup : (d.map Prod.fst).Nodup
  identifier : ∀ k ∈ d.map Prod.fst, Identifier k

theorem Keyed.set {V : Type} {d : Dict V} {k : Str} {v : V} (h : Keyed d) (hk : Identifier k) :
    Keyed (d.set k v) where
  nodup := nodup_keys_set h.nodup
  identifier j hj := by
    rcases mem_keys_set hj with hj | rfl
    · exact h.identifier j hj
    · exact hk

/-- Both dictionaries have words as keys. -/
structure Tables.WellFormed (tables : Tables) : Prop where
  constants : Keyed tables.constants
  macros : Keyed tables.macros

section WellFormed

variable {evalLambda : Str → Except MacroError (List Str → Except MacroError Str)}
  {tables tables' : Tables} {line name value params body s : Str} {lines : List Str}

theorem identifier_of_wordGroup {rest : Str} (h : wordGroup s = some (name, rest)) :
    Identifier name := by
  unfold wordGroup at h
  split at h
  · cases h
  · next hne =>
    obtain ⟨rfl, -⟩ := Prod.mk.inj (Option.some.inj h)
    exact ⟨hne, fun c hc => List.mem_takeWhile_imp hc⟩

theorem identifier_of_constPattern (h : constPattern line = some (name, value)) :
    Identifier name := by
  simp only [constPattern, Option.bind_eq_bind, Option.bind_eq_some_iff] at h
  obtain ⟨s, -, ⟨word, rest⟩, hword, _, -, _, -, heq⟩ := h
  obtain ⟨rfl, -⟩ := Prod.mk.inj (Option.some.inj heq)
  exact identifier_of_wordGroup hword

theorem identifier_of_macroPattern (h : macroPattern line = some (name, params, body)) :
    Identifier name := by
  simp only [macroPattern, Option.bind_eq_bind, Option.bind_eq_some_iff] at h
  obtain ⟨s, -, ⟨word, rest⟩, hword, _, -, _, -, _, -, _, -, heq⟩ := h
  obtain ⟨rfl, -⟩ := Prod.mk.inj (Option.some.inj heq)
  exact identifier_of_wordGroup hword

/-- Each line keeps the keys distinct words. -/
theorem Tables.WellFormed.readLine (h : tables.WellFormed)
    (hread : readLine evalLambda tables line = .ok tables') : tables'.WellFormed := by
  unfold Js2c.readLine at hread
  simp only at hread
  split at hread
  · cases hread
    exact h
  split at hread
  · next name value hconst =>
    cases hread
    exact ⟨h.constants.set (identifier_of_constPattern hconst), h.macros⟩
  split at hread
  · next name params body hmacro =>
    cases hread
    exact ⟨h.constants, h.macros.set (identifier_of_macroPattern hmacro)⟩
  split at hread
  · next name params body hpython =>
    simp only [pythonMacroPattern, Option.bind_eq_bind, Option.bind_eq_some_iff] at hpython
    obtain ⟨s, -, hmacro⟩ := hpython
    obtain ⟨func, -, htables⟩ := except_bind_eq_ok.mp hread
    cases htables
    exact ⟨h.constants, h.macros.set (identifier_of_macroPattern hmacro)⟩
  · cases hread

theorem Tables.WellFormed.foldlM (h : tables.WellFormed)
    (hread : lines.foldlM (Js2c.readLine evalLambda) tables = .ok tables') :
    tables'.WellFormed := by
  induction lines generalizing tables with
  | nil =>
    cases hread
    exact h
  | cons line lines ih =>
    rw [List.foldlM_cons] at hread
    obtain ⟨t, ht, hread⟩ := except_bind_eq_ok.mp hread
    exact ih (h.readLine ht) hread

theorem keyed_nil {V : Type} : Keyed ([] : Dict V) :=
  ⟨List.nodup_nil, fun _ hk => absurd hk List.not_mem_nil⟩

/-- The keys of the dictionaries that `ReadMacros` returns are distinct words. -/
theorem Tables.wellFormed_of_readMacros (h : readMacros evalLambda lines = .ok tables) :
    tables.WellFormed :=
  Tables.WellFormed.foldlM ⟨keyed_nil, keyed_nil⟩ h

end WellFormed

/-- The macros of a dictionary, as `ExpandMacros` uses them. -/
def toTable (order : DictOrder) (macros : Dict Definition) : List (Str × Macro) :=
  macros.map fun (name, m) => (name, m.toMacro order)

/-- The expansion steps of `JS2C`. -/
def expandSource (constants : List (Str × Str)) (macros : List (Str × Macro)) (fuel : ℕ)
    (lines : Str) : Except (Stop MacroError) Str :=
  expandMacros macros fuel (expandConstants lines constants)

end NodeMini.Js2c
