import Mathlib
import NodeMini.Js2c.Render
import NodeMini.Loaders.Basic

/-!
# The names of embedded sources

`JS2C` of `js2c.py` names every source it embeds after its path: the leading directory is
dropped (below `deps` it is kept and `internal` put in front), separators are written `/`,
and the name ends at the first dot. The C variables of a source carry the same name with
`-` and `/` written `_`. Some dependencies are stored a second time under their old name.

## Main definitions

* `mainName`, `deprecatedName`, `entries` — the names `JS2C` computes
* `key`, `value`, `declared`, `initializer` — the C variables, and the statement that uses them
* `storedKey` — the string a source is stored under
* `NamesLaw` — names do not collide, and spell the path of a script
* `Clear` — the condition on the paths

## Main results

* `storedKey_eq`, `initializer_eq` — a source is stored under its name
* `mainName_of_isScript` — the name computed for a script
* `confusable_iff` — which names get the same variables
* `namesLaw_iff` — `NamesLaw` holds exactly of clear lists of paths
-/

namespace NodeMini.Js2c

open Lib

/-! ## Names -/

/-- A source path, as given on the command line. -/
abbrev Path := List Char

/-- The name of an embedded source. -/
abbrev Name := List Char

/-- `os.path.split(s)[1]` -/
def basename (s : Path) : List Char := (s.reverse.takeWhile (· ≠ '/')).reverse

/-- Macro files are read, not embedded. -/
def isMacroFile (s : Path) : Bool := "macros.py".toList.isSuffixOf (basename s)

/-- The characters `re.split` splits a path at. -/
def isSeparator (c : Char) : Bool := c = '/' || c = '\\'

/-- `'/'.join(split)` -/
def joinSlash (split : List (List Char)) : List Char := ['/'].intercalate split

/-- The components `name` and `deprecated_deps` are made of. -/
def splitPath (name : Path) : List (List Char) × Option (List (List Char)) :=
  if name.any isSeparator then
    let split := name.splitOnP isSeparator
    if split[0]? = some "deps".toList then
      ("internal".toList :: split,
        if split[1]? = some "node-inspect".toList ∨ split[1]? = some "v8".toList then
          some split.tail else none)
    else (split.tail, none)
  else ([name], none)

/-- `name.split('.', 1)[0]` -/
def cutAtDot (name : List Char) : Name := name.takeWhile (· ≠ '.')

/-- The name of a source. -/
def mainName (path : Path) : Name := cutAtDot (joinSlash (splitPath path).1)

/-- The old name of a dependency that is stored twice. -/
def deprecatedName (path : Path) : Option Name :=
  (splitPath path).2.map fun deps => cutAtDot (joinSlash deps)

/-- The names `JS2C` stores its sources under, in order. -/
def entries (source : List Path) : List Name :=
  (source.filter (!isMacroFile ·)).flatMap fun path =>
    mainName path :: (deprecatedName path).toList

/-! ## Variables -/

/-- `s.replace(old, new)` for single characters. -/
def replace (old new : Char) (s : List Char) : List Char :=
  s.map fun c => if c = old then new else c

/-- The variable name of a source. -/
def var (name : Name) : List Char := replace '/' '_' (replace '-' '_' name)

/-- The variable that holds the key. -/
def key (name : Name) : List Char := var name ++ "_key".toList

/-- The variable that holds the source. -/
def value (name : Name) : List Char := var name ++ "_value".toList

/-- The C variables the definitions of a source declare: for its key and for its text the
array and the resource around it. -/
def declared (name : Name) : List (List Char) :=
  ["raw_".toList ++ key name, key name, "raw_".toList ++ value name, value name]

/-- `INITIALIZER` -/
def initializerTemplate : List Char := unlines [
  "CHECK(target->Set(env->context(),",
  "                  \x7bkey\x7d.ToStringChecked(env->isolate()),",
  "                  \x7bvalue\x7d.ToStringChecked(env->isolate())).FromJust());"]

/-- The statement of `DefineJavaScript` that stores a source. -/
def initializer (name : Name) : Option (List Char) :=
  format [("key".toList, key name), ("value".toList, value name)] initializerTemplate

/-- The string a source is stored under: the elements of the array emitted for its key. -/
def storedKey (name : Name) : Option (List ℕ) :=
  ((render (key name) (Utf8.encodeText name)).bind (readArray (key name))).map Prod.snd

/-! ## The law -/

/-- A path with its separators written `/`. -/
def slashes (p : List Char) : List Char := p.map fun c => if isSeparator c then '/' else c

/-- A path of the form `<dir>/<p>.js` with one leading directory, not `deps`. -/
def IsScript (path : Path) (p : List Char) : Prop :=
  ∃ dir sep, path = dir ++ sep :: (p ++ ".js".toList) ∧ isSeparator sep ∧
    (∀ c ∈ dir, isSeparator c = false) ∧ dir ≠ "deps".toList

/-- The `filename` of the module `NativeModule` builds for an id. -/
def filenameOf (L : Loader) (id : JsString) : Option JsString :=
  let (m, L) := L.newNativeModule id
  (L.modules m).map NativeModule.filename

/-- A C identifier. -/
def isIdentifier : List Char → Bool
  | [] => false
  | c :: rest => (c.isAlpha || c = '_') && rest.all fun c => c.isAlphanum || c = '_'

/-- Embedded sources do not get in each other's way. -/
structure NamesLaw (source : List Path) : Prop where
  keys_distinct : ((entries source).map storedKey).Nodup
  /-- A script is stored under its path, and a module of that name has its file name. -/
  key_of_script : ∀ path ∈ source, ∀ p, IsScript path p →
    storedKey (mainName path) = some ((Utf8.textUnits (slashes p)).map UInt16.toNat) ∧
    ∀ L : Loader, filenameOf L (Utf8.textUnits (mainName path)) =
      some (Utf8.textUnits (slashes p ++ ".js".toList))
  variables_distinct : ((entries source).flatMap declared).Nodup
  variables_valid : ∀ name ∈ entries source, ∀ v ∈ declared name, isIdentifier v

/-- Characters that are written `_` in a variable. -/
def isJoiner (c : Char) : Bool := c = '-' || c = '/' || c = '_'

/-- Names that differ at most in their joiners. -/
def Confusable (a b : Name) : Prop := List.Forall₂ (fun c d => c = d ∨ isJoiner c ∧ isJoiner d) a b

/-- The name with `raw_` in front, whose variables are the arrays. -/
def raw (name : Name) : Name := "raw_".toList ++ name

/-- Names whose variables differ, arrays included. -/
def Separate (a b : Name) : Prop :=
  ¬ Confusable a b ∧ ¬ Confusable (raw a) b ∧ ¬ Confusable a (raw b)

/-- The paths of a list are told apart by their names, and their names are good for C. -/
structure Clear (source : List Path) : Prop where
  separate : (entries source).Pairwise Separate
  characters : ∀ name ∈ entries source, ∀ c ∈ name, c.isAlphanum ∨ isJoiner c
  first : ∀ name ∈ entries source, ∀ c, name.head? = some c → c.isDigit = false
  /-- The name of a script does not end early. -/
  dotless : ∀ path ∈ source, ∀ p, IsScript path p → '.' ∉ p

/-! ## Names and paths -/

variable {path p name : List Char} {source : List Path}

theorem textUnits_injective : Function.Injective Utf8.textUnits := by
  intro a b h
  apply List.map_injective_iff.mpr fun _ _ => Char.toNat_inj.mp
  rw [← Utf8.codePoints_textUnits, h, Utf8.codePoints_textUnits]

/-- A source is stored under its name. -/
theorem storedKey_eq (name : Name) :
    storedKey name = some ((Utf8.textUnits name).map UInt16.toNat) := by
  rw [storedKey, readArray_render]
  rfl

theorem storedKey_inj {a b : Name} : storedKey a = storedKey b ↔ a = b := by
  rw [storedKey_eq, storedKey_eq, Option.some_inj]
  constructor
  · intro h
    apply textUnits_injective
    exact List.map_injective_iff.mpr (fun _ _ => UInt16.toNat_inj.mp) h
  · rintro rfl
    rfl

/-- Splitting at separators and joining with `/` writes every separator as `/`. -/
theorem joinSlash_splitOnP (p : List Char) : joinSlash (p.splitOnP isSeparator) = slashes p := by
  induction p with
  | nil => rfl
  | cons c p ih =>
    obtain ⟨first, rest, hsplit⟩ := List.exists_cons_of_ne_nil (List.splitOnP_ne_nil isSeparator p)
    rw [hsplit] at ih
    rw [List.splitOnP_cons_eq_if_modifyHead, slashes, List.map_cons, ← slashes, ← ih, hsplit]
    by_cases hc : isSeparator c
    · -- an empty component in front gives the slash
      rw [if_pos hc, if_pos hc, joinSlash, List.intercalate_cons_cons, joinSlash]
      rfl
    · rw [if_neg hc, if_neg hc, joinSlash, joinSlash, List.modifyHead_cons]
      cases rest with
      | nil => simp
      | cons second rest => simp [List.intercalate_cons_cons]

/-- The name of a script is cut out of its path without the leading directory. -/
theorem mainName_of_isScript (h : IsScript path p) :
    mainName path = cutAtDot (slashes p ++ ".js".toList) := by
  obtain ⟨dir, sep, rfl, hsep, hdir, hdeps⟩ := h
  -- the directory is the first component, which is dropped
  have hsplit : (dir ++ sep :: (p ++ ".js".toList)).splitOnP isSeparator =
      dir :: (p ++ ".js".toList).splitOnP isSeparator :=
    List.splitOnP_append_cons_of_forall_mem hdir sep hsep _
  have hany : (dir ++ sep :: (p ++ ".js".toList)).any isSeparator :=
    List.any_eq_true.mpr ⟨sep, by simp, hsep⟩
  have hfirst : (dir :: (p ++ ".js".toList).splitOnP isSeparator)[0]? ≠ some "deps".toList := by
    simpa using hdeps
  rw [mainName, splitPath, if_pos hany]
  simp only [hsplit]
  rw [if_neg hfirst, List.tail_cons, joinSlash_splitOnP, slashes, List.map_append, ← slashes]
  rfl

theorem dot_mem_slashes : '.' ∈ slashes p ↔ '.' ∈ p := by
  rw [slashes, List.mem_map]
  constructor
  · rintro ⟨c, hc, hdot⟩
    split_ifs at hdot
    · cases hdot
    · rwa [← hdot]
  · intro h
    exact ⟨'.', h, rfl⟩

/-- The name is cut at the dot of the extension exactly if there is no other dot. -/
theorem cutAtDot_js (name : List Char) : cutAtDot (name ++ ".js".toList) = name ↔ '.' ∉ name := by
  constructor
  · -- nothing that is kept is a dot
    intro h hdot
    rw [← h] at hdot
    have hkept := List.mem_takeWhile_imp hdot
    simp at hkept
  · intro h
    have hdot : name ++ ".js".toList = name ++ '.' :: ['j', 's'] := rfl
    rw [cutAtDot, hdot, takeWhile_ne_append h]

theorem filenameOf_eq (L : Loader) (id : JsString) : filenameOf L id = some (id ++ js ".js") := by
  rw [filenameOf, Loader.newNativeModule]
  simp

/-- The second part of `NamesLaw`, for one script. -/
theorem key_of_script_iff (h : IsScript path p) :
    (storedKey (mainName path) = some ((Utf8.textUnits (slashes p)).map UInt16.toNat) ∧
      ∀ L : Loader, filenameOf L (Utf8.textUnits (mainName path)) =
        some (Utf8.textUnits (slashes p ++ ".js".toList))) ↔ '.' ∉ p := by
  rw [← storedKey_eq, storedKey_inj, mainName_of_isScript h, ← dot_mem_slashes, ← cutAtDot_js]
  constructor
  · exact And.left
  · intro hname
    refine ⟨hname, fun L => ?_⟩
    rw [hname, filenameOf_eq, js, Utf8.textUnits, Utf8.textUnits, Utf8.textUnits,
      List.flatMap_append]

/-! ## Names and variables -/

/-- The two replacements of `var`, on a character. -/
def varChar (c : Char) : Char := if isJoiner c then '_' else c

theorem var_eq_map (name : Name) : var name = name.map varChar := by
  rw [var, replace, replace, List.map_map]
  apply List.map_congr_left
  intro c _
  simp only [Function.comp_apply, varChar, isJoiner, Bool.or_eq_true, decide_eq_true_eq]
  split_ifs <;> simp_all

theorem varChar_eq_iff {c d : Char} :
    varChar c = varChar d ↔ c = d ∨ isJoiner c ∧ isJoiner d := by
  by_cases hc : isJoiner c <;> by_cases hd : isJoiner d <;>
    simp only [varChar, hc, hd, if_true, if_false, Bool.false_eq_true, and_true, and_false, or_true,
      or_false, and_self]
  · -- only one of the two is a joiner, so they differ, before and after
    constructor
    · rintro rfl
      exact absurd (by decide) hd
    · rintro rfl
      exact absurd hc hd
  · constructor
    · rintro rfl
      exact absurd (by decide) hc
    · rintro rfl
      exact absurd hd hc

/-- Two names get the same variables exactly if they differ at most in their joiners. -/
theorem confusable_iff {a b : Name} : Confusable a b ↔ var a = var b := by
  rw [var_eq_map, var_eq_map]
  induction a generalizing b with
  | nil =>
    cases b with
    | nil => exact iff_of_true .nil rfl
    | cons d b => exact iff_of_false nofun nofun
  | cons c a ih =>
    cases b with
    | nil => exact iff_of_false nofun nofun
    | cons d b =>
      rw [Confusable, List.forall₂_cons, ← Confusable, ih, List.map_cons, List.map_cons,
        List.cons.injEq, varChar_eq_iff]

theorem key_inj {a b : Name} : key a = key b ↔ var a = var b := List.append_left_inj _

theorem value_inj {a b : Name} : value a = value b ↔ var a = var b := List.append_left_inj _

/-- No key is a value. -/
theorem key_ne_value (a b : Name) : key a ≠ value b := by
  intro h
  -- they end in different letters
  have hlast := congrArg List.getLast? h
  rw [key, value, List.getLast?_append, List.getLast?_append] at hlast
  have hchars : some 'y' = some 'e' := hlast
  exact absurd hchars (by decide)

theorem var_raw (name : Name) : var (raw name) = "raw_".toList ++ var name := by
  rw [var_eq_map, raw, List.map_append, var_eq_map]
  rfl

theorem declared_eq (name : Name) :
    declared name = [key (raw name), key name, value (raw name), value name] := by
  rw [declared, key, key, value, value, var_raw, List.append_assoc, List.append_assoc]

theorem confusable_raw {a b : Name} : Confusable (raw a) (raw b) ↔ Confusable a b := by
  rw [confusable_iff, confusable_iff, var_raw, var_raw]
  exact List.append_right_inj _

theorem nodup_declared (name : Name) : (declared name).Nodup := by
  have hlength : var (raw name) ≠ var name := by
    intro h
    have := congrArg List.length h
    rw [var_raw, List.length_append] at this
    exact absurd this (by simp)
  rw [declared_eq]
  simp only [List.nodup_cons, List.mem_cons, List.not_mem_nil, or_false, key_inj, value_inj,
    key_ne_value, hlength, not_false_eq_true, and_self, List.nodup_nil]

/-- Two names have no variable in common exactly if they are separate. -/
theorem disjoint_declared_iff {a b : Name} :
    (declared a).Disjoint (declared b) ↔ Separate a b := by
  have hvalue : ∀ a b, value a ≠ key b := fun a b => (key_ne_value b a).symm
  rw [declared_eq, declared_eq, Separate]
  simp only [List.disjoint_cons_left, List.mem_cons, List.not_mem_nil, or_false, not_or, key_inj,
    value_inj, key_ne_value, hvalue, ← confusable_iff, confusable_raw, List.disjoint_nil_left]
  tauto

/-- The variables are distinct exactly if the names are separate. -/
theorem nodup_declared_iff (names : List Name) :
    (names.flatMap declared).Nodup ↔ names.Pairwise Separate := by
  rw [List.nodup_flatMap, and_iff_right fun name _ => nodup_declared name]
  apply List.Pairwise.iff
  intro a b
  exact disjoint_declared_iff

/-- Names with distinct variables are distinct. -/
theorem nodup_storedKey {names : List Name} (h : names.Pairwise Separate) :
    (names.map storedKey).Nodup := by
  rw [List.Nodup, List.pairwise_map]
  refine h.imp fun hseparate hkey => hseparate.1 ?_
  rw [confusable_iff, storedKey_inj.mp hkey]

/-! ## Identifiers -/

theorem isDigit_of_isAlpha {c : Char} (h : c.isAlpha) : c.isDigit = false := by
  simp only [Char.isAlpha, Char.isUpper, Char.isLower, Bool.or_eq_true, Bool.and_eq_true,
    decide_eq_true_eq, UInt32.le_iff_toNat_le, ge_iff_le] at h
  simp only [Char.isDigit, Bool.and_eq_false_iff, decide_eq_false_iff_not, UInt32.le_iff_toNat_le,
    ge_iff_le]
  have h9 : '9'.val.toNat = 57 := rfl
  have hA : 'A'.val.toNat = 65 := rfl
  have ha : 'a'.val.toNat = 97 := rfl
  omega

/-- Which characters give a character of an identifier. -/
theorem varChar_part {c : Char} :
    ((varChar c).isAlphanum || varChar c = '_') ↔ c.isAlphanum ∨ isJoiner c := by
  by_cases hc : isJoiner c
  · simp [varChar, hc]
  · have hc' : c ≠ '_' := by
      rintro rfl
      exact hc (by decide)
    simp [varChar, hc, hc']

/-- Which characters give a first character of an identifier. -/
theorem varChar_start {c : Char} :
    ((varChar c).isAlpha || varChar c = '_') ↔
      (c.isAlphanum ∨ isJoiner c) ∧ c.isDigit = false := by
  by_cases hc : isJoiner c
  · have hdigit : c.isDigit = false := by
      simp only [isJoiner, Bool.or_eq_true, decide_eq_true_eq] at hc
      rcases hc with (rfl | rfl) | rfl <;> decide
    simp [varChar, hc, hdigit]
  · have hc' : c ≠ '_' := by
      rintro rfl
      exact hc (by decide)
    have hdigit : c.isAlpha → c.isDigit = false := isDigit_of_isAlpha
    simp only [varChar, hc, hc', if_false, Char.isAlphanum, decide_false, Bool.or_false,
      Bool.or_eq_true, or_false, Bool.false_eq_true]
    constructor
    · intro h
      exact ⟨Or.inl h, hdigit h⟩
    · rintro ⟨h | h, hnot⟩
      · exact h
      · rw [h] at hnot
        cases hnot

/-- The variable of a name is an identifier, whatever identifier follows it. -/
theorem isIdentifier_var_append {suffix : List Char} (hsuffix : isIdentifier suffix) :
    isIdentifier (var name ++ suffix) ↔
      (∀ c ∈ name, c.isAlphanum ∨ isJoiner c) ∧ ∀ c, name.head? = some c → c.isDigit = false := by
  -- the first character of an identifier may also stand in the middle
  have hpart : suffix.all fun c => c.isAlphanum || c = '_' := by
    cases suffix with
    | nil => cases hsuffix
    | cons c suffix =>
      rw [isIdentifier, Bool.and_eq_true] at hsuffix
      have hc : c.isAlphanum || c = '_' := by
        rw [Char.isAlphanum, Bool.or_eq_true, Bool.or_eq_true]
        rcases Bool.or_eq_true_iff.mp hsuffix.1 with h | h
        · exact Or.inl (Or.inl h)
        · exact Or.inr h
      rw [List.all_cons, hc, hsuffix.2]
      rfl
  rw [var_eq_map]
  cases name with
  | nil => simpa using hsuffix
  | cons c name =>
    rw [List.map_cons, List.cons_append, isIdentifier, Bool.and_eq_true, varChar_start,
      List.all_append, hpart, Bool.and_true, List.all_map, List.all_eq_true, List.forall_mem_cons]
    have hrest : (∀ d ∈ name, ((fun c => c.isAlphanum || decide (c = '_')) ∘ varChar) d = true) ↔
        ∀ d ∈ name, d.isAlphanum ∨ isJoiner d :=
      forall₂_congr fun d _ => varChar_part
    rw [hrest]
    have hhead : (∀ d, (c :: name).head? = some d → d.isDigit = false) ↔ c.isDigit = false := by
      simp
    rw [hhead]
    exact and_right_comm

/-- A name with `raw_` in front starts well, so only its characters count. -/
theorem isIdentifier_var_raw_append {suffix : List Char} (hsuffix : isIdentifier suffix)
    (hname : ∀ c ∈ name, c.isAlphanum ∨ isJoiner c) : isIdentifier (var (raw name) ++ suffix) := by
  apply (isIdentifier_var_append hsuffix).mpr
  constructor
  · have hraw : "raw_".toList.all fun c => c.isAlphanum || isJoiner c := by decide
    intro c hc
    rcases List.mem_append.mp hc with hc | hc
    · exact Bool.or_eq_true_iff.mp (List.all_eq_true.mp hraw c hc)
    · exact hname c hc
  · intro c hc
    obtain rfl : 'r' = c := Option.some.inj hc
    decide

/-- Which names give four identifiers. -/
theorem declared_valid_iff :
    (∀ v ∈ declared name, isIdentifier v) ↔
      (∀ c ∈ name, c.isAlphanum ∨ isJoiner c) ∧ ∀ c, name.head? = some c → c.isDigit = false := by
  have hkey : isIdentifier "_key".toList := by decide
  have hvalue : isIdentifier "_value".toList := by decide
  rw [declared_eq]
  simp only [List.forall_mem_cons, List.not_mem_nil, false_imp_iff, implies_true, and_true]
  constructor
  · rintro ⟨-, h, -⟩
    exact (isIdentifier_var_append hkey).mp h
  · intro h
    exact ⟨isIdentifier_var_raw_append hkey h.1, (isIdentifier_var_append hkey).mpr h,
      isIdentifier_var_raw_append hvalue h.1, (isIdentifier_var_append hvalue).mpr h⟩

/-! ## The law -/

/-- Embedded sources do not get in each other's way exactly if the list of paths is
clear. -/
theorem namesLaw_iff (source : List Path) : NamesLaw source ↔ Clear source := by
  constructor
  · intro h
    have hvalid := fun name hname => declared_valid_iff.mp (h.variables_valid name hname)
    refine { separate := ?_, characters := ?_, first := ?_, dotless := ?_ }
    · exact (nodup_declared_iff _).mp h.variables_distinct
    · exact fun name hname => (hvalid name hname).1
    · exact fun name hname => (hvalid name hname).2
    · exact fun path hpath p hp => (key_of_script_iff hp).mp (h.key_of_script path hpath p hp)
  · intro h
    refine { keys_distinct := ?_, key_of_script := ?_, variables_distinct := ?_,
             variables_valid := ?_ }
    · exact nodup_storedKey h.separate
    · exact fun path hpath p hp => (key_of_script_iff hp).mpr (h.dotless path hpath p hp)
    · exact (nodup_declared_iff _).mpr h.separate
    · intro name hname
      exact declared_valid_iff.mpr ⟨h.characters name hname, h.first name hname⟩

/-- Two files of one directory whose paths agree up to the first dot get one key, and the
second replaces the first; two scripts can also have distinct keys and the same variables. -/
theorem not_namesLaw :
    (["lib/a.b.js".toList, "lib/a.c.js".toList].Nodup ∧
      ¬ NamesLaw ["lib/a.b.js".toList, "lib/a.c.js".toList]) ∧
    (["lib/a-b.js".toList, "lib/a_b.js".toList].Nodup ∧
      ¬ NamesLaw ["lib/a-b.js".toList, "lib/a_b.js".toList]) := by
  refine ⟨⟨by decide, fun h => ?_⟩, by decide, fun h => ?_⟩
  · have hnodup : (entries ["lib/a.b.js".toList, "lib/a.c.js".toList]).Nodup :=
      List.Nodup.of_map storedKey h.keys_distinct
    exact absurd hnodup (by decide)
  · have hnodup := h.variables_distinct
    exact absurd hnodup (by decide)

end NodeMini.Js2c
