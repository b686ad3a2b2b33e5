import Mathlib
import NodeMini.Lib.Recursion
import NodeMini.Lib.Replace

/-!
# Constants and macros of `js2c.py`

`ExpandConstants` and `ExpandMacros` put constants and macros into a source text. A string
is a list of characters, a dictionary is a list of entries, and a table is what `items()`
of a dictionary returns, in the order of the iteration.

`ExpandMacros` calls itself, through `expander`, on each argument of an invocation. One
level of it is a computation that may ask for such an expansion; the recursion is that of
`Lib.Proc`. The scan-and-replace loop over one macro has a budget of iterations.

## Main definitions

* `TextMacro`, `PythonMacro`, `Macro` — the macro classes, and what `ExpandMacros` uses of them
* `search`, `addArg`, `scan`, `expandPass` — the parts of the loop over one macro
* `expandTable`, `expandMacros`, `expandConstants` — the loops over a table
* `Invocation`, `met` — the invocations that are met, for statements about a run
-/

namespace NodeMini.Js2c

open Lib

/-- A Python string. -/
abbrev Str := List Char

/-- White space, for `str.strip` and for the pattern `\s`. -/
def isSpace (c : Char) : Bool := c ∈ [' ', '\t', '\n', '\x0b', '\x0c', '\r']

/-- `str.strip()`. -/
def strip (s : Str) : Str := ((s.dropWhile isSpace).reverse.dropWhile isSpace).reverse

/-- A character of `[a-zA-Z0-9_]`, for the pattern `\b`. -/
def isWord (c : Char) : Bool := c.isAlphanum || c = '_'

/-- `s[i:j]`. -/
def slice (s : Str) (i j : ℕ) : Str := (s.take j).drop i

/-- A dictionary: its entries, in the order in which the keys were set first. -/
abbrev Dict (V : Type) := List (Str × V)

/-- `d[k] = v`. -/
def Dict.set {V : Type} (d : Dict V) (k : Str) (v : V) : Dict V :=
  if k ∈ d.map Prod.fst then d.map fun e => if e.1 = k then (k, v) else e else d ++ [(k, v)]

/-- The order in which a dictionary is iterated, which Python 2 leaves open. -/
structure DictOrder where
  items : Dict Str → List (Str × Str)
  perm : ∀ d, (items d).Perm d

/-- An exception. -/
inductive MacroError
  /-- `Exception('line %s: Too few arguments for macro "%s"')` -/
  | tooFewArguments (lineno : ℕ) (name : Str)
  /-- `Exception("Illegal line: " + line)` -/
  | illegalLine (line : Str)
  /-- A `KeyError` for a missing key. -/
  | keyError (key : Str)
  /-- What the function of a Python macro, or `eval` of its text, raises. -/
  | raised (exception : Str)
  deriving DecidableEq, Repr

/-- What `ExpandMacros` uses of a macro: `args` and `expand`. -/
structure Macro where
  args : List Str
  expand : Dict Str → Except MacroError Str

/-- `class TextMacro`. -/
structure TextMacro where
  args : List Str
  body : Str
  deriving DecidableEq, Repr

/-- `TextMacro.expand`, over the entries of the mapping in the order of the iteration. -/
def TextMacro.expandItems (m : TextMacro) (items : List (Str × Str)) : Str :=
  items.foldl (fun result (key, value) => replaceAll key value result) m.body

/-- A text macro in a table. -/
def TextMacro.toMacro (m : TextMacro) (order : DictOrder) : Macro where
  args := m.args
  expand mapping := .ok (m.expandItems (order.items mapping))

/-- `class PythonMacro`. -/
structure PythonMacro where
  args : List Str
  func : List Str → Except MacroError Str

/-- `PythonMacro.expand`. -/
def PythonMacro.expand (m : PythonMacro) (mapping : Dict Str) : Except MacroError Str := do
  let args ← m.args.mapM fun arg =>
    match mapping.lookup arg with
    | some value => .ok value
    | none => .error (.keyError arg)
  m.func args

/-- A Python macro in a table. -/
def PythonMacro.toMacro (m : PythonMacro) : Macro where
  args := m.args
  expand := m.expand

/-! ## The loop over one macro -/

/-- An invocation that is met: the name and the parameters of the macro, and the text from
the invocation on. -/
structure Invocation where
  name : Str
  params : List Str
  text : Str
  deriving DecidableEq, Repr

/-- One level of `ExpandMacros`: a computation that may ask `expander`. -/
abbrev Expansion := Proc Str Str MacroError Invocation

/-- The first match of `\bname\(`, for a name of word characters, in a text that begins at
position `i`, behind a word character or not. -/
def searchFrom (name : Str) : Bool → ℕ → Str → Option ℕ
  | _, _, [] => none
  | behindWord, i, c :: s =>
    if behindWord = false ∧ name ++ ['('] <+: c :: s then some i
    else searchFrom name (isWord c) (i + 1) s

/-- `name_pattern.search(lines, pos)`. The pattern looks back behind `pos`. -/
def search (name lines : Str) (pos : ℕ) : Option ℕ :=
  searchFrom name ((lines.take pos).getLast?.any isWord) pos (lines.drop pos)

/-- `arg_index[0]` and `mapping`. -/
structure ArgState where
  argIndex : ℕ
  mapping : Dict Str

/-- `add_arg`. -/
def addArg (macroArgs : List Str) (st : ArgState) (str : Str) : Expansion ArgState :=
  if h : st.argIndex < macroArgs.length then do
    let replacement ← Proc.ask (strip str)
    return ⟨st.argIndex + 1, st.mapping.set macroArgs[st.argIndex] replacement⟩
  else return st

/-- `['(', '{', '[']`. -/
def isOpening (c : Char) : Bool := c ∈ ['(', '{', '[']

/-- `[')', '}', ']']`. -/
def isClosing (c : Char) : Bool := c ∈ [')', '}', ']']

/-- `while end < len(lines) and height > 0`, where `rest` is `lines[end:]`. -/
def scan (macroArgs : List Str) (lines : Str) :
    (rest : Str) → (height fin lastMatch : ℕ) → ArgState → Expansion (ℕ × ℕ × ArgState)
  | [], _, fin, lastMatch, st => return (fin, lastMatch, st)
  | _ :: _, 0, fin, lastMatch, st => return (fin, lastMatch, st)
  | c :: rest, height + 1, fin, lastMatch, st =>
    if c = ',' ∧ height = 0 then do
      let st ← addArg macroArgs st (slice lines lastMatch fin)
      scan macroArgs lines rest (height + 1) (fin + 1) (fin + 1) st
    else if isOpening c then scan macroArgs lines rest (height + 2) (fin + 1) lastMatch st
    else if isClosing c then scan macroArgs lines rest height (fin + 1) lastMatch st
    else scan macroArgs lines rest (height + 1) (fin + 1) lastMatch st

/-- The result of `macro.expand(mapping)`, or its exception. -/
def callExpand (m : Macro) (mapping : Dict Str) : Expansion Str :=
  match m.expand mapping with
  | .ok result => return result
  | .error e => .fail e

/-- The loop over the matches of one macro, from position `pos` on, for at most `fuel`
iterations. -/
def expandPass (name : Str) (m : Macro) : ℕ → Str → ℕ → Expansion Str
  | 0, _, _ => .running
  | fuel + 1, lines, pos =>
    match search name lines pos with
    | none => return lines
    | some start => do
      Proc.tell ⟨name, m.args, lines.drop start⟩
      let fin := start + name.length + 1
      let (fin, lastMatch, st) ← scan m.args lines (lines.drop fin) 1 fin fin ⟨0, []⟩
      let st ← addArg m.args st (slice lines lastMatch (fin - 1))
      if st.argIndex + 1 < m.args.length then
        -- `os.linesep` is a newline
        Proc.fail (.tooFewArguments ((lines.take start).count '\n' + 1) name)
      else do
        let result ← callExpand m st.mapping
        expandPass name m fuel (lines.take start ++ result ++ lines.drop fin)
          (start + result.length)

/-! ## The loops over a table -/

/-- One level of `ExpandMacros`. Each iteration of the loop over one macro begins further
to the right in the text, which is as long as the text at most. -/
def expandTable (macros : List (Str × Macro)) (lines : Str) : Expansion Str :=
  macros.foldlM (fun lines (name, m) => expandPass name m (lines.length + 1) lines 0) lines

/-- `ExpandMacros`, with a budget for the depth of the recursion. -/
def expandMacros (macros : List (Str × Macro)) : ℕ → Str → Except (Stop MacroError) Str :=
  Proc.exec (expandTable macros)

/-- The invocations that `ExpandMacros` meets, on all levels of the recursion. -/
def met (macros : List (Str × Macro)) : ℕ → Str → List Invocation :=
  Proc.events (expandTable macros)

/-- `ExpandConstants`. -/
def expandConstants (lines : Str) (constants : List (Str × Str)) : Str :=
  constants.foldl (fun lines (key, value) => replaceAll key value lines) lines

end NodeMini.Js2c
