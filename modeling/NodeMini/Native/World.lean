import NodeMini.Lib.Run
import NodeMini.Native.JsString
import NodeMini.Registry.Basic

/-!
# Native code: module lookup and `GetBinding`

The native half of a binding request. `FindModule` walks a module list and prints
whether it came to the end; `InitModule` hands a fresh exports object to the module's
`nm_context_register_func`; `GetBinding` combines them, with `"natives"` answered by a
plain object.

A native call may not return: a `CHECK` may abort the process, and the lookup loop has no
bound of its own. The loop is given a budget of iterations, and a call that has not
returned within it is reported as still running.

A module's register function is native code outside the registry; a run of it is recorded
and otherwise left abstract.

## Main definitions

* `World` — the registry, the output streams, and what native code has done so far
* `World.findModule`, `World.getBuiltinModule`, `World.initModule`, `World.getBinding`

## Main results

* `World.getBuiltinModule_cases`, `World.getBinding_cases` — what a call that returns did
-/

namespace NodeMini

open Lib

/-- The identity of a JavaScript object. -/
abbrev ObjectId := ℕ

/-- What `GetBinding` can return. An empty handle arrives as `undefined`. -/
inductive JsValue
  | undefined
  | object (o : ObjectId)
  deriving DecidableEq, Repr

/-- Why a native call has not returned. -/
inductive Halt
  /-- The condition of a `CHECK` was false: the process has aborted. -/
  | checkFailed
  /-- `new` has thrown `std::bad_alloc`: the process has aborted, as nothing catches it. -/
  | badAlloc
  /-- The budget of iterations is spent. -/
  | running
  deriving DecidableEq, Repr

/-- One run of a module's `nm_context_register_func`: the string `GetBinding` was called
with, the module, and the exports object handed over. -/
structure Init where
  requested : JsString
  module : Ptr
  exports : ObjectId
  deriving DecidableEq, Repr

/-- The process as native code sees it. -/
structure World where
  registry : Registry
  stdout : List UInt8
  stderr : List UInt8
  /-- How many objects have been allocated; the next object's identity. -/
  objects : ℕ
  /-- The strings `GetBinding` has been called with, in order. -/
  getBindingCalls : List JsString
  /-- The runs of register functions, in order. -/
  inits : List Init

/-- `CHECK(pass)`. -/
def check (pass : Bool) : Except Halt Unit := if pass then .ok () else .error .checkFailed

theorem check_eq_ok {pass : Bool} {u : Unit} : check pass = .ok u ↔ pass = true := by
  cases pass <;> simp [check]

namespace World

/-- A process whose native code has registered its modules and run nothing else. -/
def start (r : Registry) : World where
  registry := r
  stdout := []
  stderr := []
  objects := 0
  getBindingCalls := []
  inits := []

/-- Write to standard output. -/
def cout (w : World) (bytes : List UInt8) : World := { w with stdout := w.stdout ++ bytes }

/-- `Object::New`. -/
def newObject (w : World) : ObjectId × World := (w.objects, { w with objects := w.objects + 1 })

/-- `FindModule`, with the result it prints for every lookup. -/
def findModule (fuel : ℕ) (w : World) (list : Option Ptr) (name : CString) (flag : UInt32) :
    Except Halt (Option Ptr × World) :=
  match w.registry.findLoop fuel list name with
  | none => .error .running
  | some mp => do
    -- `cout << (mp == nullptr) << endl`
    let w := w.cout (utf8 (if mp.isNone then "1\n" else "0\n"))
    check (mp.all fun p => (w.registry.mem p).nmFlags &&& flag ≠ 0)
    return (mp, w)

/-- `get_builtin_module`. -/
def getBuiltinModule (fuel : ℕ) (w : World) (name : CString) : Except Halt (Option Ptr × World) :=
  w.findModule fuel w.registry.modlistBuiltin name nmFBuiltin

/-- `InitModule`, called for the request `requested`. -/
def initModule (w : World) (requested : JsString) (mod : Ptr) : Except Halt (ObjectId × World) := do
  let (exports, w) := w.newObject
  check (w.registry.mem mod).nmRegister.isNone
  check (w.registry.mem mod).nmContextRegisterFunc.isSome
  return (exports, { w with inits := w.inits ++ [⟨requested, mod, exports⟩] })

end World

/-- The C string `"natives"`. -/
def natives : CString := utf8Value (js "natives")

/-- The descriptor `XNODE_MODULE_CONTEXT_AWARE_CPP` defines. -/
def xnodeModuleContextAwareCpp (file modname : String) (regfunc : ℕ) (priv : Option ℕ)
    (flags : UInt32) : XnodeModule where
  nmVersion := 1
  nmFlags := flags
  nmDsoHandle := none
  nmFilename := CString.ofBuffer (utf8 file)
  nmRegister := none
  nmContextRegisterFunc := some regfunc
  nmModname := CString.ofBuffer (utf8 modname)
  nmPriv := priv
  nmLink := none

/-- `XNODE_BUILTIN_MODULE_CONTEXT_AWARE`. -/
def xnodeBuiltinModuleContextAware (file modname : String) (regfunc : ℕ) : XnodeModule :=
  xnodeModuleContextAwareCpp file modname regfunc none nmFBuiltin

/-- The one builtin module of the program, with its `Initialize` function at address `1`. -/
def contextifyModule : XnodeModule :=
  xnodeBuiltinModuleContextAware "./src/xnode_contextify.cc" "contextify" 1

/-- `RegisterBuiltinModules`, on the zero-initialised statics. The static descriptor of
`contextify` is at address `0`. -/
def registerBuiltinModules : Registry :=
  (Registry.empty fun _ => contextifyModule).registerAll [0]

namespace World

/-- The block of `GetBinding` for a module that was found: its name is printed and it is
initialised. Without a module the handle stays empty. -/
def initExports (w : World) (module : JsString) : Option Ptr → Except Halt (JsValue × World)
  | none => .ok (.undefined, w)
  | some mod => do
    let (exports, w) ← (w.cout ((utf8Value module).bytes ++ utf8 "\n")).initModule module mod
    return (.object exports, w)

/-- Note that `GetBinding` has been called. -/
def recordCall (w : World) (module : JsString) : World :=
  { w with getBindingCalls := w.getBindingCalls ++ [module] }

/-- `GetBinding`. -/
def getBinding (fuel : ℕ) (w : World) (module : JsString) : Except Halt (JsValue × World) := do
  let w := w.recordCall module
  let (mod, w) ← w.getBuiltinModule fuel (utf8Value module)
  let (exports, w) ← w.initExports module mod
  -- a module registered as "natives" has been initialised, but its exports are replaced
  return if CString.strcmp (utf8Value module) natives = 0 then
    (.object w.newObject.1, w.newObject.2)
  else (exports, w)

variable {fuel : ℕ} {w w' : World} {name : CString} {mod : Option Ptr} {s : JsString} {v : JsValue}

/-- What a lookup that returns did. -/
theorem getBuiltinModule_cases (h : w.getBuiltinModule fuel name = .ok (mod, w')) :
    w.registry.findBuiltin fuel name = some mod ∧
      w' = w.cout (utf8 (if mod.isNone then "1\n" else "0\n")) := by
  unfold getBuiltinModule findModule at h
  split at h
  · cases h
  · next found hfound =>
    obtain ⟨⟨⟩, -, h⟩ := except_bind_eq_ok.mp h
    obtain ⟨rfl, rfl⟩ := Prod.mk.inj (Except.ok.inj h)
    exact ⟨hfound, rfl⟩

theorem initModule_cases {p : Ptr} {o : ObjectId} (h : w.initModule s p = .ok (o, w')) :
    o = w.objects ∧
      w' = { w with objects := w.objects + 1, inits := w.inits ++ [⟨s, p, w.objects⟩] } := by
  obtain ⟨⟨⟩, -, h⟩ := except_bind_eq_ok.mp h
  obtain ⟨⟨⟩, -, h⟩ := except_bind_eq_ok.mp h
  obtain ⟨rfl, rfl⟩ := Prod.mk.inj (Except.ok.inj h)
  exact ⟨rfl, rfl⟩

theorem initExports_cases (h : w.initExports s mod = .ok (v, w')) :
    w'.registry = w.registry ∧ w'.getBindingCalls = w.getBindingCalls ∧
      w'.inits = w.inits ++ mod.toList.map (fun p => ⟨s, p, w.objects⟩) ∧
      w'.objects = w.objects + mod.toList.length ∧
      w'.stdout = w.stdout ++ (if mod.isSome then (utf8Value s).bytes ++ utf8 "\n" else []) ∧
      w'.stderr = w.stderr ∧
      v = (if mod.isSome then .object w.objects else .undefined) := by
  cases mod with
  | none =>
    obtain ⟨rfl, rfl⟩ := Prod.mk.inj (Except.ok.inj h)
    simp
  | some p =>
    obtain ⟨⟨o, w₁⟩, hinit, h⟩ := except_bind_eq_ok.mp h
    obtain ⟨rfl, rfl⟩ := initModule_cases hinit
    obtain ⟨rfl, rfl⟩ := Prod.mk.inj (Except.ok.inj h)
    simp [cout]

/-- What a lookup for `s` prints. -/
def lookupOutput (s : JsString) (mod : Option Ptr) : List UInt8 :=
  if mod.isSome then utf8 "0\n" ++ (utf8Value s).bytes ++ utf8 "\n" else utf8 "1\n"

/-- What a `GetBinding` call that returns did: the lookup ended and its result was printed,
the call was recorded, a found module's register function was run on a fresh object, and
the answer is that object, a further fresh one for `"natives"`, or `undefined`. -/
theorem getBinding_cases (h : w.getBinding fuel s = .ok (v, w')) :
    ∃ mod, w.registry.findBuiltin fuel (utf8Value s) = some mod ∧
      w'.registry = w.registry ∧
      w'.getBindingCalls = w.getBindingCalls ++ [s] ∧
      w'.inits = w.inits ++ mod.toList.map (fun p => ⟨s, p, w.objects⟩) ∧
      w'.stdout = w.stdout ++ lookupOutput s mod ∧
      w'.stderr = w.stderr ∧
      if utf8Value s = natives then
        v = .object (w.objects + mod.toList.length) ∧
          w'.objects = w.objects + mod.toList.length + 1
      else
        v = (if mod.isSome then .object w.objects else .undefined) ∧
          w'.objects = w.objects + mod.toList.length := by
  obtain ⟨⟨mod, w₁⟩, hlookup, h⟩ := except_bind_eq_ok.mp h
  obtain ⟨hfound, rfl⟩ := getBuiltinModule_cases hlookup
  obtain ⟨⟨exports, w₂⟩, hexports, h⟩ := except_bind_eq_ok.mp h
  refine ⟨mod, hfound, ?_⟩
  have hanswer := Except.ok.inj h
  -- the test of `strcmp` is equality of C strings
  simp only [CString.strcmp_eq_zero_iff] at hanswer
  obtain ⟨hreg, hcalls, hinits, hobjects, hout, herr, hvalue⟩ := initExports_cases hexports
  have hprinted : w₂.stdout = w.stdout ++ lookupOutput s mod := by
    rw [hout]
    cases mod <;> simp [cout, recordCall, lookupOutput]
  by_cases hnatives : utf8Value s = natives
  · -- one more object is allocated, and answered
    rw [if_pos hnatives] at hanswer
    obtain ⟨rfl, rfl⟩ := Prod.mk.inj hanswer
    exact ⟨hreg, hcalls, hinits, hprinted, herr,
      by simp [hnatives, newObject, hobjects, cout, recordCall]⟩
  · rw [if_neg hnatives] at hanswer
    obtain ⟨rfl, rfl⟩ := Prod.mk.inj hanswer
    exact ⟨hreg, hcalls, hinits, hprinted, herr,
      by simp [hnatives, hobjects, hvalue, cout, recordCall]⟩

end World

end NodeMini
