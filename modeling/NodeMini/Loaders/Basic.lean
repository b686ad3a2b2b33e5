import NodeMini.Native.World

/-!
# The loader: `lib/bootstrap/loaders.js`

The loader owns two caches over one shared load list: `process.binding` caches what
`GetBinding` returned for each string, and `NativeModule.require` caches module objects
by id. The second cache and the source table are ordinary objects, so a lookup that finds
no own property falls through to `Object.prototype`.

JavaScript objects are identities. The module objects are kept in a heap, since the cache
and `compile` act on one object through two references. The fields `reflect`,
`exportKeys` and `script` of a module object, and `NativeModule.wrapper`, are never read
by the code that runs and are left out.

## Main definitions

* `SourceTable`, `NativeModule`, `Loader` — the state
* `bootstrapLoaders` — the loader's own evaluation
* `Loader.processBinding` — `process.binding`
* `Loader.require` — `NativeModule.require`, with `getCached`, `exists`, `cache`, `compile`
* `Loader.step` — one call of either kind, for runs that interleave them
-/

namespace NodeMini

open Lib

/-- `NativeModule._source`: a fresh object with own string-valued properties. A table with
an own `hasOwnProperty` would break `exists`, one with an own `__proto__` would make
`cache` set a prototype; neither can be built. -/
structure SourceTable where
  own : JsString → Option JsString
  noHasOwnProperty : own (js "hasOwnProperty") = none
  noProto : own (js "__proto__") = none

/-- The table of a fresh object, which is what `getBinding("natives")` returns today. -/
def SourceTable.empty : SourceTable where
  own := fun _ => none
  noHasOwnProperty := rfl
  noProto := rfl

/-- The module object the constructor `NativeModule` builds. -/
structure NativeModule where
  filename : JsString
  id : JsString
  exports : ObjectId
  loaded : Bool
  loading : Bool
  deriving DecidableEq, Repr

/-- The state captured by the loader's closures. -/
structure Loader where
  world : World
  moduleLoadList : List JsString
  /-- The own properties of `bindingObj`, which has no prototype. -/
  bindingObj : JsString → JsValue
  source : SourceTable
  /-- The module objects, by identity. -/
  modules : ObjectId → Option NativeModule
  /-- The own properties of `NativeModule._cache`. -/
  cache : JsString → Option ObjectId
  loaderExports : ObjectId

/-- The loader's evaluation: fresh caches, `_source` from a direct `getBinding("natives")`
call, and the exports object. The table's own properties are a parameter. -/
def bootstrapLoaders (fuel : ℕ) (w : World) (table : SourceTable) : Except Halt Loader := do
  let (_, w) ← w.getBinding fuel (js "natives")
  return {
    world := w.newObject.2
    moduleLoadList := []
    bindingObj := fun _ => .undefined
    source := table
    modules := fun _ => none
    cache := fun _ => none
    loaderExports := w.newObject.1 }

/-- The type of a value, as `typeof` names it. -/
def JsValue.typeof : JsValue → String
  | .undefined => "undefined"
  | .object _ => "object"

/-- The load-list entry of a binding. -/
def bindingEntry (module : JsString) : JsString := js "Binding " ++ module

/-- The load-list entry of a native module. -/
def nativeEntry (id : JsString) : JsString := js "NativeModule " ++ id

/-- An error object. -/
structure JsError where
  message : JsString
  code : JsString
  name : JsString
  deriving DecidableEq, Repr

/-- The error `NativeModule.require` throws. -/
def unknownBuiltinModule (id : JsString) : JsError where
  message := js "No such built-in module: " ++ id
  code := js "ERR_UNKNOWN_BUILTIN_MODULE"
  name := js "Error [ERR_UNKNOWN_BUILTIN_MODULE]"

/-- The id under which the loader's own exports are found. -/
def loaderId : JsString := js "bootstrap/loaders"

/-- The own property names of an unmodified `Object.prototype`. -/
def objectPrototype : List JsString :=
  ["constructor", "__defineGetter__", "__defineSetter__", "hasOwnProperty", "__lookupGetter__",
    "__lookupSetter__", "isPrototypeOf", "propertyIsEnumerable", "toString", "valueOf",
    "__proto__", "toLocaleString"].map js

/-- What reading a property of `_cache` gives. -/
inductive Cached
  | undefined
  /-- A value of `Object.prototype`: a function, or `Object.prototype` itself. -/
  | inherited (key : JsString)
  | module (m : ObjectId)
  deriving DecidableEq, Repr

namespace Loader

variable (fuel : ℕ) (L : Loader)

/-! ## `process.binding` -/

/-- `process.binding` once its argument is a string. -/
def binding (module : JsString) : Except Halt (JsValue × Loader) :=
  let mod := L.bindingObj module
  -- a name stored as `undefined` fails the test like one that was never stored
  if mod.typeof ≠ "object" then do
    let (mod, world) ← L.world.getBinding fuel module
    return (mod, { L with
      world := world
      bindingObj := Function.update L.bindingObj module mod
      moduleLoadList := L.moduleLoadList ++ [bindingEntry module] })
  else return (mod, L)

/-- `process.binding(x)`. The argument stands for what `String(x)` makes of it: a string,
or `none` when the conversion throws and the call with it. Calls a conversion makes itself
come before this one. -/
def processBinding : Option JsString → Except Halt (Option JsValue × Loader)
  | none => .ok (none, L)
  | some module => do
    let (mod, L) ← L.binding fuel module
    return (some mod, L)

/-! ## `NativeModule` -/

/-- `NativeModule.getCached`. -/
def getCached (id : JsString) : Cached :=
  match L.cache id with
  | some m => .module m
  | none => if id ∈ objectPrototype then .inherited id else .undefined

/-- `NativeModule.exists`. -/
def exists' (id : JsString) : Bool := (L.source.own id).isSome

/-- The `loaded` property of a cached value, read as a condition: the functions of
`Object.prototype`, and `Object.prototype` itself, have no such property. -/
def loaded : Cached → Bool
  | .module m => (L.modules m).any NativeModule.loaded
  | .inherited _ | .undefined => false

/-- The `loading` property of a cached value, read as a condition. -/
def loading : Cached → Bool
  | .module m => (L.modules m).any NativeModule.loading
  | .inherited _ | .undefined => false

/-- The `exports` property of a cached value. -/
def exportsOf : Cached → Option ObjectId
  | .module m => (L.modules m).map NativeModule.exports
  | .inherited _ | .undefined => none

/-- The constructor `NativeModule`: the new object and its `exports` object. -/
def newNativeModule (id : JsString) : ObjectId × Loader :=
  let (m, w) := L.world.newObject
  let (e, w) := w.newObject
  (m, { L with
    world := w
    modules := Function.update L.modules m (some {
      filename := id ++ js ".js"
      id := id
      exports := e
      loaded := false
      loading := false }) })

/-- Change a module object in place. -/
def modify (m : ObjectId) (f : NativeModule → NativeModule) : Loader :=
  { L with modules := Function.update L.modules m ((L.modules m).map f) }

/-- `NativeModule.prototype.cache`: store the object under its own id. -/
def cacheModule (m : ObjectId) : Loader :=
  match L.modules m with
  | none => L
  | some nm => { L with cache := Function.update L.cache nm.id (some m) }

/-- `NativeModule.prototype.compile`. The wrapped source is built and dropped. -/
def compile (m : ObjectId) : Loader :=
  ((L.modify m ({ · with loading := true })).modify m ({ · with loaded := true })).modify m
    ({ · with loading := false })

/-- `NativeModule.require`: the value returned or the error thrown. -/
def require (id : JsString) : Except JsError (Option ObjectId) × Loader :=
  if id = loaderId then (.ok (some L.loaderExports), L)
  else
    let cached := L.getCached id
    -- a cached value is an object or a function, so only `undefined` is falsy
    if cached ≠ .undefined ∧ (L.loaded cached ∨ L.loading cached) then
      (.ok (L.exportsOf cached), L)
    else if !L.exists' id then (.error (unknownBuiltinModule id), L)
    else
      let L := { L with moduleLoadList := L.moduleLoadList ++ [nativeEntry id] }
      -- the module is in the cache before it is compiled
      let (nativeModule, L) := L.newNativeModule id
      let L := L.cacheModule nativeModule
      let L := L.compile nativeModule
      (.ok (L.exportsOf (.module nativeModule)), L)

end Loader

/-! ## Interleaved calls -/

/-- A call into the loader. -/
inductive Call
  | require (id : JsString)
  | binding (x : Option JsString)
  deriving DecidableEq, Repr

/-- What a call came back with. -/
inductive Answer
  | required (r : Except JsError (Option ObjectId))
  | bound (v : Option JsValue)

/-- One call of either kind. -/
def Loader.step (fuel : ℕ) (L : Loader) : Call → Except Halt (Answer × Loader)
  | .require id => .ok (.required (L.require id).1, (L.require id).2)
  | .binding x => do
    let (v, L) ← L.processBinding fuel x
    return (.bound v, L)

end NodeMini
