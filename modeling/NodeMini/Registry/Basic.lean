import Mathlib.Logic.Function.Basic
import NodeMini.Lib.Chain
import NodeMini.Lib.CString

/-!
# The module registry

`xnode_module` descriptors are caller-owned structs. Registration threads them, through
their own `nm_link` field, into one of three singly linked lists headed by the static
variables `modlist_builtin`, `modlist_internal` and `modlist_linked`.

The heap maps an address to the descriptor stored there. A null pointer is `none`.

## Main definitions

* `XnodeModule`, `Registry` — a descriptor; the heap with the list heads
* `Registry.xnodeModuleRegister` — registration of the descriptor at an address
* `ModuleKind` — which of the three lists a flag word selects
* `Registry.findBuiltin` — the lookup loop over `modlist_builtin`
-/

namespace NodeMini

open Lib

/-- The address of a descriptor. -/
abbrev Ptr := ℕ

/-- `NM_F_BUILTIN = 1 << 0`. -/
def nmFBuiltin : UInt32 := 0x1

/-- `NM_F_LINKED = 1 << 1`. -/
def nmFLinked : UInt32 := 0x2

/-- `NM_F_INTERNAL = 1 << 2`. -/
def nmFInternal : UInt32 := 0x4

/-- `struct xnode_module`. Function and data pointers are addresses, `none` for null. -/
structure XnodeModule where
  nmVersion : ℤ
  nmFlags : UInt32
  nmDsoHandle : Option ℕ
  nmFilename : CString
  nmRegister : Option ℕ
  nmContextRegisterFunc : Option ℕ
  nmModname : CString
  nmPriv : Option ℕ
  nmLink : Option Ptr
  deriving DecidableEq, Repr

/-- The descriptors and the static list heads of `xnode.cc`. -/
structure Registry where
  mem : Ptr → XnodeModule
  modlistBuiltin : Option Ptr
  modlistInternal : Option Ptr
  modlistLinked : Option Ptr
  nodeIsInitialized : Bool

/-- The list a descriptor's flag word selects. -/
inductive ModuleKind
  | builtin
  | internal
  | linked
  deriving DecidableEq, Repr

/-- The order in which registration tests the flag bits. -/
def moduleKind (flags : UInt32) : ModuleKind :=
  if flags &&& nmFBuiltin ≠ 0 then .builtin
  else if flags &&& nmFInternal ≠ 0 then .internal
  else .linked

theorem moduleKind_eq_builtin_iff {flags : UInt32} :
    moduleKind flags = .builtin ↔ flags &&& nmFBuiltin ≠ 0 := by
  unfold moduleKind
  split_ifs <;> simp_all

namespace Registry

/-- Zero-initialised statics over arbitrary descriptors. -/
def empty (mem : Ptr → XnodeModule) : Registry where
  mem := mem
  modlistBuiltin := none
  modlistInternal := none
  modlistLinked := none
  nodeIsInitialized := false

/-- The `nm_link` field as a link function. -/
def link (r : Registry) (p : Ptr) : Option Ptr := (r.mem p).nmLink

/-- The head of each list. -/
def head (r : Registry) : ModuleKind → Option Ptr
  | .builtin => r.modlistBuiltin
  | .internal => r.modlistInternal
  | .linked => r.modlistLinked

/-- `xnode_module_register`. -/
def xnodeModuleRegister (r : Registry) (mp : Ptr) : Registry :=
  let m := r.mem mp
  if m.nmFlags &&& nmFBuiltin ≠ 0 then
    { r with
      mem := Function.update r.mem mp { m with nmLink := r.modlistBuiltin }
      modlistBuiltin := some mp }
  else if m.nmFlags &&& nmFInternal ≠ 0 then
    { r with
      mem := Function.update r.mem mp { m with nmLink := r.modlistInternal }
      modlistInternal := some mp }
  -- the flag word is overwritten only here, for a module linked before the start
  else if !r.nodeIsInitialized then
    { r with
      mem := Function.update r.mem mp { m with nmFlags := nmFLinked, nmLink := r.modlistLinked }
      modlistLinked := some mp }
  else r

/-- A sequence of registrations. -/
def registerAll (r : Registry) (ds : List Ptr) : Registry := ds.foldl xnodeModuleRegister r

theorem registerAll_concat (r : Registry) (ds : List Ptr) (p : Ptr) :
    r.registerAll (ds ++ [p]) = (r.registerAll ds).xnodeModuleRegister p := by
  simp [registerAll]

/-- The loop of `FindModule` over a list, for at most `fuel` iterations. -/
def findLoop (r : Registry) (fuel : ℕ) (list : Option Ptr) (name : CString) :
    Option (Option Ptr) :=
  Chain.search r.link (fun mp => CString.strcmp (r.mem mp).nmModname name = 0) fuel list

/-- The same loop over `modlist_builtin`. -/
def findBuiltin (r : Registry) (fuel : ℕ) (name : CString) : Option (Option Ptr) :=
  r.findLoop fuel r.modlistBuiltin name

theorem findBuiltin_unique {r : Registry} {fuel fuel' : ℕ} {name : CString}
    {found found' : Option Ptr} (h : r.findBuiltin fuel name = some found)
    (h' : r.findBuiltin fuel' name = some found') : found = found' :=
  Chain.search_unique h h'

/-- What a lookup finds has the name it was asked for. -/
theorem nmModname_of_findBuiltin {r : Registry} {fuel : ℕ} {name : CString} {mp : Ptr}
    (h : r.findBuiltin fuel name = some (some mp)) : (r.mem mp).nmModname = name := by
  simpa using Chain.test_of_search h

end Registry

end NodeMini
