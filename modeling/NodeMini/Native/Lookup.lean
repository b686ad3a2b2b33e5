import NodeMini.Native.World
import NodeMini.Registry.Shape

/-!
# Looking up a builtin module

On a registry of the shape that registration produces, `get_builtin_module` returns for
every name: its loop ends, its `CHECK` holds because registration leaves a builtin
module's flags alone, and the answer is the most recently registered builtin module of
that name.

## Main definitions

* `mostRecentBuiltin` — the specification of a lookup
* `XnodeModule.ContextAware` — the descriptors `InitModule` accepts

## Main results

* `World.getBuiltinModule_of_shape` — a lookup on a registry of the right shape
* `World.getBinding_of_shape` — a binding request on such a registry returns
* `registry_wellFormed` — everything that holds after a sequence of registrations
-/

namespace NodeMini

open Lib

/-- The most recently registered descriptor with `NM_F_BUILTIN` and the given name. -/
def mostRecentBuiltin (mem : Ptr → XnodeModule) (ds : List Ptr) (name : CString) : Option Ptr :=
  ds.reverse.find? fun p => (mem p).nmFlags &&& nmFBuiltin ≠ 0 ∧ (mem p).nmModname = name

section

variable {mem : Ptr → XnodeModule} {ds : List Ptr} {name : CString} {p : Ptr}

theorem find?_registered_builtin :
    (registered mem ds .builtin).find? (fun p => (mem p).nmModname = name) =
      mostRecentBuiltin mem ds name := by
  rw [registered, ← List.filter_reverse, List.find?_filter, mostRecentBuiltin]
  simp only [moduleKind_eq_builtin_iff, Bool.decide_and, decide_eq_true_eq]

theorem mostRecentBuiltin_eq_none_iff :
    mostRecentBuiltin mem ds name = none ↔
      ∀ p ∈ ds, (mem p).nmFlags &&& nmFBuiltin ≠ 0 → (mem p).nmModname ≠ name := by
  simp [mostRecentBuiltin]

theorem mem_of_mostRecentBuiltin (h : mostRecentBuiltin mem ds name = some p) :
    p ∈ ds ∧ (mem p).nmFlags &&& nmFBuiltin ≠ 0 ∧ (mem p).nmModname = name := by
  refine ⟨List.mem_reverse.mp (List.mem_of_find?_eq_some h), ?_⟩
  simpa using List.find?_some h

/-- A registered builtin module still carries the flag the lookup checks. -/
theorem Registry.Shape.nmFlags_of_builtin {r : Registry} (h : r.Shape mem ds) (hp : p ∈ ds)
    (hflag : (mem p).nmFlags &&& nmFBuiltin ≠ 0) : (r.mem p).nmFlags &&& nmFBuiltin ≠ 0 := by
  have hkind := moduleKind_eq_builtin_iff.mpr hflag
  rw [h.kept p hp]
  simpa [registeredFlags, hkind] using hflag

/-- A lookup whose loop ends at a builtin module, or at none, returns. -/
theorem World.getBuiltinModule_of_findBuiltin {w : World} {fuel : ℕ} {mod : Option Ptr}
    (hloop : w.registry.findBuiltin fuel name = some mod)
    (hflags : ∀ p, mod = some p → (w.registry.mem p).nmFlags &&& nmFBuiltin ≠ 0) :
    w.getBuiltinModule fuel name =
      .ok (mod, w.cout (utf8 (if mod.isNone then "1\n" else "0\n"))) := by
  have hcheck : mod.all (fun p => (w.registry.mem p).nmFlags &&& nmFBuiltin ≠ 0) := by
    cases mod with
    | none => rfl
    | some p => simpa using hflags p rfl
  unfold getBuiltinModule findModule
  rw [show w.registry.findLoop fuel w.registry.modlistBuiltin name = _ from hloop]
  exact except_bind_eq_ok.mpr ⟨(), check_eq_ok.mpr hcheck, rfl⟩

/-- A lookup returns, having printed whether it found nothing. -/
theorem World.getBuiltinModule_of_shape {w : World} (h : w.registry.Shape mem ds) {fuel : ℕ}
    (hfuel : ds.length ≤ fuel) :
    w.getBuiltinModule fuel name =
      .ok (mostRecentBuiltin mem ds name,
        w.cout (utf8 (if (mostRecentBuiltin mem ds name).isNone then "1\n" else "0\n"))) := by
  have hloop := h.findBuiltin_eq name hfuel
  rw [find?_registered_builtin] at hloop
  -- the `CHECK` of the lookup: registration left the flags of a builtin module alone
  refine getBuiltinModule_of_findBuiltin hloop fun p hp => ?_
  obtain ⟨hmem, hflag, -⟩ := mem_of_mostRecentBuiltin hp
  exact h.nmFlags_of_builtin hmem hflag

/-- What `InitModule` checks of a descriptor: it has a context-aware register function
and no other. -/
def XnodeModule.ContextAware (m : XnodeModule) : Prop :=
  m.nmRegister = none ∧ m.nmContextRegisterFunc.isSome

theorem Registry.Shape.contextAware {r : Registry} (h : r.Shape mem ds) (hp : p ∈ ds)
    (haware : (mem p).ContextAware) : (r.mem p).ContextAware := by
  rw [XnodeModule.ContextAware, h.kept p hp]
  exact haware

theorem World.initExports_returns {w : World} {s : JsString} {mod : Option Ptr}
    (h : ∀ p, mod = some p → (w.registry.mem p).ContextAware) :
    ∃ v w', w.initExports s mod = .ok (v, w') := by
  cases mod with
  | none => exact ⟨_, _, rfl⟩
  | some p =>
    obtain ⟨hnull, hfunc⟩ := h p rfl
    have hregister : check (w.registry.mem p).nmRegister.isNone = .ok () := by simp [check, hnull]
    have hcontext : check (w.registry.mem p).nmContextRegisterFunc.isSome = .ok () := by
      simp [check, hfunc]
    exact ⟨_, _, except_bind_eq_ok.mpr ⟨_, except_bind_eq_ok.mpr ⟨_, hregister,
      except_bind_eq_ok.mpr ⟨_, hcontext, rfl⟩⟩, rfl⟩⟩

/-- With context-aware descriptors, `GetBinding` returns. -/
theorem World.getBinding_of_shape {w : World} (h : w.registry.Shape mem ds)
    (hds : ∀ p ∈ ds, (mem p).ContextAware) {fuel : ℕ} (hfuel : ds.length ≤ fuel) (s : JsString) :
    ∃ v w', w.getBinding fuel s = .ok (v, w') := by
  -- neither the record of the call nor the printed result touches the registry
  have hshape : (w.recordCall s).registry.Shape mem ds := h
  have hlookup : (w.recordCall s).getBuiltinModule fuel (utf8Value s) = _ :=
    getBuiltinModule_of_shape hshape hfuel
  obtain ⟨exports, w₂, hexports⟩ := initExports_returns (s := s)
    (w := (w.recordCall s).cout
      (utf8 (if (mostRecentBuiltin mem ds (utf8Value s)).isNone then "1\n" else "0\n")))
    fun p hp => h.contextAware (mem_of_mostRecentBuiltin hp).1
      (hds p (mem_of_mostRecentBuiltin hp).1)
  have hcall : ∃ u, w.getBinding fuel s = .ok u :=
    ⟨_, except_bind_eq_ok.mpr ⟨_, hlookup, except_bind_eq_ok.mpr ⟨_, hexports, rfl⟩⟩⟩
  obtain ⟨⟨v, w'⟩, hcall⟩ := hcall
  exact ⟨v, w', hcall⟩

end

/-- **The module registry after any sequence of registrations.** Starting from empty
lists, after registering pairwise distinct descriptors in order: each list is a chain
without repetition that ends in a null pointer and holds exactly the descriptors of its
kind; each registered descriptor lies in exactly one list; it keeps every field but its
link, and its flags when it is linked; no other memory changes; and every lookup returns,
with the most recently registered builtin module of that name. -/
theorem registry_wellFormed (mem : Ptr → XnodeModule) (ds : List Ptr) (hds : ds.Nodup) :
    let r := (Registry.empty mem).registerAll ds
    (∀ k, Chain r.link (r.head k) (registered mem ds k) ∧ (registered mem ds k).Nodup ∧
      ∀ p, p ∈ registered mem ds k ↔ p ∈ ds ∧ moduleKind (mem p).nmFlags = k) ∧
    (∀ p ∈ ds, ∃! k, p ∈ registered mem ds k) ∧
    (∀ p ∈ ds, r.mem p =
      { mem p with
        nmFlags := if moduleKind (mem p).nmFlags = .linked then nmFLinked else (mem p).nmFlags
        nmLink := (r.mem p).nmLink }) ∧
    (∀ p ∉ ds, r.mem p = mem p) ∧
    ∀ w : World, w.registry = r → ∀ name : CString,
      (∃ w', ∀ fuel ≥ ds.length,
        w.getBuiltinModule fuel name = .ok (mostRecentBuiltin mem ds name, w')) ∧
      (mostRecentBuiltin mem ds name = none ↔
        ∀ p ∈ ds, (mem p).nmFlags &&& nmFBuiltin ≠ 0 → (mem p).nmModname ≠ name) := by
  intro r
  have hshape : r.Shape mem ds := Registry.shape_registerAll hds
  refine ⟨fun k => ⟨hshape.chain k, (hshape.chain k).nodup, fun p => mem_registered⟩,
    fun p hp => existsUnique_registered hp, hshape.kept, hshape.untouched, ?_⟩
  rintro w hw name
  rw [← hw] at hshape
  exact ⟨⟨_, fun fuel hfuel => World.getBuiltinModule_of_shape hshape hfuel⟩,
    mostRecentBuiltin_eq_none_iff⟩

theorem registry_wellFormed_contextify :
    ∃! k, 0 ∈ registered (fun _ => contextifyModule) [0, 1] k :=
  (registry_wellFormed (fun _ => contextifyModule) [0, 1] (by decide)).2.1 0 (by decide)

end NodeMini
