import Mathlib.Data.List.Induction
import Mathlib.Data.List.Nodup
import NodeMini.Registry.Basic

/-!
# The shape of the registry

The abstract registry is three stacks of descriptors, one for each kind, most recent
first. The heap represents it when each list head spells out its stack. Registering a
new descriptor pushes it on the stack its flags select and disturbs nothing else, so
after any sequence of registrations of distinct descriptors the heap is determined up to
the `nm_link` fields.

## Main definitions

* `registered` — the abstract stacks after a sequence of registrations
* `Registry.Shape` — the heap represents the stacks, over the original descriptors

## Main results

* `Registry.Shape.register` — one registration keeps the shape
* `Registry.shape_registerAll` — so does every sequence of distinct registrations
* `Registry.Shape.findBuiltin_eq` — the lookup loop on a registry of this shape
-/

namespace NodeMini

open Lib

/-- The flag word after registration: overwritten for a linked module. -/
def registeredFlags (flags : UInt32) : UInt32 :=
  if moduleKind flags = .linked then nmFLinked else flags

/-- The stack of kind `k` after registering `ds` in order, most recent first. -/
def registered (mem : Ptr → XnodeModule) (ds : List Ptr) (k : ModuleKind) : List Ptr :=
  (ds.filter fun p => moduleKind (mem p).nmFlags = k).reverse

section Stacks

variable {mem : Ptr → XnodeModule} {ds : List Ptr} {p : Ptr} {k k' : ModuleKind}

theorem mem_registered : p ∈ registered mem ds k ↔ p ∈ ds ∧ moduleKind (mem p).nmFlags = k := by
  simp [registered]

theorem registered_concat :
    registered mem (ds ++ [p]) k =
      if moduleKind (mem p).nmFlags = k then p :: registered mem ds k
      else registered mem ds k := by
  by_cases h : moduleKind (mem p).nmFlags = k <;> simp [registered, h]

/-- The stacks partition the registered descriptors. -/
theorem existsUnique_registered (hp : p ∈ ds) : ∃! k, p ∈ registered mem ds k :=
  ⟨moduleKind (mem p).nmFlags, mem_registered.mpr ⟨hp, rfl⟩,
    fun _ h => (mem_registered.mp h).2.symm⟩

theorem length_registered_le : (registered mem ds k).length ≤ ds.length := by
  rw [registered, List.length_reverse]
  exact List.length_filter_le _ _

end Stacks

namespace Registry

variable {r : Registry} {mem : Ptr → XnodeModule} {ds : List Ptr} {p : Ptr}

/-! ## What one registration does -/

theorem register_mem (h : r.nodeIsInitialized = false) :
    (r.xnodeModuleRegister p).mem = Function.update r.mem p
      { r.mem p with
        nmFlags := registeredFlags (r.mem p).nmFlags
        nmLink := r.head (moduleKind (r.mem p).nmFlags) } := by
  unfold xnodeModuleRegister registeredFlags moduleKind
  dsimp only
  split_ifs <;> simp_all [head]

theorem register_link (h : r.nodeIsInitialized = false) :
    (r.xnodeModuleRegister p).link =
      Function.update r.link p (r.head (moduleKind (r.mem p).nmFlags)) := by
  funext q
  by_cases hq : q = p
  · subst hq
    simp [link, register_mem h]
  · simp [link, register_mem h, hq]

theorem register_head (h : r.nodeIsInitialized = false) (k : ModuleKind) :
    (r.xnodeModuleRegister p).head k =
      if moduleKind (r.mem p).nmFlags = k then some p else r.head k := by
  unfold xnodeModuleRegister moduleKind
  dsimp only
  split_ifs <;> cases k <;> simp_all [head]

theorem register_nodeIsInitialized :
    (r.xnodeModuleRegister p).nodeIsInitialized = r.nodeIsInitialized := by
  unfold xnodeModuleRegister
  dsimp only
  split_ifs <;> rfl

/-! ## The invariant -/

/-- The heap represents the stacks of `ds`, over the original descriptors `mem`. -/
structure Shape (mem : Ptr → XnodeModule) (ds : List Ptr) (r : Registry) : Prop where
  /-- Each head spells out its stack. -/
  chain : ∀ k, Chain r.link (r.head k) (registered mem ds k)
  /-- A registered descriptor keeps every field but its link, and its flags if linked. -/
  kept : ∀ p ∈ ds, r.mem p =
    { mem p with nmFlags := registeredFlags (mem p).nmFlags, nmLink := (r.mem p).nmLink }
  /-- No other descriptor is touched. -/
  untouched : ∀ p ∉ ds, r.mem p = mem p
  /-- Nothing sets `node_is_initialized`. -/
  notInitialized : r.nodeIsInitialized = false

theorem shape_empty : Shape mem [] (empty mem) where
  chain k := by cases k <;> rfl
  kept p hp := absurd hp (by simp)
  untouched _ _ := rfl
  notInitialized := rfl

/-- Registering a new descriptor pushes it on the stack its flags select. -/
theorem Shape.register (h : Shape mem ds r) (hp : p ∉ ds) :
    Shape mem (ds ++ [p]) (r.xnodeModuleRegister p) := by
  have hmem := register_mem (p := p) h.notInitialized
  -- a new descriptor is still as its owner made it
  have hp₀ : r.mem p = mem p := h.untouched p hp
  have hlink := register_link (p := p) h.notInitialized
  rw [hp₀] at hlink
  refine ⟨fun k => ?_, fun q hq => ?_, fun q hq => ?_, ?_⟩
  · have hnew : p ∉ registered mem ds k := fun hk => hp (mem_registered.mp hk).1
    rw [register_head h.notInitialized, hp₀, registered_concat, hlink]
    split_ifs with hk
    · rw [hk]
      exact (h.chain k).push hnew
    · -- the other stacks do not contain the new node, so its link is not theirs
      refine (h.chain k).congr fun q hq => Function.update_of_ne ?_ _ _
      rintro rfl
      exact hnew hq
  · by_cases hqp : q = p
    · subst hqp
      simp [hmem, hp₀]
    · have hqds : q ∈ ds := by simpa [hqp] using hq
      rw [hmem, Function.update_of_ne hqp]
      exact h.kept q hqds
  · rw [List.mem_append, List.mem_singleton, not_or] at hq
    rw [hmem, Function.update_of_ne hq.2]
    exact h.untouched q hq.1
  · rw [register_nodeIsInitialized]
    exact h.notInitialized

/-- The shape holds after every sequence of registrations of distinct descriptors. -/
theorem shape_registerAll (hds : ds.Nodup) : Shape mem ds ((empty mem).registerAll ds) := by
  -- the last registration is the last step
  induction ds using List.reverseRecOn with
  | nil => exact shape_empty
  | append_singleton ds p ih =>
    obtain ⟨hnodup, -, hdisj⟩ := List.nodup_append.mp hds
    rw [registerAll_concat]
    exact (ih hnodup).register fun hp => hdisj p hp p (by simp) rfl

/-! ## Lookups -/

theorem Shape.nmModname_eq (h : Shape mem ds r) (p : Ptr) :
    (r.mem p).nmModname = (mem p).nmModname := by
  by_cases hp : p ∈ ds
  · rw [h.kept p hp]
  · rw [h.untouched p hp]

/-- On a builtin list that its head spells out, the lookup loop ends, with the first
descriptor of that name. -/
theorem findBuiltin_of_chain {l : List Ptr} (hchain : Chain r.link (r.head .builtin) l)
    (hname : ∀ p, (r.mem p).nmModname = (mem p).nmModname) (name : CString) {fuel : ℕ}
    (hfuel : l.length ≤ fuel) :
    r.findBuiltin fuel name = some (l.find? fun p => (mem p).nmModname = name) := by
  refine (Chain.search_eq_find? hchain hfuel).trans ?_
  simp only [CString.strcmp_eq_zero_iff, hname]

/-- The lookup loop ends, with the most recently registered builtin of that name. -/
theorem Shape.findBuiltin_eq (h : Shape mem ds r) (name : CString) {fuel : ℕ}
    (hfuel : ds.length ≤ fuel) :
    r.findBuiltin fuel name =
      some ((registered mem ds .builtin).find? fun p => (mem p).nmModname = name) :=
  findBuiltin_of_chain (h.chain .builtin) h.nmModname_eq name (length_registered_le.trans hfuel)

end Registry

end NodeMini
