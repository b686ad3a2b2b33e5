import NodeMini.Lib.Lasso
import NodeMini.Registry.Shape

/-!
# Registering a descriptor again

`xnode_module_register` overwrites the `nm_link` of the descriptor it is given and never
asks whether the descriptor is on a list already. This file follows runs of registrations
in which descriptors may be repeated.

A descriptor that is registered again is linked to the old head. If the old head leads to
it, then it becomes a node of a cycle, and what has been behind it is lost: nothing if it
was the tail, everything else if it was the head. No later registration removes the cycle,
but what has been lost can be registered again.

## Main definitions

* `Registry.Acyclic`, `Registry.Reaches` — the links from a list head come to an end; they
  lead to a descriptor
* `latest` — the most recent registrations of a kind, back to the first repetition
* `Registry.Threaded` — what holds of the heap after any run of registrations

## Main results

* `Registry.Threaded.register` — one registration, of any descriptor
* `Registry.threaded_registerAll` — every run
* `Registry.Threaded.acyclic_iff` — a list is acyclic exactly if nothing is on it twice
* `Registry.Threaded.reaches_iff` — what the links lead to
* `Registry.Threaded.findBuiltin_of_some`, `Registry.Threaded.findBuiltin_of_nodup`,
  `Registry.Threaded.findBuiltin_of_again` — the lookup loop
-/

namespace NodeMini

open Lib

/-- Registration leaves a descriptor on the list it is on. -/
theorem moduleKind_registeredFlags (flags : UInt32) :
    moduleKind (registeredFlags flags) = moduleKind flags := by
  unfold registeredFlags
  split_ifs with h
  · rw [h]
    decide
  · rfl

/-- The most recent registrations of kind `k`, back to the first repetition: the longest final
part of the run in which no descriptor of that kind is registered twice. -/
def latest (mem : Ptr → XnodeModule) (ds : List Ptr) (k : ModuleKind) : List Ptr :=
  fresh (registered mem ds k)

section Latest

variable {mem : Ptr → XnodeModule} {ds : List Ptr} {p : Ptr} {k : ModuleKind}

/-- A registration comes first, and cuts off what was behind the descriptor's old place. -/
theorem latest_concat :
    latest mem (ds ++ [p]) k = if moduleKind (mem p).nmFlags = k
      then p :: (latest mem ds k).takeWhile (· ≠ p) else latest mem ds k := by
  unfold latest
  rw [registered_concat]
  split_ifs <;> rfl

theorem mem_of_mem_latest (hp : p ∈ latest mem ds k) :
    p ∈ ds ∧ moduleKind (mem p).nmFlags = k :=
  mem_registered.mp ((prefix_fresh _).subset hp)

theorem length_latest_le : (latest mem ds k).length ≤ ds.length :=
  (prefix_fresh _).length_le.trans length_registered_le

/-- Without a repetition these are all. -/
theorem latest_of_nodup (h : (registered mem ds k).Nodup) :
    latest mem ds k = registered mem ds k := fresh_eq_self_iff.mpr h

end Latest

namespace Registry

/-- The links from the head of list `k` come to an end. -/
def Acyclic (r : Registry) (k : ModuleKind) : Prop := ∃ l, Chain r.link (r.head k) l

/-- The links from the head of list `k` lead to `p`. -/
def Reaches (r : Registry) (k : ModuleKind) (p : Ptr) : Prop :=
  ∃ q, r.head k = some q ∧ Relation.ReflTransGen (fun a b => r.link a = some b) q p

/-- What holds after registering `ds`, in which descriptors may be repeated, over the
original descriptors `mem`. -/
structure Threaded (mem : Ptr → XnodeModule) (ds : List Ptr) (r : Registry) : Prop where
  /-- No descriptor changes lists. -/
  kind : ∀ p, moduleKind (r.mem p).nmFlags = moduleKind (mem p).nmFlags
  /-- No descriptor changes its name. -/
  nmModname : ∀ p, (r.mem p).nmModname = (mem p).nmModname
  /-- A head leads through the latest registrations; then the links end if these are all, and
  come back if they are not. -/
  path : ∀ k, ∃ after, Lasso r.link (r.head k) (latest mem ds k) after ∧
    (after = none ↔ (registered mem ds k).Nodup)
  /-- Nothing sets `node_is_initialized`. -/
  notInitialized : r.nodeIsInitialized = false

variable {r : Registry} {mem : Ptr → XnodeModule} {ds : List Ptr} {p : Ptr} {k : ModuleKind}

theorem threaded_empty : Threaded mem [] (empty mem) where
  kind _ := rfl
  nmModname _ := rfl
  path k := by
    refine ⟨none, ⟨?_, List.nodup_nil, nofun⟩, iff_of_true rfl List.nodup_nil⟩
    cases k <;> rfl
  notInitialized := rfl

namespace Threaded

/-- On the list of the descriptor, the links are those of a lasso that has been relinked. -/
theorem path_register_self (h : Threaded mem ds r) (hk : moduleKind (mem p).nmFlags = k) :
    ∃ after, Lasso (r.xnodeModuleRegister p).link ((r.xnodeModuleRegister p).head k)
        (latest mem (ds ++ [p]) k) after ∧
      (after = none ↔ (registered mem (ds ++ [p]) k).Nodup) := by
  obtain ⟨after, hlasso, hafter⟩ := h.path k
  refine ⟨if p ∈ latest mem ds k then some p else after, ?_, ?_⟩
  · rw [register_link h.notInitialized, register_head h.notInitialized, h.kind, hk, if_pos rfl,
      latest_concat, if_pos hk]
    exact hlasso.relink p
  · rw [registered_concat, if_pos hk, List.nodup_cons]
    by_cases honce : (registered mem ds k).Nodup
    · rw [latest_of_nodup honce, hafter.mpr honce]
      simp [honce]
    · -- it had come back before, and does so still
      have hback : after ≠ none := mt hafter.mp honce
      refine iff_of_false ?_ fun hnodup => honce hnodup.2
      split_ifs
      · nofun
      · exact hback

/-- On another list nothing changes. -/
theorem path_register_other (h : Threaded mem ds r) (hk : moduleKind (mem p).nmFlags ≠ k) :
    ∃ after, Lasso (r.xnodeModuleRegister p).link ((r.xnodeModuleRegister p).head k)
        (latest mem (ds ++ [p]) k) after ∧
      (after = none ↔ (registered mem (ds ++ [p]) k).Nodup) := by
  obtain ⟨after, hlasso, hafter⟩ := h.path k
  rw [register_link h.notInitialized, register_head h.notInitialized, h.kind, if_neg hk,
    latest_concat, if_neg hk, registered_concat, if_neg hk]
  refine ⟨after, hlasso.congr fun q hq => Function.update_of_ne ?_ _ _, hafter⟩
  rintro rfl
  exact hk (mem_of_mem_latest hq).2

/-- One registration, of any descriptor: a new one is pushed on its list, a repeated one
closes a cycle in it. -/
theorem register (h : Threaded mem ds r) (p : Ptr) :
    Threaded mem (ds ++ [p]) (r.xnodeModuleRegister p) where
  kind q := by
    rw [register_mem h.notInitialized]
    by_cases hqp : q = p
    · rw [hqp, Function.update_self, moduleKind_registeredFlags, h.kind]
    · rw [Function.update_of_ne hqp, h.kind]
  nmModname q := by
    rw [register_mem h.notInitialized]
    by_cases hqp : q = p
    · rw [hqp, Function.update_self, h.nmModname]
    · rw [Function.update_of_ne hqp, h.nmModname]
  path k := by
    by_cases hk : moduleKind (mem p).nmFlags = k
    · exact h.path_register_self hk
    · exact h.path_register_other hk
  notInitialized := by
    rw [register_nodeIsInitialized]
    exact h.notInitialized

end Threaded

/-- Every run of registrations, of distinct descriptors or not. -/
theorem threaded_registerAll : Threaded mem ds ((empty mem).registerAll ds) := by
  -- the last registration is the last step
  induction ds using List.reverseRecOn with
  | nil => exact threaded_empty
  | append_singleton ds p ih =>
    rw [registerAll_concat]
    exact ih.register p

namespace Threaded

/-- A list is acyclic exactly if nothing is on it twice. -/
theorem acyclic_iff (h : Threaded mem ds r) : r.Acyclic k ↔ (registered mem ds k).Nodup := by
  obtain ⟨after, hlasso, hafter⟩ := h.path k
  exact hlasso.exists_chain_iff.trans hafter

/-- A head leads to the latest registrations of its list. -/
theorem reaches_iff (h : Threaded mem ds r) : r.Reaches k p ↔ p ∈ latest mem ds k := by
  obtain ⟨after, hlasso, -⟩ := h.path k
  exact hlasso.reaches_iff

variable {name : CString} {fuel : ℕ}

/-- The test of the lookup loop, over the original descriptors. -/
theorem test_eq (h : Threaded mem ds r) (name : CString) :
    (fun q => decide (CString.strcmp (r.mem q).nmModname name = 0)) =
      fun q => decide ((mem q).nmModname = name) := by
  simp only [CString.strcmp_eq_zero_iff, h.nmModname]

/-- The lookup loop ends at the most recent of the latest modules of that name. -/
theorem findBuiltin_of_some (h : Threaded mem ds r)
    (hfind : (latest mem ds .builtin).find? (fun q => (mem q).nmModname = name) = some p)
    (hfuel : ds.length ≤ fuel) : r.findBuiltin fuel name = some (some p) := by
  obtain ⟨after, hlasso, -⟩ := h.path .builtin
  refine Lasso.search_of_find? hlasso ?_ (length_latest_le.trans hfuel)
  rw [h.test_eq name]
  exact hfind

/-- If there is none, it ends with nothing while no builtin module is registered twice, … -/
theorem findBuiltin_of_nodup (h : Threaded mem ds r) (honce : (registered mem ds .builtin).Nodup)
    (hfind : (latest mem ds .builtin).find? (fun q => (mem q).nmModname = name) = none)
    (hfuel : ds.length ≤ fuel) : r.findBuiltin fuel name = some none := by
  obtain ⟨after, hlasso, hafter⟩ := h.path .builtin
  have hleads := hlasso.leads
  rw [hafter.mpr honce, leads_none_iff] at hleads
  have hsearch := findBuiltin_of_chain hleads h.nmModname name (length_latest_le.trans hfuel)
  rw [hsearch, hfind]

/-- … and never ends once one is. -/
theorem findBuiltin_of_again (h : Threaded mem ds r)
    (hagain : ¬ (registered mem ds .builtin).Nodup)
    (hfind : (latest mem ds .builtin).find? (fun q => (mem q).nmModname = name) = none) :
    r.findBuiltin fuel name = none := by
  obtain ⟨after, hlasso, hafter⟩ := h.path .builtin
  obtain ⟨q, rfl⟩ := Option.ne_none_iff_exists'.mp (mt hafter.mp hagain)
  refine Lasso.search_eq_none hlasso ?_
  rw [h.test_eq name]
  exact hfind

end Threaded

end Registry

end NodeMini
