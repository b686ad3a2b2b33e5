import NodeMini.Lib.RequestLog
import NodeMini.Loaders.Basic
import NodeMini.Native.Lookup

/-!
# The binding cache

`process.binding` tests whether the cached value is an object. `GetBinding` answers with
an object exactly for the names it knows, so the cache holds the known names requested so
far, a known name reaches `GetBinding` once, and an unknown one every time.

## Main definitions

* `Registry.Provides`, `Registry.Knows` — the strings `GetBinding` has an object for
* `BindingInv` — what holds of the loader after a run of `process.binding` calls
* `BindingLaw` — each name reaches `GetBinding` once and is logged once

## Main results

* `BindingInv.step`, `bindingInv_run` — the invariant over whole runs
* `bindingLaw_iff` — the law holds of a run exactly when it repeats no unknown name
-/

namespace NodeMini

open Lib

/-- The registry has a builtin module under the C string of `s`. -/
def Registry.Provides (r : Registry) (s : JsString) : Prop :=
  ∃ fuel p, r.findBuiltin fuel (utf8Value s) = some (some p)

/-- `GetBinding` has an object for `s`. -/
def Registry.Knows (r : Registry) (s : JsString) : Prop := r.Provides s ∨ utf8Value s = natives

/-! ## What `GetBinding` answers -/

section GetBinding

variable {fuel : ℕ} {w w' : World} {s : JsString} {v : JsValue} {o : ObjectId}

theorem Registry.provides_iff {r : Registry} {mod : Option Ptr}
    (h : r.findBuiltin fuel (utf8Value s) = some mod) : r.Provides s ↔ mod.isSome := by
  constructor
  · rintro ⟨fuel', p, hp⟩
    rw [findBuiltin_unique h hp]
    rfl
  · intro hsome
    obtain ⟨p, rfl⟩ := Option.isSome_iff_exists.mp hsome
    exact ⟨fuel, p, h⟩

theorem World.registry_of_getBinding (h : w.getBinding fuel s = .ok (v, w')) :
    w'.registry = w.registry := by
  obtain ⟨-, -, hreg, -⟩ := getBinding_cases h
  exact hreg

theorem World.calls_of_getBinding (h : w.getBinding fuel s = .ok (v, w')) :
    w'.getBindingCalls = w.getBindingCalls ++ [s] := by
  obtain ⟨-, -, -, hcalls, -⟩ := getBinding_cases h
  exact hcalls

theorem World.objects_le_of_getBinding (h : w.getBinding fuel s = .ok (v, w')) :
    w.objects ≤ w'.objects := by
  obtain ⟨mod, -, -, -, -, -, -, hanswer⟩ := getBinding_cases h
  split_ifs at hanswer <;> omega

/-- The answer is an object exactly for a known name. -/
theorem World.getBinding_object_iff (h : w.getBinding fuel s = .ok (v, w')) :
    (∃ o, v = .object o) ↔ w.registry.Knows s := by
  obtain ⟨mod, hfound, -, -, -, -, -, hanswer⟩ := getBinding_cases h
  rw [Registry.Knows, Registry.provides_iff hfound]
  by_cases hn : utf8Value s = natives
  · rw [if_pos hn] at hanswer
    simp [hn, hanswer.1]
  · rw [if_neg hn] at hanswer
    cases mod <;> simp [hn, hanswer.1]

end GetBinding

/-! ## One call -/

/-- What one `process.binding` call that returns did: the conversion threw, the cache was
hit, or `GetBinding` was asked. -/
theorem Loader.processBinding_cases {fuel : ℕ} {L L' : Loader} {x : Option JsString}
    {v : Option JsValue} (h : L.processBinding fuel x = .ok (v, L')) :
    (x = none ∧ v = none ∧ L' = L) ∨
    (∃ s o, x = some s ∧ v = some (.object o) ∧ L.bindingObj s = .object o ∧ L' = L) ∨
    (∃ s u w, x = some s ∧ v = some u ∧ L.bindingObj s = .undefined ∧
      L.world.getBinding fuel s = .ok (u, w) ∧
      L' = { L with
        world := w
        bindingObj := Function.update L.bindingObj s u
        moduleLoadList := L.moduleLoadList ++ [bindingEntry s] }) := by
  cases x with
  | none =>
    obtain ⟨rfl, rfl⟩ := Prod.mk.inj (Except.ok.inj h)
    exact Or.inl ⟨rfl, rfl, rfl⟩
  | some s =>
    right
    obtain ⟨⟨mod, L₁⟩, hbinding, h⟩ := except_bind_eq_ok.mp h
    obtain ⟨rfl, rfl⟩ := Prod.mk.inj (Except.ok.inj h)
    unfold binding at hbinding
    -- the type test looks at the cached value only
    cases hcached : L.bindingObj s with
    | object o =>
      rw [hcached] at hbinding
      obtain ⟨rfl, rfl⟩ := Prod.mk.inj (Except.ok.inj hbinding)
      exact Or.inl ⟨s, o, rfl, rfl, hcached, rfl⟩
    | undefined =>
      rw [hcached] at hbinding
      obtain ⟨⟨u, w⟩, hget, hbinding⟩ := except_bind_eq_ok.mp hbinding
      obtain ⟨rfl, rfl⟩ := Prod.mk.inj (Except.ok.inj hbinding)
      exact Or.inr ⟨s, u, w, rfl, rfl, hcached, hget, rfl⟩

theorem eq_undefined_of_not_object {u : JsValue} (h : ¬ ∃ o, u = .object o) : u = .undefined := by
  cases u with
  | undefined => rfl
  | object o => exact absurd ⟨o, rfl⟩ h

/-! ## The invariant -/

/-- A record of `process.binding` calls with what they returned. -/
abbrev BindingRecord := List (Option JsString × Option JsValue)

/-- The strings requested, in order. -/
def BindingRecord.names (record : BindingRecord) : List JsString := record.filterMap Prod.fst

@[simp] theorem BindingRecord.names_nil : BindingRecord.names [] = [] := rfl

@[simp] theorem BindingRecord.names_concat_none (record : BindingRecord) (v : Option JsValue) :
    BindingRecord.names (record ++ [(none, v)]) = record.names := by
  simp [names]

@[simp] theorem BindingRecord.names_concat_some (record : BindingRecord) (s : JsString)
    (v : Option JsValue) :
    BindingRecord.names (record ++ [(some s, v)]) = record.names ++ [s] := by
  simp [names]

theorem BindingRecord.mem_names {record : BindingRecord} {s : JsString} :
    s ∈ record.names ↔ ∃ v, (some s, v) ∈ record := by
  simp [names]

open Classical in
/-- The loader after a record of calls: the cache holds the known names requested so far,
and the others are requested anew each time. -/
structure BindingInv (L₀ : Loader) (record : BindingRecord) (L : Loader) : Prop where
  registry : L.world.registry = L₀.world.registry
  calls : L.world.getBindingCalls =
    L₀.world.getBindingCalls ++ forwarded L₀.world.registry.Knows record.names
  loadList : L.moduleLoadList =
    L₀.moduleLoadList ++ (forwarded L₀.world.registry.Knows record.names).map bindingEntry
  cached : ∀ s, (∃ o, L.bindingObj s = .object o) ↔ s ∈ record.names ∧ L₀.world.registry.Knows s
  answers : ∀ s v, (some s, v) ∈ record → v = some (L.bindingObj s)

section Invariant

variable {fuel : ℕ} {L₀ L L' : Loader} {record : BindingRecord} {x : Option JsString}
  {v : Option JsValue} {xs : List (Option JsString)} {s : JsString}

theorem bindingInv_nil (h : ∀ s, L₀.bindingObj s = .undefined) : BindingInv L₀ [] L₀ where
  registry := rfl
  calls := by simp [forwarded]
  loadList := by simp [forwarded]
  cached s := by simp [h s]
  answers s v hmem := absurd hmem (by simp)

/-- A call whose conversion throws leaves everything as it was. -/
theorem BindingInv.throw (h : BindingInv L₀ record L) :
    BindingInv L₀ (record ++ [(none, v)]) L where
  registry := h.registry
  calls := by simpa using h.calls
  loadList := by simpa using h.loadList
  cached := by simpa using h.cached
  answers s u hmem := h.answers s u (by simpa using hmem)

open Classical in
/-- A hit is on a known name that was requested before, so nothing is forwarded. -/
theorem BindingInv.forwarded_hit (h : BindingInv L₀ record L) {o : ObjectId}
    (hcached : L.bindingObj s = .object o) :
    forwarded L₀.world.registry.Knows (record.names ++ [s]) =
      forwarded L₀.world.registry.Knows record.names := by
  obtain ⟨hs, hknown⟩ := (h.cached s).mp ⟨o, hcached⟩
  rw [forwarded_concat, if_pos ⟨hknown, hs⟩]

theorem BindingInv.fresh_of_miss (h : BindingInv L₀ record L)
    (hcached : L.bindingObj s = .undefined) :
    ¬ (s ∈ record.names ∧ L₀.world.registry.Knows s) := by
  rw [← h.cached s, hcached]
  rintro ⟨o, ⟨⟩⟩

open Classical in
/-- A miss is on a name that is unknown or new, so the request is forwarded. -/
theorem BindingInv.forwarded_miss (h : BindingInv L₀ record L)
    (hcached : L.bindingObj s = .undefined) :
    forwarded L₀.world.registry.Knows (record.names ++ [s]) =
      forwarded L₀.world.registry.Knows record.names ++ [s] := by
  rw [forwarded_concat, if_neg fun hold => h.fresh_of_miss hcached hold.symm]

theorem BindingInv.hit (h : BindingInv L₀ record L) {o : ObjectId}
    (hcached : L.bindingObj s = .object o) :
    BindingInv L₀ (record ++ [(some s, some (.object o))]) L := by
  -- a hit is for a name requested before, so the set of names stays the same
  have hs := ((h.cached s).mp ⟨o, hcached⟩).1
  refine ⟨h.registry, ?_, ?_, ?_, ?_⟩
  · rw [BindingRecord.names_concat_some, h.forwarded_hit hcached]
    exact h.calls
  · rw [BindingRecord.names_concat_some, h.forwarded_hit hcached]
    exact h.loadList
  · intro t
    rw [h.cached t, BindingRecord.names_concat_some]
    have : t ∈ record.names ++ [s] ↔ t ∈ record.names := by
      simpa using fun hts : t = s => hts ▸ hs
    rw [this]
  · intro t u hmem
    rcases List.mem_append.mp hmem with hold | hnew
    · exact h.answers t u hold
    · obtain ⟨⟨⟩, rfl⟩ : t = s ∧ u = some (.object o) := by simpa using hnew
      rw [hcached]

theorem BindingInv.miss (h : BindingInv L₀ record L) {u : JsValue} {w : World}
    (hcached : L.bindingObj s = .undefined) (hget : L.world.getBinding fuel s = .ok (u, w)) :
    BindingInv L₀ (record ++ [(some s, some u)]) { L with
      world := w
      bindingObj := Function.update L.bindingObj s u
      moduleLoadList := L.moduleLoadList ++ [bindingEntry s] } := by
  -- whether the answer is an object is decided by the registry, which stays the same
  have hknows := World.getBinding_object_iff hget
  rw [h.registry] at hknows
  refine ⟨(World.registry_of_getBinding hget).trans h.registry, ?_, ?_, ?_, ?_⟩
  · rw [BindingRecord.names_concat_some, h.forwarded_miss hcached,
      World.calls_of_getBinding hget, h.calls, List.append_assoc]
  · rw [BindingRecord.names_concat_some, h.forwarded_miss hcached, List.map_append,
      ← List.append_assoc, ← h.loadList]
    rfl
  · intro t
    rw [BindingRecord.names_concat_some]
    by_cases hts : t = s
    · subst hts
      simpa using hknows
    · simp [h.cached t, hts]
  · intro t z hmem
    change z = some (Function.update L.bindingObj s u t)
    rcases List.mem_append.mp hmem with hold | hnew
    · by_cases hts : t = s
      · -- the name was requested before, so it is unknown: both answers are `undefined`
        subst hts
        have hunknown : ¬ L₀.world.registry.Knows t := fun hk =>
          h.fresh_of_miss hcached ⟨BindingRecord.mem_names.mpr ⟨z, hold⟩, hk⟩
        rw [h.answers t z hold, hcached, Function.update_self,
          eq_undefined_of_not_object (mt hknows.mp hunknown)]
      · rw [Function.update_of_ne hts]
        exact h.answers t z hold
    · obtain ⟨⟨⟩, rfl⟩ : t = s ∧ z = some u := by simpa using hnew
      rw [Function.update_self]

/-- Every call keeps the invariant. -/
theorem BindingInv.step (h : BindingInv L₀ record L)
    (hstep : L.processBinding fuel x = .ok (v, L')) : BindingInv L₀ (record ++ [(x, v)]) L' := by
  rcases Loader.processBinding_cases hstep with
    ⟨rfl, rfl, rfl⟩ | ⟨s, o, rfl, rfl, hcached, rfl⟩ | ⟨s, u, w, rfl, rfl, hcached, hget, rfl⟩
  · exact h.throw
  · exact h.hit hcached
  · exact h.miss hcached hget

/-- The invariant holds after every run from empty caches. -/
theorem bindingInv_run (h₀ : ∀ s, L₀.bindingObj s = .undefined)
    (hrun : run (Loader.processBinding fuel) L₀ xs = .ok (record, L)) : BindingInv L₀ record L :=
  run_induction (motive := BindingInv L₀) (fun _ _ _ _ _ h hstep => h.step hstep)
    (bindingInv_nil h₀) hrun

/-- The load list only grows. -/
theorem Loader.loadList_prefix
    (hrun : run (Loader.processBinding fuel) L xs = .ok (record, L')) :
    L.moduleLoadList <+: L'.moduleLoadList := by
  refine run_induction (motive := fun _ L' => L.moduleLoadList <+: L'.moduleLoadList) ?_
    (List.prefix_refl _) hrun
  rintro r L₁ x v L₂ hprefix hstep
  rcases Loader.processBinding_cases hstep with
    ⟨-, -, rfl⟩ | ⟨s, o, -, -, -, rfl⟩ | ⟨s, u, w, -, -, -, -, rfl⟩
  · exact hprefix
  · exact hprefix
  · exact hprefix.trans (List.prefix_append _ _)

end Invariant

/-! ## The law of the binding cache -/

/-- What the loader promises of a run: the calls it makes to `GetBinding` are for distinct
strings, equal strings get equal answers, and the load list grows to hold one entry for each
distinct string, in order of first request. -/
structure BindingLaw (fuel : ℕ) (L₀ : Loader) (xs : List (Option JsString))
    (record : BindingRecord) (L : Loader) : Prop where
  calledOnce : ∃ calls, L.world.getBindingCalls = L₀.world.getBindingCalls ++ calls ∧
    ∀ s, calls.count s ≤ 1
  sameAnswer : ∀ s v v', (some s, v) ∈ record → (some s, v') ∈ record → v = v'
  appendOnly : ∀ ys zs r₁ L₁, xs = ys ++ zs →
    run (Loader.processBinding fuel) L₀ ys = .ok (r₁, L₁) →
    L₁.moduleLoadList <+: L.moduleLoadList
  loadList : L.moduleLoadList = record.names.eraseDups.map bindingEntry

section Law

variable {fuel : ℕ} {w : World} {table : SourceTable} {L₀ L : Loader} {record : BindingRecord}
  {xs : List (Option JsString)}

/-- The state the loader's evaluation leaves. -/
theorem bootstrapLoaders_cases (h : bootstrapLoaders fuel w table = .ok L₀) :
    ∃ v w', w.getBinding fuel (js "natives") = .ok (v, w') ∧
      L₀ = {
        world := w'.newObject.2
        moduleLoadList := []
        bindingObj := fun _ => .undefined
        source := table
        modules := fun _ => none
        cache := fun _ => none
        loaderExports := w'.newObject.1 } := by
  obtain ⟨⟨v, w'⟩, hget, h⟩ := except_bind_eq_ok.mp h
  exact ⟨v, w', hget, (Except.ok.inj h).symm⟩

theorem registry_of_bootstrapLoaders (h : bootstrapLoaders fuel w table = .ok L₀) :
    L₀.world.registry = w.registry := by
  obtain ⟨v, w', hget, rfl⟩ := bootstrapLoaders_cases h
  have hreg : w'.registry = w.registry := World.registry_of_getBinding hget
  exact hreg

theorem names_of_run (hrun : run (Loader.processBinding fuel) L₀ xs = .ok (record, L)) :
    record.names = xs.filterMap id := by
  rw [← run_requests hrun, List.filterMap_map]
  rfl

/-- After a run that repeats no unknown name, the law holds. -/
theorem BindingInv.law (h : BindingInv L₀ record L) (hempty : L₀.moduleLoadList = [])
    (hrun : run (Loader.processBinding fuel) L₀ xs = .ok (record, L))
    (hnames : ∀ s, ¬ L₀.world.registry.Knows s → record.names.count s ≤ 1) :
    BindingLaw fuel L₀ xs record L := by
  classical
  refine ⟨⟨_, h.calls, List.nodup_iff_count_le_one.mp (forwarded_nodup_iff.mpr hnames)⟩, ?_, ?_, ?_⟩
  · -- both answers are what the cache holds in the end
    intro s v v' hv hv'
    rw [h.answers s v hv, h.answers s v' hv']
  · -- the state after a first part of the run is the one the rest starts from
    rintro ys zs r₁ L₁ rfl hys
    obtain ⟨L₂, r₂, r₃, hys', hzs, -⟩ := run_append.mp hrun
    obtain ⟨rfl, rfl⟩ := Prod.mk.inj (Except.ok.inj (hys.symm.trans hys'))
    exact Loader.loadList_prefix hzs
  · rw [h.loadList, hempty, List.nil_append, forwarded_eq_eraseDups hnames]

/-- A loader on a registry of context-aware modules answers every call. -/
theorem Loader.processBinding_returns {mem : Ptr → XnodeModule} {ds : List Ptr}
    (hds : ∀ p ∈ ds, (mem p).ContextAware) (hfuel : ds.length ≤ fuel)
    (h : L.world.registry.Shape mem ds) (x : Option JsString) :
    ∃ v L', L.processBinding fuel x = .ok (v, L') ∧ L'.world.registry.Shape mem ds := by
  cases x with
  | none => exact ⟨none, L, rfl, h⟩
  | some s =>
    obtain ⟨u, w, hget⟩ := World.getBinding_of_shape h hds hfuel s
    by_cases hcached : (L.bindingObj s).typeof ≠ "object"
    · have hbinding : L.binding fuel s = .ok (u, { L with
          world := w
          bindingObj := Function.update L.bindingObj s u
          moduleLoadList := L.moduleLoadList ++ [bindingEntry s] }) := by
        unfold binding
        rw [if_pos hcached]
        exact except_bind_eq_ok.mpr ⟨_, hget, rfl⟩
      refine ⟨some u, _, except_bind_eq_ok.mpr ⟨_, hbinding, rfl⟩, ?_⟩
      exact World.registry_of_getBinding hget ▸ h
    · have hbinding : L.binding fuel s = .ok (L.bindingObj s, L) := by
        unfold binding
        rw [if_neg hcached]
        rfl
      exact ⟨_, L, except_bind_eq_ok.mpr ⟨_, hbinding, rfl⟩, h⟩

/-- **The law of the binding cache**, and exactly when it holds. Over any registry and
after the loader's own evaluation, a run of `process.binding` calls obeys the law if and
only if no name unknown to `GetBinding` is requested twice: `GetBinding` answers such a
name with `undefined`, which the cache test takes for a miss. On a registry of
context-aware modules every run returns. -/
theorem bindingLaw_iff (fuel : ℕ) (r : Registry) (table : SourceTable) (L₀ : Loader)
    (h₀ : bootstrapLoaders fuel (World.start r) table = .ok L₀) (xs : List (Option JsString)) :
    (∀ record L, run (Loader.processBinding fuel) L₀ xs = .ok (record, L) →
      (BindingLaw fuel L₀ xs record L ↔
        ∀ s, ¬ r.Knows s → (xs.filterMap id).count s ≤ 1)) ∧
    ∀ mem ds, r.Shape mem ds → (∀ p ∈ ds, (mem p).ContextAware) → ds.length ≤ fuel →
      ∃ record L, run (Loader.processBinding fuel) L₀ xs = .ok (record, L) := by
  classical
  have hreg : L₀.world.registry = r := registry_of_bootstrapLoaders h₀
  obtain ⟨v₀, w₀, -, hL₀⟩ := bootstrapLoaders_cases h₀
  constructor
  · intro record L hrun
    have hinv : BindingInv L₀ record L := bindingInv_run (by simp [hL₀]) hrun
    rw [← names_of_run hrun, ← hreg]
    constructor
    · intro hlaw
      -- the calls of the run are the forwarded requests
      obtain ⟨calls, hcalls, honce⟩ := hlaw.calledOnce
      obtain rfl := List.append_cancel_left (hcalls.symm.trans hinv.calls)
      exact forwarded_nodup_iff.mp (List.nodup_iff_count_le_one.mpr honce)
    · exact hinv.law (by rw [hL₀]) hrun
  · -- the registry's shape is all a call needs to return, and a call keeps it
    intro mem ds hshape hds hfuel
    exact run_returns (motive := fun L => L.world.registry.Shape mem ds)
      (fun L x h => Loader.processBinding_returns hds hfuel h x) (hreg ▸ hshape) xs

/-- Requesting an unknown name twice asks `GetBinding` twice and logs two entries. -/
theorem not_bindingLaw_fs_fs :
    ∃ L₀ record L,
      bootstrapLoaders 1 (World.start registerBuiltinModules) .empty = .ok L₀ ∧
      run (Loader.processBinding 1) L₀ [some (js "fs"), some (js "fs")] = .ok (record, L) ∧
      L.world.getBindingCalls = [js "natives", js "fs", js "fs"] ∧
      L.moduleLoadList = [js "Binding fs", js "Binding fs"] ∧
      ¬ BindingLaw 1 L₀ [some (js "fs"), some (js "fs")] record L := by
  refine ⟨_, _, _, rfl, rfl, rfl, rfl, ?_⟩
  intro hlaw
  exact absurd hlaw.loadList (by decide)

theorem bindingLaw_contextify_fs :
    ∃ L₀ record L,
      bootstrapLoaders 1 (World.start registerBuiltinModules) .empty = .ok L₀ ∧
      run (Loader.processBinding 1) L₀ [some (js "contextify"), some (js "fs")] = .ok (record, L) ∧
      BindingLaw 1 L₀ [some (js "contextify"), some (js "fs")] record L := by
  have hlaw := bindingLaw_iff 1 registerBuiltinModules .empty _ rfl
    [some (js "contextify"), some (js "fs")]
  obtain ⟨record, L, hrun⟩ := hlaw.2 (fun _ => contextifyModule) [0]
    (Registry.shape_registerAll (by decide)) (fun _ _ => ⟨rfl, rfl⟩) (by decide)
  refine ⟨_, record, L, rfl, hrun, (hlaw.1 record L hrun).mpr fun s _ => ?_⟩
  exact List.nodup_iff_count_le_one.mp (by decide) s

end Law

end NodeMini
