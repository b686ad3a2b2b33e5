import NodeMini.Loaders.Initialisation

/-!
# The cache of native modules

`NativeModule.require` looks an id up in `_cache`, an ordinary object. A value inherited
from `Object.prototype` is neither loaded nor loading and is passed over; an own entry is
a module that `require` itself has stored, and by the time `require` returns that module
is loaded. So the cache holds exactly the table's keys required so far.

## Main definitions

* `Call.nativeId?` — the id for which a call loads a native module
* `NativeInv` — what holds of the loader after a run of calls of both kinds
* `NativeLaw` — what a program can rely on

## Main results

* `Loader.require_cases` — the four outcomes of `NativeModule.require`
* `NativeInv.step`, `nativeInv_run` — the invariant over whole runs
* `nativeLaw` — the law holds of every run
-/

namespace NodeMini

open Lib

/-! ## One call -/

namespace Loader

/-- The exports object of the module cached under an id. -/
def exportsFor (L : Loader) (id : JsString) : Option ObjectId :=
  (L.cache id).bind fun m => (L.modules m).map NativeModule.exports

/-- The module object that `require` leaves in the cache. -/
def loadedModule (L : Loader) (id : JsString) : NativeModule where
  filename := id ++ js ".js"
  id := id
  exports := L.world.objects + 1
  loaded := true
  loading := false

/-- The state after `require` has loaded the module `id`: two objects are allocated, the
module object and its exports. -/
def load (L : Loader) (id : JsString) : Loader :=
  { L with
    world := { L.world with objects := L.world.objects + 2 }
    moduleLoadList := L.moduleLoadList ++ [nativeEntry id]
    modules := Function.update L.modules L.world.objects (some (L.loadedModule id))
    cache := Function.update L.cache id (some L.world.objects) }

variable {L : Loader} {id : JsString}

theorem require_loaderId : L.require loaderId = (.ok (some L.loaderExports), L) := if_pos rfl

/-- A cached value that is not a module does not count as a hit. -/
theorem not_loaded_of_uncached (h : L.cache id = none) :
    ¬ (L.loaded (L.getCached id) ∨ L.loading (L.getCached id)) := by
  unfold getCached
  rw [h]
  dsimp only
  split <;> simp [loaded, loading]

theorem getCached_of_cached {m : ObjectId} (h : L.cache id = some m) :
    L.getCached id = .module m := by
  rw [getCached, h]

/-- A loaded module is a hit, and nothing changes. -/
theorem require_cached {m : ObjectId} {nm : NativeModule} (hid : id ≠ loaderId)
    (hcache : L.cache id = some m) (hm : L.modules m = some nm) (hloaded : nm.loaded = true) :
    L.require id = (.ok (some nm.exports), L) := by
  unfold require
  rw [if_neg hid, getCached_of_cached hcache, if_pos (by simp [loaded, hm, hloaded])]
  simp [exportsOf, hm]

/-- An id that is neither cached nor a key of the table is refused, and nothing changes. -/
theorem require_unknown (hid : id ≠ loaderId) (hcache : L.cache id = none)
    (hown : L.source.own id = none) : L.require id = (.error (unknownBuiltinModule id), L) := by
  unfold require
  rw [if_neg hid, if_neg fun h => not_loaded_of_uncached hcache h.2,
    if_pos (by simp [exists', hown])]

/-- Loading: the fields of the module object are set in place, the last state counts. -/
theorem require_load (hid : id ≠ loaderId) (hcache : L.cache id = none)
    (hown : (L.source.own id).isSome) :
    L.require id = (.ok (some (L.world.objects + 1)), L.load id) := by
  unfold require
  rw [if_neg hid, if_neg fun h => not_loaded_of_uncached hcache h.2,
    if_neg (by simp [exists', hown])]
  simp [newNativeModule, cacheModule, compile, modify, exportsOf, World.newObject, load,
    loadedModule]

theorem world_cacheModule (m : ObjectId) : (L.cacheModule m).world = L.world := by
  unfold cacheModule
  split <;> rfl

/-- Requiring a module registers nothing. -/
theorem registry_require (L : Loader) (id : JsString) :
    (L.require id).2.world.registry = L.world.registry := by
  unfold require
  dsimp only
  split_ifs
  · rfl
  · rfl
  · rfl
  · simp [compile, modify, world_cacheModule, newNativeModule, World.newObject]

theorem exportsFor_load_self : (L.load id).exportsFor id = some (L.world.objects + 1) := by
  simp [exportsFor, load, loadedModule]

/-- Loading leaves the other cached modules alone. -/
theorem exportsFor_load_of_ne {id' : JsString} (hne : id' ≠ id)
    (hfresh : ∀ m, L.cache id' = some m → m < L.world.objects) :
    (L.load id).exportsFor id' = L.exportsFor id' := by
  have hcache : (L.load id).cache id' = L.cache id' := Function.update_of_ne hne _ _
  unfold exportsFor
  rw [hcache]
  refine Option.bind_congr fun m hm => ?_
  -- an older module object is not the one that was allocated
  have hmodule : (L.load id).modules m = L.modules m :=
    Function.update_of_ne (Nat.ne_of_lt (hfresh m hm)) _ _
  rw [hmodule]

end Loader

/-! ## The load list -/

/-- A load-list entry of a native module. -/
def isNativeEntry (entry : JsString) : Bool := js "NativeModule " <+: entry

@[simp] theorem isNativeEntry_nativeEntry (id : JsString) : isNativeEntry (nativeEntry id) := by
  simp [isNativeEntry, nativeEntry]

@[simp] theorem not_isNativeEntry_bindingEntry (s : JsString) :
    isNativeEntry (bindingEntry s) = false := by
  rw [isNativeEntry, decide_eq_false_iff_not]
  rintro ⟨rest, heq⟩
  -- one starts with an N, the other with a B
  have hhead := congrArg List.head? heq
  exact absurd hhead (by simp [bindingEntry, js, Utf8.textUnits, Utf8.codeUnits])

/-- The id for which a call loads a native module or finds it loaded. -/
def Call.nativeId? (source : SourceTable) : Call → Option JsString
  | .require id => if id ≠ loaderId ∧ (source.own id).isSome then some id else none
  | .binding _ => none

theorem Call.nativeId?_eq_some_iff {source : SourceTable} {c : Call} {id : JsString} :
    c.nativeId? source = some id ↔
      c = .require id ∧ id ≠ loaderId ∧ (source.own id).isSome := by
  cases c with
  | require id' =>
    simp only [nativeId?, Option.ite_none_right_eq_some, Option.some.injEq, Call.require.injEq]
    constructor
    · rintro ⟨h, rfl⟩
      exact ⟨rfl, h⟩
    · rintro ⟨rfl, h⟩
      exact ⟨h, rfl⟩
  | binding x => simp [nativeId?]

/-- A record of calls of both kinds. -/
abbrev CallRecord := List (Call × Answer)

/-- The ids for which native modules were required, in order. -/
def CallRecord.nativeIds (source : SourceTable) (record : CallRecord) : List JsString :=
  record.filterMap fun entry => entry.1.nativeId? source

theorem CallRecord.nativeIds_concat (source : SourceTable) (record : CallRecord) (c : Call)
    (a : Answer) :
    CallRecord.nativeIds source (record ++ [(c, a)]) =
      record.nativeIds source ++ (c.nativeId? source).toList := by
  cases h : c.nativeId? source <;> simp [nativeIds, h]

theorem CallRecord.mem_nativeIds {source : SourceTable} {record : CallRecord} {id : JsString} :
    id ∈ record.nativeIds source ↔
      id ≠ loaderId ∧ (source.own id).isSome ∧ ∃ a, (.require id, a) ∈ record := by
  simp only [nativeIds, List.mem_filterMap, Call.nativeId?_eq_some_iff]
  constructor
  · rintro ⟨⟨c, a⟩, hmem, rfl, hid, hown⟩
    exact ⟨hid, hown, a, hmem⟩
  · rintro ⟨hid, hown, a, hmem⟩
    exact ⟨(.require id, a), hmem, rfl, hid, hown⟩

/-! ## The invariant -/

/-- The loader after a record of calls. -/
structure NativeInv (L₀ : Loader) (record : CallRecord) (L : Loader) : Prop where
  source : L.source = L₀.source
  loaderExports : L.loaderExports = L₀.loaderExports
  allocated : L₀.loaderExports < L.world.objects
  /-- The cache holds the ids required so far. -/
  keys : ∀ id, (L.cache id).isSome ↔ id ∈ record.nativeIds L₀.source
  /-- Every cached module is loaded, under its own id. -/
  cached : ∀ id m, L.cache id = some m → m < L.world.objects ∧
    ∃ nm, L.modules m = some nm ∧ nm.id = id ∧ nm.filename = id ++ js ".js" ∧
      nm.loaded = true ∧ nm.loading = false
  /-- Exports objects are younger than the loader's own, and belong to one id. -/
  fresh : ∀ id e, L.exportsFor id = some e → L₀.loaderExports < e ∧ e < L.world.objects
  unique : ∀ id id' e, L.exportsFor id = some e → L.exportsFor id' = some e → id = id'
  answers : ∀ id a, (.require id, a) ∈ record → id ≠ loaderId → (L₀.source.own id).isSome →
    a = .required (.ok (L.exportsFor id))
  loaderAnswers : ∀ a, (.require loaderId, a) ∈ record →
    a = .required (.ok (some L₀.loaderExports))
  loadList : L.moduleLoadList.filter isNativeEntry =
    (record.nativeIds L₀.source).eraseDups.map nativeEntry

section Invariant

variable {fuel : ℕ} {L₀ L L' : Loader} {record : CallRecord} {c : Call} {a : Answer}
  {id : JsString}

/-- A cached id has an exports object. -/
theorem NativeInv.exportsFor_isSome (h : NativeInv L₀ record L) (hcache : (L.cache id).isSome) :
    (L.exportsFor id).isSome := by
  obtain ⟨m, hm⟩ := Option.isSome_iff_exists.mp hcache
  obtain ⟨-, nm, hnm, -⟩ := h.cached id m hm
  simp [Loader.exportsFor, hm, hnm]

/-- The four outcomes of `require`: the loader's own exports, a refusal, a cached module,
and a module that is loaded now. -/
theorem NativeInv.require_cases (h : NativeInv L₀ record L) (id : JsString) :
    (id = loaderId ∧ L.require id = (.ok (some L₀.loaderExports), L)) ∨
    (id ≠ loaderId ∧ L₀.source.own id = none ∧
      L.require id = (.error (unknownBuiltinModule id), L)) ∨
    (id ≠ loaderId ∧ (L₀.source.own id).isSome ∧ (L.cache id).isSome ∧
      L.require id = (.ok (L.exportsFor id), L)) ∨
    (id ≠ loaderId ∧ (L₀.source.own id).isSome ∧ L.cache id = none ∧
      L.require id = (.ok (some (L.world.objects + 1)), L.load id)) := by
  by_cases hid : id = loaderId
  · subst hid
    rw [← h.loaderExports]
    exact Or.inl ⟨rfl, Loader.require_loaderId⟩
  · right
    cases hcache : L.cache id with
    | some m =>
      -- whatever is cached is loaded, so it is a hit
      have hkey := (h.keys id).mp (hcache ▸ rfl)
      obtain ⟨-, nm, hnm, -, -, hloaded, -⟩ := h.cached id m hcache
      have hexports : L.exportsFor id = some nm.exports := by
        simp [Loader.exportsFor, hcache, hnm]
      rw [hexports]
      exact Or.inr (Or.inl ⟨hid, (CallRecord.mem_nativeIds.mp hkey).2.1, rfl,
        Loader.require_cached hid hcache hnm hloaded⟩)
    | none =>
      cases hown : L₀.source.own id with
      | none => exact Or.inl ⟨hid, rfl, Loader.require_unknown hid hcache (h.source ▸ hown)⟩
      | some code =>
        have hload := Loader.require_load hid hcache (by simp [h.source, hown])
        exact Or.inr (Or.inr ⟨hid, rfl, rfl, hload⟩)

/-- A call that leaves the native modules alone, and for which nothing had to be loaded. -/
theorem NativeInv.keep (h : NativeInv L₀ record L)
    (hsource : L'.source = L.source) (hexports : L'.loaderExports = L.loaderExports)
    (hobjects : L.world.objects ≤ L'.world.objects)
    (hmodules : L'.modules = L.modules) (hcache : L'.cache = L.cache)
    (hload : L'.moduleLoadList.filter isNativeEntry = L.moduleLoadList.filter isNativeEntry)
    (hknown : ∀ id, c.nativeId? L₀.source = some id →
      (L.cache id).isSome ∧ a = .required (.ok (L.exportsFor id)))
    (hloader : c = .require loaderId → a = .required (.ok (some L₀.loaderExports))) :
    NativeInv L₀ (record ++ [(c, a)]) L' := by
  have hfor : ∀ id, L'.exportsFor id = L.exportsFor id := fun id => by
    rw [Loader.exportsFor, Loader.exportsFor, hmodules, hcache]
  -- the call names no id that was not required before
  have hold : ∀ id ∈ (c.nativeId? L₀.source).toList, id ∈ record.nativeIds L₀.source :=
    fun id hid => (h.keys id).mp (hknown id (Option.mem_toList.mp hid)).1
  refine ⟨hsource.trans h.source, hexports.trans h.loaderExports,
    Nat.lt_of_lt_of_le h.allocated hobjects, ?_, ?_, ?_, ?_, ?_, ?_, ?_⟩
  · intro id
    rw [hcache, h.keys id, CallRecord.nativeIds_concat, List.mem_append]
    exact ⟨Or.inl, fun hid => hid.elim (fun hid => hid) (hold id)⟩
  · intro id m hm
    rw [hcache] at hm
    rw [hmodules]
    obtain ⟨hlt, hmodule⟩ := h.cached id m hm
    exact ⟨Nat.lt_of_lt_of_le hlt hobjects, hmodule⟩
  · intro id e he
    obtain ⟨hlow, hhigh⟩ := h.fresh id e (hfor id ▸ he)
    exact ⟨hlow, Nat.lt_of_lt_of_le hhigh hobjects⟩
  · intro id id' e he he'
    exact h.unique id id' e (hfor id ▸ he) (hfor id' ▸ he')
  · intro id b hmem hid hown
    rw [hfor]
    rcases List.mem_append.mp hmem with hmem | hmem
    · exact h.answers id b hmem hid hown
    · obtain ⟨rfl, rfl⟩ : Call.require id = c ∧ b = a := by simpa using hmem
      exact (hknown id (Call.nativeId?_eq_some_iff.mpr ⟨rfl, hid, hown⟩)).2
  · intro b hmem
    rcases List.mem_append.mp hmem with hmem | hmem
    · exact h.loaderAnswers b hmem
    · obtain ⟨rfl, rfl⟩ : Call.require loaderId = c ∧ b = a := by simpa using hmem
      exact hloader rfl
  · rw [hload, h.loadList, CallRecord.nativeIds_concat]
    cases hc : c.nativeId? L₀.source with
    | none => rw [Option.toList_none, List.append_nil]
    | some id =>
      have hmem : id ∈ record.nativeIds L₀.source := hold id (by simp [hc])
      rw [Option.toList_some, eraseDups_concat, if_pos hmem]

/-- A `require` that loads a module. -/
theorem NativeInv.load (h : NativeInv L₀ record L) (hid : id ≠ loaderId)
    (hown : (L₀.source.own id).isSome) (hcache : L.cache id = none) :
    NativeInv L₀ (record ++ [(.require id, .required (.ok (some (L.world.objects + 1))))])
      (L.load id) := by
  have hids : CallRecord.nativeIds L₀.source
      (record ++ [(.require id, .required (.ok (some (L.world.objects + 1))))]) =
      record.nativeIds L₀.source ++ [id] := by
    rw [CallRecord.nativeIds_concat, Call.nativeId?_eq_some_iff.mpr ⟨rfl, hid, hown⟩]
    rfl
  have hnew : id ∉ record.nativeIds L₀.source := by
    rw [← h.keys id, hcache]
    simp
  -- the other modules keep their exports: their objects are older
  have hother : ∀ id', id' ≠ id → (L.load id).exportsFor id' = L.exportsFor id' :=
    fun id' hne => Loader.exportsFor_load_of_ne hne fun m hm => (h.cached id' m hm).1
  refine ⟨h.source, h.loaderExports, Nat.lt_add_right 2 h.allocated, ?_, ?_, ?_, ?_, ?_, ?_, ?_⟩
  · intro id'
    rw [hids, List.mem_append, List.mem_singleton, ← h.keys id']
    change (Function.update L.cache id _ id').isSome ↔ _
    by_cases hne : id' = id
    · simp [hne]
    · simp [hne]
  · intro id' m hm
    change Function.update L.cache id _ id' = some m at hm
    change m < L.world.objects + 2 ∧ ∃ nm, Function.update L.modules _ _ m = some nm ∧ _
    by_cases hne : id' = id
    · subst hne
      rw [Function.update_self] at hm
      obtain rfl := Option.some.inj hm
      refine ⟨Nat.lt_add_of_pos_right Nat.two_pos, L.loadedModule id', ?_, rfl, rfl, rfl, rfl⟩
      exact Function.update_self ..
    · rw [Function.update_of_ne hne] at hm
      obtain ⟨hlt, hmodule⟩ := h.cached id' m hm
      rw [Function.update_of_ne (Nat.ne_of_lt hlt)]
      exact ⟨Nat.lt_add_right 2 hlt, hmodule⟩
  · intro id' e he
    change _ ∧ e < L.world.objects + 2
    by_cases hne : id' = id
    · subst hne
      rw [Loader.exportsFor_load_self] at he
      obtain rfl := Option.some.inj he
      exact ⟨Nat.lt_succ_of_lt h.allocated, Nat.lt_succ_self _⟩
    · rw [hother id' hne] at he
      obtain ⟨hlow, hhigh⟩ := h.fresh id' e he
      exact ⟨hlow, Nat.lt_add_right 2 hhigh⟩
  · -- the new exports object is not one of the older ones
    have hself : ∀ id' e, (L.load id).exportsFor id = some e →
        (L.load id).exportsFor id' = some e → id' = id := by
      intro id' e he he'
      by_contra hne
      rw [Loader.exportsFor_load_self] at he
      rw [hother id' hne, ← he] at he'
      exact absurd (h.fresh id' _ he').2 (Nat.not_lt.mpr (Nat.le_succ _))
    intro id₁ id₂ e he₁ he₂
    by_cases h₁ : id₁ = id
    · subst h₁
      exact (hself id₂ e he₁ he₂).symm
    · by_cases h₂ : id₂ = id
      · subst h₂
        exact hself id₁ e he₂ he₁
      · exact h.unique id₁ id₂ e (hother id₁ h₁ ▸ he₁) (hother id₂ h₂ ▸ he₂)
  · intro id' b hmem hid' hown'
    rcases List.mem_append.mp hmem with hold | hmem
    · have hne : id' ≠ id := by
        rintro rfl
        exact hnew (CallRecord.mem_nativeIds.mpr ⟨hid', hown', b, hold⟩)
      rw [hother id' hne]
      exact h.answers id' b hold hid' hown'
    · obtain ⟨rfl, rfl⟩ : id' = id ∧ b = .required (.ok (some (L.world.objects + 1))) := by
        simpa using hmem
      rw [Loader.exportsFor_load_self]
  · intro b hmem
    rcases List.mem_append.mp hmem with hmem | hmem
    · exact h.loaderAnswers b hmem
    · exact absurd (by simpa using congrArg Prod.fst (List.mem_singleton.mp hmem)) hid.symm
  · change (L.moduleLoadList ++ [nativeEntry id]).filter isNativeEntry = _
    rw [List.filter_append, h.loadList, hids, eraseDups_concat, if_neg hnew, List.map_append]
    simp

/-- Every call keeps the invariant. -/
theorem NativeInv.step (h : NativeInv L₀ record L) (hstep : L.step fuel c = .ok (a, L')) :
    NativeInv L₀ (record ++ [(c, a)]) L' := by
  cases c with
  | require id =>
    obtain ⟨rfl, rfl⟩ := Prod.mk.inj (Except.ok.inj hstep)
    rcases h.require_cases id with ⟨rfl, hcall⟩ | ⟨hid, hown, hcall⟩ | ⟨hid, hown, hcache, hcall⟩ |
      ⟨hid, hown, hcache, hcall⟩ <;> rw [hcall]
    · refine h.keep rfl rfl (Nat.le_refl _) rfl rfl rfl ?_ fun _ => rfl
      intro id hkey
      obtain ⟨heq, hne, -⟩ := Call.nativeId?_eq_some_iff.mp hkey
      exact absurd (Call.require.inj heq).symm hne
    · refine h.keep rfl rfl (Nat.le_refl _) rfl rfl rfl ?_ fun heq =>
        absurd (Call.require.inj heq) hid
      intro id' hkey
      obtain ⟨heq, -, hown'⟩ := Call.nativeId?_eq_some_iff.mp hkey
      obtain rfl := Call.require.inj heq
      simp [hown] at hown'
    · refine h.keep rfl rfl (Nat.le_refl _) rfl rfl rfl ?_ fun heq =>
        absurd (Call.require.inj heq) hid
      intro id' hkey
      obtain ⟨heq, -, -⟩ := Call.nativeId?_eq_some_iff.mp hkey
      obtain rfl := Call.require.inj heq
      exact ⟨hcache, rfl⟩
    · exact h.load hid hown hcache
  | binding x =>
    obtain ⟨⟨v, L₁⟩, hbinding, hstep⟩ := except_bind_eq_ok.mp hstep
    obtain ⟨rfl, rfl⟩ := Prod.mk.inj (Except.ok.inj hstep)
    -- a binding request touches neither the module cache nor the native entries
    have hnone : ∀ id, (Call.binding x).nativeId? L₀.source = some id →
        (L.cache id).isSome ∧ Answer.bound v = .required (.ok (L.exportsFor id)) :=
      fun id hkey => nomatch (Call.nativeId?_eq_some_iff.mp hkey).1
    rcases Loader.processBinding_cases hbinding with
      ⟨-, -, rfl⟩ | ⟨s, o, -, -, -, rfl⟩ | ⟨s, u, w, -, -, -, hget, rfl⟩
    · exact h.keep rfl rfl (Nat.le_refl _) rfl rfl rfl hnone nofun
    · exact h.keep rfl rfl (Nat.le_refl _) rfl rfl rfl hnone nofun
    · exact h.keep rfl rfl (World.objects_le_of_getBinding hget) rfl rfl (by simp) hnone nofun

end Invariant

section Run

variable {fuel : ℕ} {w : World} {table : SourceTable} {L₀ L : Loader} {record : CallRecord}
  {calls : List Call}

/-- The loader's own evaluation leaves an empty cache. -/
theorem nativeInv_nil (h₀ : bootstrapLoaders fuel w table = .ok L₀) : NativeInv L₀ [] L₀ := by
  obtain ⟨v, w', -, rfl⟩ := bootstrapLoaders_cases h₀
  refine ⟨rfl, rfl, Nat.lt_succ_self _, ?_, nofun, nofun, nofun, ?_, ?_, rfl⟩
  · intro id
    simp [CallRecord.nativeIds]
  · intro id a hmem
    cases hmem
  · intro a hmem
    cases hmem

/-- The invariant holds after every run. -/
theorem nativeInv_run (h₀ : bootstrapLoaders fuel w table = .ok L₀)
    (hrun : run (Loader.step fuel) L₀ calls = .ok (record, L)) : NativeInv L₀ record L :=
  run_induction (motive := NativeInv L₀) (fun _ _ _ _ _ h hstep => h.step hstep)
    (nativeInv_nil h₀) hrun

/-- A loader on a registry of context-aware modules answers every call of a run. -/
theorem Loader.step_run_returns {mem : Ptr → XnodeModule} {ds : List Ptr}
    (hds : ∀ p ∈ ds, (mem p).ContextAware) (hfuel : ds.length ≤ fuel)
    (h : L₀.world.registry.Shape mem ds) (calls : List Call) :
    ∃ record L, run (Loader.step fuel) L₀ calls = .ok (record, L) := by
  refine run_returns (motive := fun L => L.world.registry.Shape mem ds) ?_ h calls
  intro L c hshape
  cases c with
  | require id =>
    refine ⟨_, _, rfl, ?_⟩
    rw [Loader.registry_require]
    exact hshape
  | binding x =>
    obtain ⟨v, L', hcall, hshape'⟩ := Loader.processBinding_returns hds hfuel hshape x
    exact ⟨.bound v, L', except_bind_eq_ok.mpr ⟨(v, L'), hcall, rfl⟩, hshape'⟩

end Run

/-! ## The law of native modules -/

/-- What a program can rely on between two calls, after a record of calls into a loader
with the given table. -/
structure NativeLaw (L₀ : Loader) (table : SourceTable) (record : CallRecord) (L : Loader) :
    Prop where
  /-- The loader's own exports are always there. -/
  loader : L.require loaderId = (.ok (some L₀.loaderExports), L)
  /-- Another id that is no key of the table is refused, and the state is unchanged. -/
  unknown : ∀ id, id ≠ loaderId → table.own id = none →
    ∃ e, L.require id = (.error e, L) ∧ e.code = js "ERR_UNKNOWN_BUILTIN_MODULE"
  /-- A key never throws. -/
  known : ∀ id, (table.own id).isSome → ∃ e L', L.require id = (.ok (some e), L')
  answers : ∀ id a, (.require id, a) ∈ record → (table.own id).isSome →
    ∃ e, a = .required (.ok (some e))
  /-- Equal keys have equal exports objects, different keys different ones. -/
  exports : ∀ id id' e e', (table.own id).isSome → (table.own id').isSome →
    (.require id, .required (.ok (some e))) ∈ record →
    (.require id', .required (.ok (some e'))) ∈ record → (e = e' ↔ id = id')
  /-- The load list names each native module once, in order of first require. -/
  loadList : L.moduleLoadList.filter isNativeEntry =
    (record.nativeIds table).eraseDups.map nativeEntry
  /-- Every cached module is loaded, under its own id, which is a key. -/
  cached : ∀ id m, L.cache id = some m → (table.own id).isSome ∧
    ∃ nm, L.modules m = some nm ∧ nm.id = id ∧ nm.filename = id ++ js ".js" ∧
      nm.loaded = true ∧ nm.loading = false

section Law

variable {fuel : ℕ} {r : Registry} {table : SourceTable} {L₀ L : Loader} {record : CallRecord}
  {id : JsString} {e : ObjectId}

/-- The exports object a recorded call came back with. -/
theorem NativeInv.exports_of_mem (h : NativeInv L₀ record L) (hown : (L₀.source.own id).isSome)
    (hmem : (.require id, .required (.ok (some e))) ∈ record) :
    (id = loaderId ∧ e = L₀.loaderExports) ∨ (id ≠ loaderId ∧ L.exportsFor id = some e) := by
  by_cases hid : id = loaderId
  · subst hid
    have hanswer := h.loaderAnswers _ hmem
    simp only [Answer.required.injEq, Except.ok.injEq, Option.some.injEq] at hanswer
    exact Or.inl ⟨rfl, hanswer⟩
  · have hanswer := h.answers id _ hmem hid hown
    simp only [Answer.required.injEq, Except.ok.injEq] at hanswer
    exact Or.inr ⟨hid, hanswer.symm⟩

/-- Exports objects tell ids apart. -/
theorem NativeInv.exports_iff (h : NativeInv L₀ record L) {id' : JsString} {e' : ObjectId}
    (hown : (L₀.source.own id).isSome) (hown' : (L₀.source.own id').isSome)
    (hmem : (.require id, .required (.ok (some e))) ∈ record)
    (hmem' : (.require id', .required (.ok (some e'))) ∈ record) : e = e' ↔ id = id' := by
  rcases h.exports_of_mem hown hmem with ⟨rfl, rfl⟩ | ⟨hid, he⟩ <;>
    rcases h.exports_of_mem hown' hmem' with ⟨rfl, rfl⟩ | ⟨hid', he'⟩
  · exact iff_of_true rfl rfl
  · exact iff_of_false (Nat.ne_of_lt (h.fresh id' e' he').1) hid'.symm
  · exact iff_of_false (Nat.ne_of_gt (h.fresh id e he).1) hid
  · constructor
    · rintro rfl
      exact h.unique id id' e he he'
    · rintro rfl
      exact Option.some.inj (he.symm.trans he')

theorem NativeInv.law (h : NativeInv L₀ record L) : NativeLaw L₀ L₀.source record L where
  loader := by
    rw [← h.loaderExports]
    exact Loader.require_loaderId
  unknown id hid hown := by
    rcases h.require_cases id with ⟨hid', -⟩ | ⟨-, -, hcall⟩ | ⟨-, hown', -⟩ | ⟨-, hown', -⟩
    · exact absurd hid' hid
    · exact ⟨_, hcall, rfl⟩
    · simp [hown] at hown'
    · simp [hown] at hown'
  known id hown := by
    rcases h.require_cases id with ⟨-, hcall⟩ | ⟨-, hown', -⟩ | ⟨-, -, hcache, hcall⟩ |
      ⟨-, -, -, hcall⟩
    · exact ⟨_, _, hcall⟩
    · simp [hown'] at hown
    · obtain ⟨e, he⟩ := Option.isSome_iff_exists.mp (h.exportsFor_isSome hcache)
      exact ⟨e, L, he ▸ hcall⟩
    · exact ⟨_, _, hcall⟩
  answers id a hmem hown := by
    by_cases hid : id = loaderId
    · subst hid
      exact ⟨_, h.loaderAnswers a hmem⟩
    · have hcache := (h.keys id).mpr (CallRecord.mem_nativeIds.mpr ⟨hid, hown, a, hmem⟩)
      obtain ⟨e, he⟩ := Option.isSome_iff_exists.mp (h.exportsFor_isSome hcache)
      exact ⟨e, he ▸ h.answers id a hmem hid hown⟩
  exports _ _ _ _ := h.exports_iff
  loadList := h.loadList
  cached id m hm := by
    have hkey := (h.keys id).mp (hm ▸ rfl)
    exact ⟨(CallRecord.mem_nativeIds.mp hkey).2.1, (h.cached id m hm).2⟩

/-- **The native module loader over whole runs.** Over any registry, any table and any
run that interleaves `NativeModule.require` and `process.binding` calls, the law of native
modules holds. On a registry of context-aware modules every run returns. -/
theorem nativeLaw (fuel : ℕ) (r : Registry) (table : SourceTable) (L₀ : Loader)
    (h₀ : bootstrapLoaders fuel (World.start r) table = .ok L₀) (calls : List Call) :
    (∀ record L, run (Loader.step fuel) L₀ calls = .ok (record, L) →
      NativeLaw L₀ table record L) ∧
    ∀ mem ds, r.Shape mem ds → (∀ p ∈ ds, (mem p).ContextAware) → ds.length ≤ fuel →
      ∃ record L, run (Loader.step fuel) L₀ calls = .ok (record, L) := by
  have hreg : L₀.world.registry = r := registry_of_bootstrapLoaders h₀
  constructor
  · intro record L hrun
    have hlaw := (nativeInv_run h₀ hrun).law
    obtain ⟨v, w, -, rfl⟩ := bootstrapLoaders_cases h₀
    exact hlaw
  · intro mem ds hshape hds hfuel
    exact Loader.step_run_returns hds hfuel (hreg ▸ hshape) calls

/-- A table that embeds the loader's own source. -/
def SourceTable.loaders : SourceTable where
  own := fun id => if id = loaderId then some (js "'use strict';") else none
  noHasOwnProperty := if_neg (by decide)
  noProto := if_neg (by decide)

/-- Although it is a key of the table, requiring `"bootstrap/loaders"` logs nothing. -/
theorem nativeEntry_loaders_notMem :
    ∃ L₀ record L,
      (SourceTable.loaders.own loaderId).isSome ∧
      bootstrapLoaders 1 (World.start registerBuiltinModules) .loaders = .ok L₀ ∧
      run (Loader.step 1) L₀ [.require loaderId] = .ok (record, L) ∧
      nativeEntry loaderId ∉ L.moduleLoadList :=
  ⟨_, _, _, rfl, rfl, rfl, by decide⟩

/-- A table that embeds one native module. -/
def SourceTable.console : SourceTable where
  own := fun id => if id = js "console" then some (js "'use strict';") else none
  noHasOwnProperty := if_neg (by decide)
  noProto := if_neg (by decide)

/-- The calls of the example: a binding, a key of the prototype, and a native module twice. -/
def exampleLoads : List Call :=
  [.binding (some (js "contextify")), .require (js "toString"), .require (js "console"),
    .require (js "console")]

theorem nativeLaw_toString :
    ∃ L₀ record L,
      bootstrapLoaders 1 (World.start registerBuiltinModules) .console = .ok L₀ ∧
      run (Loader.step 1) L₀ exampleLoads = .ok (record, L) ∧
      L.moduleLoadList = [js "Binding contextify", nativeEntry (js "console")] ∧
      NativeLaw L₀ .console record L := by
  obtain ⟨L₀, record, L, h₀, hrun, hlist⟩ : ∃ L₀ record L,
      bootstrapLoaders 1 (World.start registerBuiltinModules) .console = .ok L₀ ∧
      run (Loader.step 1) L₀ exampleLoads = .ok (record, L) ∧
      L.moduleLoadList = [js "Binding contextify", nativeEntry (js "console")] :=
    ⟨_, _, _, rfl, rfl, by decide⟩
  exact ⟨L₀, record, L, h₀, hrun, hlist,
    (nativeLaw 1 _ _ L₀ h₀ exampleLoads).1 record L hrun⟩

end Law

end NodeMini
