import NodeMini.Native.Lookup
import NodeMini.Registry.Again

/-!
# Lookups after repeated registrations

What becomes of `get_builtin_module` when descriptors are registered more than once. The
loop of the lookup has no bound of its own, so whether it ends is a question of the shape
of the list: it goes through the latest registrations, and finds the first module of the
name there. If there is none, it ends as long as no builtin module has been registered
twice, and runs for ever from the second registration of one on.

## Main definitions

* `RegistrationLaw` — the lists and the lookups after a run of registrations

## Main results

* `World.getBuiltinModule_of_latest` — what a lookup comes to
* `registrationLaw` — every run of registrations follows the law
-/

namespace NodeMini

open Lib

variable {mem : Ptr → XnodeModule} {ds : List Ptr} {name : CString}

/-- The most recent of the latest builtin modules of that name. -/
def latestBuiltin (mem : Ptr → XnodeModule) (ds : List Ptr) (name : CString) : Option Ptr :=
  (latest mem ds .builtin).find? fun p => (mem p).nmModname = name

theorem mem_of_latestBuiltin {p : Ptr} (h : latestBuiltin mem ds name = some p) :
    p ∈ latest mem ds .builtin ∧ (mem p).nmModname = name :=
  ⟨List.mem_of_find?_eq_some h, by simpa using List.find?_some h⟩

theorem latestBuiltin_isSome_iff :
    (latestBuiltin mem ds name).isSome ↔
      ∃ p ∈ latest mem ds .builtin, (mem p).nmModname = name := by
  simp [latestBuiltin]

namespace World

variable {w : World} {fuel : ℕ} {p : Ptr}

theorem getBuiltinModule_of_some (h : w.registry.Threaded mem ds)
    (hfind : latestBuiltin mem ds name = some p) (hfuel : ds.length ≤ fuel) :
    ∃ w', w.getBuiltinModule fuel name = .ok (some p, w') := by
  refine ⟨_, getBuiltinModule_of_findBuiltin (h.findBuiltin_of_some hfind hfuel) fun q hq => ?_⟩
  -- the `CHECK` of the lookup: registration left the flags of a builtin module alone
  obtain rfl := Option.some.inj hq
  obtain ⟨-, hkind⟩ := mem_of_mem_latest (mem_of_latestBuiltin hfind).1
  exact moduleKind_eq_builtin_iff.mp ((h.kind p).trans hkind)

theorem getBuiltinModule_of_nodup (h : w.registry.Threaded mem ds)
    (honce : (registered mem ds .builtin).Nodup) (hfind : latestBuiltin mem ds name = none)
    (hfuel : ds.length ≤ fuel) : ∃ w', w.getBuiltinModule fuel name = .ok (none, w') :=
  ⟨_, getBuiltinModule_of_findBuiltin (h.findBuiltin_of_nodup honce hfind hfuel) nofun⟩

theorem getBuiltinModule_of_again (h : w.registry.Threaded mem ds)
    (hagain : ¬ (registered mem ds .builtin).Nodup) (hfind : latestBuiltin mem ds name = none) :
    w.getBuiltinModule fuel name = .error .running := by
  have hloop : w.registry.findBuiltin fuel name = none := h.findBuiltin_of_again hagain hfind
  unfold getBuiltinModule findModule
  rw [show w.registry.findLoop fuel w.registry.modlistBuiltin name = _ from hloop]

/-- A lookup that returns has found the most recent of the latest modules of the name, or there
is none and nothing was registered twice. -/
theorem getBuiltinModule_of_latest (h : w.registry.Threaded mem ds) {mod : Option Ptr}
    {w' : World} (hreturns : w.getBuiltinModule fuel name = .ok (mod, w')) :
    mod = latestBuiltin mem ds name ∧ (mod = none → (registered mem ds .builtin).Nodup) := by
  obtain ⟨hfound, -⟩ := getBuiltinModule_cases hreturns
  cases hfind : latestBuiltin mem ds name with
  | some p =>
    obtain rfl := Registry.findBuiltin_unique hfound (h.findBuiltin_of_some hfind le_rfl)
    exact ⟨rfl, nofun⟩
  | none =>
    by_cases honce : (registered mem ds .builtin).Nodup
    · obtain rfl := Registry.findBuiltin_unique hfound (h.findBuiltin_of_nodup honce hfind le_rfl)
      exact ⟨rfl, fun _ => honce⟩
    · rw [getBuiltinModule_of_again h honce hfind] at hreturns
      cases hreturns

end World

/-- The lists and the lookups in a process whose native code has registered `ds`, in this
order and with repetitions, on the zero-initialised statics over the descriptors `mem`. -/
structure RegistrationLaw (mem : Ptr → XnodeModule) (ds : List Ptr) (w : World) : Prop where
  /-- A list is acyclic exactly if no descriptor of its kind has been registered twice. -/
  acyclic : ∀ k, w.registry.Acyclic k ↔ (registered mem ds k).Nodup
  /-- From its head exactly the latest registrations of the kind are reached, … -/
  reaches : ∀ k p, w.registry.Reaches k p ↔ p ∈ latest mem ds k
  /-- … which are all registered descriptors if none has been registered twice. -/
  all : ∀ k, (registered mem ds k).Nodup → ∀ p,
    w.registry.Reaches k p ↔ p ∈ ds ∧ moduleKind (mem p).nmFlags = k
  /-- A registration keeps on its list what was in front of the descriptor, if it was there, and
  otherwise everything; the other lists are as before. -/
  again : ∀ earlier p, ds = earlier ++ [p] → ∀ k q, w.registry.Reaches k q ↔
    if moduleKind (mem p).nmFlags = k then q = p ∨ q ∈ (latest mem earlier k).takeWhile (· ≠ p)
    else q ∈ latest mem earlier k
  /-- A lookup returns a module exactly if it is the most recent of the name among the latest
  builtin ones, … -/
  finds : ∀ name p, (∃ fuel w', w.getBuiltinModule fuel name = .ok (some p, w')) ↔
    latestBuiltin mem ds name = some p
  /-- … so that a name is found, whether it was before or not, exactly if one of these has it; … -/
  found : ∀ name, (∃ fuel p w', w.getBuiltinModule fuel name = .ok (some p, w')) ↔
    ∃ p ∈ latest mem ds .builtin, (mem p).nmModname = name
  /-- … it returns null exactly if none has it, and none has been registered twice; … -/
  misses : ∀ name, (∃ fuel w', w.getBuiltinModule fuel name = .ok (none, w')) ↔
    latestBuiltin mem ds name = none ∧ (registered mem ds .builtin).Nodup
  /-- … and it never returns exactly if none has it, and one has been. -/
  hangs : ∀ name, (∀ fuel, w.getBuiltinModule fuel name = .error .running) ↔
    latestBuiltin mem ds name = none ∧ ¬ (registered mem ds .builtin).Nodup
  /-- While no builtin module has been registered twice, every name is found for which something
  was found at any earlier time. -/
  keeps : (registered mem ds .builtin).Nodup → ∀ earlier later, ds = earlier ++ later →
    ∀ name fuel p w₁, (World.start ((Registry.empty mem).registerAll earlier)).getBuiltinModule
        fuel name = .ok (some p, w₁) →
      ∃ fuel' p' w', w.getBuiltinModule fuel' name = .ok (some p', w')

/-- What has been found once is among the latest modules as long as nothing is registered twice. -/
theorem exists_latest_of_earlier {earlier later : List Ptr} {p : Ptr} {fuel : ℕ} {w₁ : World}
    (honce : (registered mem (earlier ++ later) .builtin).Nodup)
    (h : (World.start ((Registry.empty mem).registerAll earlier)).getBuiltinModule fuel name =
      .ok (some p, w₁)) :
    ∃ q ∈ latest mem (earlier ++ later) .builtin, (mem q).nmModname = name := by
  have hthreaded : (World.start ((Registry.empty mem).registerAll earlier)).registry.Threaded mem
    earlier := Registry.threaded_registerAll
  obtain ⟨hfind, -⟩ := World.getBuiltinModule_of_latest hthreaded h
  obtain ⟨hp, hname⟩ := mem_of_latestBuiltin hfind.symm
  obtain ⟨hmem, hkind⟩ := mem_of_mem_latest hp
  rw [latest_of_nodup honce]
  exact ⟨p, mem_registered.mpr ⟨List.mem_append_left later hmem, hkind⟩, hname⟩

/-- Every run of registrations, with any repetitions, leaves the lists and the lookups as
the law says. -/
theorem registrationLaw (mem : Ptr → XnodeModule) (ds : List Ptr) :
    RegistrationLaw mem ds (World.start ((Registry.empty mem).registerAll ds)) := by
  have hthreaded : (World.start ((Registry.empty mem).registerAll ds)).registry.Threaded mem ds :=
    Registry.threaded_registerAll
  have hfinds : ∀ name p, (∃ fuel w', (World.start ((Registry.empty mem).registerAll
      ds)).getBuiltinModule fuel name = .ok (some p, w')) ↔
        latestBuiltin mem ds name = some p := by
    intro name p
    constructor
    · rintro ⟨fuel, w', h⟩
      exact (World.getBuiltinModule_of_latest hthreaded h).1.symm
    · intro hfind
      exact ⟨_, World.getBuiltinModule_of_some hthreaded hfind le_rfl⟩
  have hfound : ∀ name, (∃ fuel p w', (World.start ((Registry.empty mem).registerAll
      ds)).getBuiltinModule fuel name = .ok (some p, w')) ↔
        ∃ p ∈ latest mem ds .builtin, (mem p).nmModname = name := by
    intro name
    rw [exists_comm, ← latestBuiltin_isSome_iff, Option.isSome_iff_exists]
    exact exists_congr (hfinds name)
  refine {
    acyclic := fun k => hthreaded.acyclic_iff
    reaches := fun k p => hthreaded.reaches_iff
    all := ?_
    again := ?_
    finds := hfinds
    found := hfound
    misses := ?_
    hangs := ?_
    keeps := ?_ }
  · intro k honce p
    rw [hthreaded.reaches_iff, latest_of_nodup honce, mem_registered]
  · rintro earlier p rfl k q
    rw [hthreaded.reaches_iff, latest_concat]
    split_ifs
    · exact List.mem_cons
    · exact Iff.rfl
  · intro name
    constructor
    · rintro ⟨fuel, w', h⟩
      obtain ⟨hfind, honce⟩ := World.getBuiltinModule_of_latest hthreaded h
      exact ⟨hfind.symm, honce rfl⟩
    · rintro ⟨hfind, honce⟩
      exact ⟨_, World.getBuiltinModule_of_nodup hthreaded honce hfind le_rfl⟩
  · intro name
    constructor
    · intro hruns
      -- a lookup that finds something, or has no cycle in front of it, returns
      have hnone : latestBuiltin mem ds name = none := by
        by_contra hsome
        obtain ⟨p, hfind⟩ := Option.ne_none_iff_exists'.mp hsome
        obtain ⟨w', hreturns⟩ := World.getBuiltinModule_of_some hthreaded hfind le_rfl
        rw [hruns] at hreturns
        cases hreturns
      refine ⟨hnone, fun honce => ?_⟩
      obtain ⟨w', hreturns⟩ := World.getBuiltinModule_of_nodup hthreaded honce hnone le_rfl
      rw [hruns] at hreturns
      cases hreturns
    · rintro ⟨hfind, hagain⟩ fuel
      exact World.getBuiltinModule_of_again hthreaded hagain hfind
  · intro honce earlier later hds name fuel p w₁ hearlier
    rw [hfound, hds]
    exact exists_latest_of_earlier (hds ▸ honce) hearlier

/-- A second `RegisterBuiltinModules` call links `contextify` to itself: the lookup of
`natives`, which found nothing before, does not return any more. -/
theorem registerBuiltinModules_again :
    (∃ w, (World.start registerBuiltinModules).getBuiltinModule 1 natives = .ok (none, w)) ∧
      ¬ (registerBuiltinModules.registerAll [0]).Acyclic .builtin ∧
      ¬ ∃ fuel mod w, (World.start (registerBuiltinModules.registerAll [0])).getBuiltinModule
        fuel natives = .ok (mod, w) := by
  have htwice : registerBuiltinModules.registerAll [0] =
      (Registry.empty fun _ => contextifyModule).registerAll [0, 0] := rfl
  have hthreaded : (World.start ((Registry.empty fun _ => contextifyModule).registerAll
      [0, 0])).registry.Threaded (fun _ => contextifyModule) [0, 0] :=
    Registry.threaded_registerAll
  have hagain : ¬ (registered (fun _ => contextifyModule) [0, 0] .builtin).Nodup := by decide
  refine ⟨⟨_, rfl⟩, ?_, ?_⟩
  · rw [htwice]
    exact fun hacyclic => hagain (hthreaded.acyclic_iff.mp hacyclic)
  · rintro ⟨fuel, mod, w, hreturns⟩
    rw [htwice, World.getBuiltinModule_of_again hthreaded hagain (by decide)] at hreturns
    cases hreturns

end NodeMini
