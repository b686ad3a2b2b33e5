import NodeMini.Loaders.Binding

/-!
# Which module a name initialises

The loader caches by the whole JavaScript string; native code compares the C string in a
zero-terminated copy. Without a zero code unit the two agree, since the encoding loses
nothing. With one, the copy is cut, so several strings stand for one module.

## Main definitions

* `InitInv` — what a run of `process.binding` calls has initialised
* `NamesFaithful` — an answer identifies the string it was given for

## Main results

* `InitInv.step`, `initInv_run` — the invariant over whole runs
* `namesFaithful_iff` — names are faithful exactly without zeros and a module "natives"
-/

namespace NodeMini

open Lib

theorem zero_notMem_natives : (0 : UInt16) ∉ js "natives" := by decide

theorem utf8Value_eq_natives_iff {s : JsString} (h : (0 : UInt16) ∉ s) :
    utf8Value s = natives ↔ s = js "natives" :=
  utf8Value_inj h zero_notMem_natives

/-! ## What `GetBinding` initialises -/

section GetBinding

variable {fuel : ℕ} {w w' : World} {s : JsString} {v : JsValue}

open Classical in
/-- A call runs the register function of the module it finds, on a fresh object. That
object is the answer unless the C string is `"natives"`. -/
theorem World.getBinding_inits (h : w.getBinding fuel s = .ok (v, w')) :
    ∃ new, w'.inits = w.inits ++ new ∧
      new.map Init.requested = (if w.registry.Provides s then [s] else []) ∧
      (∀ i ∈ new, i.requested = s ∧ i.exports = w.objects ∧ i.exports < w'.objects ∧
        w.registry.findBuiltin fuel (utf8Value s) = some (some i.module)) ∧
      ∀ o, v = .object o → w.objects ≤ o ∧ o < w'.objects ∧
        (utf8Value s = natives ∧ (∀ i ∈ new, i.exports ≠ o) ∨
          utf8Value s ≠ natives ∧ ∃ i ∈ new, i.exports = o) := by
  obtain ⟨mod, hfound, -, -, hinits, -, -, hanswer⟩ := getBinding_cases h
  -- the new initialisation, if any, is the one of the module found
  refine ⟨_, hinits, ?_, ?_, ?_⟩
  · rw [Registry.provides_iff hfound]
    cases mod <;> simp
  · intro i hi
    obtain ⟨p, hp, rfl⟩ := List.mem_map.mp hi
    obtain rfl := Option.mem_toList.mp hp
    refine ⟨rfl, rfl, ?_, hfound⟩
    by_cases hn : utf8Value s = natives
    · rw [if_pos hn] at hanswer
      rw [hanswer.2]
      exact Nat.lt_succ_of_lt (Nat.lt_succ_self _)
    · rw [if_neg hn] at hanswer
      rw [hanswer.2]
      exact Nat.lt_succ_self _
  · rintro o rfl
    by_cases hn : utf8Value s = natives
    · -- the module's exports are dropped for a younger object
      rw [if_pos hn, JsValue.object.injEq] at hanswer
      obtain ⟨rfl, hobjects⟩ := hanswer
      refine ⟨Nat.le_add_right _ _, by simp [hobjects], Or.inl ⟨hn, ?_⟩⟩
      cases mod <;> simp
    · rw [if_neg hn] at hanswer
      cases mod with
      | none => simp at hanswer
      | some p =>
        obtain ⟨ho, hobjects⟩ := hanswer
        obtain rfl : o = w.objects := by simpa using ho
        exact ⟨Nat.le_refl _, by simp [hobjects], Or.inr ⟨hn, by simp⟩⟩

end GetBinding

/-! ## The invariant -/

open Classical in
/-- What has been initialised after a record of calls. -/
structure InitInv (L₀ : Loader) (record : BindingRecord) (L : Loader) : Prop where
  /-- Each initialised module was found under the C string of the request. -/
  found : ∀ i ∈ L.world.inits, ∃ fuel,
    L₀.world.registry.findBuiltin fuel (utf8Value i.requested) = some (some i.module)
  /-- Exports objects are among the objects allocated so far. -/
  allocated : ∀ i ∈ L.world.inits, i.exports < L.world.objects
  /-- The requests the cache forwards initialise one module each, if there is one. -/
  requests : ∃ new, L.world.inits = L₀.world.inits ++ new ∧
    new.map Init.requested =
      (forwarded L₀.world.registry.Knows record.names).filter L₀.world.registry.Provides
  /-- A cached object is the exports object of its own request, or the natives object. -/
  cached : ∀ s o, L.bindingObj s = .object o → o < L.world.objects ∧
    (utf8Value s = natives ∧ (∀ i ∈ L.world.inits, i.exports ≠ o) ∨
      utf8Value s ≠ natives ∧ (∃ i ∈ L.world.inits, i.exports = o) ∧
        ∀ i ∈ L.world.inits, i.exports = o → i.requested = s)

section Invariant

variable {fuel : ℕ} {L₀ L L' : Loader} {record : BindingRecord} {x : Option JsString}
  {v : Option JsValue} {xs : List (Option JsString)} {s : JsString}

theorem InitInv.throw (h : InitInv L₀ record L) : InitInv L₀ (record ++ [(none, v)]) L where
  found := h.found
  allocated := h.allocated
  requests := by simpa using h.requests
  cached := h.cached

theorem InitInv.hit (h : InitInv L₀ record L) (hb : BindingInv L₀ record L) {o : ObjectId}
    (hcached : L.bindingObj s = .object o) :
    InitInv L₀ (record ++ [(some s, some (.object o))]) L where
  found := h.found
  allocated := h.allocated
  requests := by
    rw [BindingRecord.names_concat_some, hb.forwarded_hit hcached]
    exact h.requests
  cached := h.cached

theorem InitInv.miss (h : InitInv L₀ record L) (hb : BindingInv L₀ record L) {u : JsValue}
    {w : World} (hcached : L.bindingObj s = .undefined)
    (hget : L.world.getBinding fuel s = .ok (u, w)) :
    InitInv L₀ (record ++ [(some s, some u)]) { L with
      world := w
      bindingObj := Function.update L.bindingObj s u
      moduleLoadList := L.moduleLoadList ++ [bindingEntry s] } := by
  obtain ⟨new, hinits, hrequested, hnew, hobject⟩ := World.getBinding_inits hget
  have hgrow := World.objects_le_of_getBinding hget
  rw [hb.registry] at hrequested hnew
  refine ⟨?_, ?_, ?_, ?_⟩
  · intro i hi
    rcases List.mem_append.mp (hinits ▸ hi) with hold | hi
    · exact h.found i hold
    · obtain ⟨rfl, -, -, hfound⟩ := hnew i hi
      exact ⟨fuel, hfound⟩
  · intro i hi
    rcases List.mem_append.mp (hinits ▸ hi) with hold | hi
    · exact Nat.lt_of_lt_of_le (h.allocated i hold) hgrow
    · exact (hnew i hi).2.2.1
  · -- a miss is forwarded, and initialises a module if there is one
    obtain ⟨before, hbefore, hfilter⟩ := h.requests
    refine ⟨before ++ new, by rw [hinits, hbefore, List.append_assoc], ?_⟩
    rw [BindingRecord.names_concat_some, hb.forwarded_miss hcached, List.map_append, hfilter,
      hrequested, List.filter_append]
    by_cases hp : L₀.world.registry.Provides s <;> simp [hp]
  · intro t o ht
    change Function.update L.bindingObj s u t = .object o at ht
    change _ ∧ (_ ∧ (∀ i ∈ w.inits, _) ∨ _ ∧ (∃ i ∈ w.inits, _) ∧ ∀ i ∈ w.inits, _)
    simp only [hinits, List.mem_append]
    by_cases hts : t = s
    · -- the answer of this call, which no older object is
      subst hts
      rw [Function.update_self] at ht
      obtain ⟨hlow, hhigh, hkind⟩ := hobject o ht
      have hold : ∀ i ∈ L.world.inits, i.exports ≠ o := fun i hi heq =>
        Nat.lt_irrefl _ (Nat.lt_of_lt_of_le (heq ▸ h.allocated i hi) hlow)
      refine ⟨hhigh, ?_⟩
      rcases hkind with ⟨hn, hother⟩ | ⟨hn, i, hi, hio⟩
      · exact Or.inl ⟨hn, fun i hi => hi.elim (hold i) (hother i)⟩
      · exact Or.inr ⟨hn, ⟨i, Or.inr hi, hio⟩,
          fun j hj hjo => hj.elim (fun hj => absurd hjo (hold j hj)) fun hj => (hnew j hj).1⟩
    · -- an older answer, which no new object is
      rw [Function.update_of_ne hts] at ht
      obtain ⟨hlt, hkind⟩ := h.cached t o ht
      have hother : ∀ i ∈ new, i.exports ≠ o := fun i hi heq =>
        Nat.ne_of_gt hlt ((hnew i hi).2.1.symm.trans heq)
      refine ⟨Nat.lt_of_lt_of_le hlt hgrow, ?_⟩
      rcases hkind with ⟨hn, hold⟩ | ⟨hn, ⟨i, hi, hio⟩, hunique⟩
      · exact Or.inl ⟨hn, fun i hi => hi.elim (hold i) (hother i)⟩
      · exact Or.inr ⟨hn, ⟨i, Or.inl hi, hio⟩,
          fun j hj hjo => hj.elim (fun hj => hunique j hj hjo) fun hj => absurd hjo (hother j hj)⟩

/-- Every call keeps the invariant. -/
theorem InitInv.step (h : InitInv L₀ record L) (hb : BindingInv L₀ record L)
    (hstep : L.processBinding fuel x = .ok (v, L')) : InitInv L₀ (record ++ [(x, v)]) L' := by
  rcases Loader.processBinding_cases hstep with
    ⟨rfl, rfl, rfl⟩ | ⟨s, o, rfl, rfl, hcached, rfl⟩ | ⟨s, u, w, rfl, rfl, hcached, hget, rfl⟩
  · exact h.throw
  · exact h.hit hb hcached
  · exact h.miss hb hcached hget

end Invariant

section Run

variable {fuel : ℕ} {r : Registry} {table : SourceTable} {L₀ L : Loader}
  {record : BindingRecord} {xs : List (Option JsString)}

/-- What the loader's own request for `"natives"` has initialised. -/
structure BootInits (L₀ : Loader) : Prop where
  requested : ∀ i ∈ L₀.world.inits, i.requested = js "natives"
  nodup : (L₀.world.inits.map Init.requested).Nodup
  provided : L₀.world.registry.Provides (js "natives") → ∃ i, i ∈ L₀.world.inits

theorem bootInits (h₀ : bootstrapLoaders fuel (World.start r) table = .ok L₀) :
    BootInits L₀ ∧ InitInv L₀ [] L₀ := by
  obtain ⟨v, w, hget, rfl⟩ := bootstrapLoaders_cases h₀
  obtain ⟨new, hinits, hrequested, hnew, -⟩ := World.getBinding_inits hget
  have hreg : w.registry = r := World.registry_of_getBinding hget
  replace hinits : w.inits = new := hinits
  constructor
  · refine ⟨?_, ?_, ?_⟩
    · intro i hi
      exact (hnew i (hinits ▸ hi)).1
    · have hnodup : (w.inits.map Init.requested).Nodup := by
        rw [hinits, hrequested]
        split <;> simp
      exact hnodup
    · intro hprovides
      rw [if_pos (hreg ▸ hprovides)] at hrequested
      obtain ⟨i, hi, -⟩ := List.mem_map.mp (hrequested ▸ List.mem_singleton_self (js "natives"))
      exact ⟨i, hinits ▸ hi⟩
  · refine ⟨?_, ?_, ⟨[], (List.append_nil _).symm, rfl⟩, ?_⟩
    · intro i hi
      obtain ⟨hname, -, -, hfound⟩ := hnew i (hinits ▸ hi)
      refine ⟨fuel, ?_⟩
      rw [hname]
      exact hreg ▸ hfound
    · intro i hi
      obtain ⟨-, -, hlt, -⟩ := hnew i (hinits ▸ hi)
      exact Nat.lt_succ_of_lt hlt
    · rintro s o ⟨⟩

/-- Both invariants hold after every run. -/
theorem initInv_run (h₀ : bootstrapLoaders fuel (World.start r) table = .ok L₀)
    (hrun : run (Loader.processBinding fuel) L₀ xs = .ok (record, L)) :
    BindingInv L₀ record L ∧ InitInv L₀ record L := by
  refine run_induction (motive := fun record L => BindingInv L₀ record L ∧ InitInv L₀ record L)
    ?_ ?_ hrun
  · rintro record L x v L' ⟨hb, h⟩ hstep
    exact ⟨hb.step hstep, h.step hb hstep⟩
  · obtain ⟨v, w, -, hL₀⟩ := bootstrapLoaders_cases h₀
    exact ⟨bindingInv_nil (by simp [hL₀]), (bootInits h₀).2⟩

end Run

/-! ## Faithful names -/

/-- Names cross into native code faithfully: a builtin module's exports answer only its
own name, the natives object only `"natives"`, and each module is initialised at most
once, for one string. -/
structure NamesFaithful (record : BindingRecord) (L : Loader) : Prop where
  exports : ∀ s o, (some s, some (.object o)) ∈ record → ∀ i ∈ L.world.inits, i.exports = o →
    Utf8.decodeUnits (L.world.registry.mem i.module).nmModname.bytes = some s
  nativesObject : ∀ s o, (some s, some (.object o)) ∈ record →
    (∀ i ∈ L.world.inits, i.exports ≠ o) → s = js "natives"
  oneName : ∀ i ∈ L.world.inits, ∀ j ∈ L.world.inits, i.module = j.module →
    i.requested = j.requested
  once : (L.world.inits.map Init.module).Nodup

/-- A name that crosses faithfully: it has no zero code unit, and it does not initialise
the module that the loader's own evaluation has initialised. -/
def Registry.NameFaithful (r : Registry) (s : JsString) : Prop :=
  (0 : UInt16) ∉ s ∧ ¬ (s = js "natives" ∧ r.Provides s)

section Law

variable {fuel : ℕ} {r : Registry} {table : SourceTable} {L₀ L : Loader}
  {record : BindingRecord} {xs : List (Option JsString)}

/-- The module of an initialisation has the C string of the request for its name. -/
theorem InitInv.nmModname_eq (h : InitInv L₀ record L) {i : Init} (hi : i ∈ L.world.inits) :
    (L₀.world.registry.mem i.module).nmModname = utf8Value i.requested := by
  obtain ⟨fuel, hfound⟩ := h.found i hi
  exact Registry.nmModname_of_findBuiltin hfound

/-- With faithful names, no string initialises twice and none is cut. -/
theorem InitInv.requested_nodup (h : InitInv L₀ record L) (hboot : BootInits L₀)
    (hnames : ∀ s ∈ record.names, L₀.world.registry.Knows s → L₀.world.registry.NameFaithful s) :
    (L.world.inits.map Init.requested).Nodup ∧
      ∀ i ∈ L.world.inits, (0 : UInt16) ∉ i.requested := by
  classical
  obtain ⟨new, hinits, hnew⟩ := h.requests
  -- what the run has initialised was requested, for a module that exists
  have hfaithful : ∀ s ∈ new.map Init.requested,
      L₀.world.registry.NameFaithful s ∧ L₀.world.registry.Provides s := by
    intro s hs
    rw [hnew] at hs
    obtain ⟨hforwarded, hprovides⟩ := List.mem_filter.mp hs
    have hprovides := of_decide_eq_true hprovides
    exact ⟨hnames s (mem_forwarded.mp hforwarded) (Or.inl hprovides), hprovides⟩
  constructor
  · rw [hinits, List.map_append, List.nodup_append']
    refine ⟨hboot.nodup, ?_, ?_⟩
    · rw [hnew]
      exact filter_forwarded_nodup fun s hs => Or.inl (of_decide_eq_true hs)
    · -- only `"natives"` could have been initialised before the run
      intro s hs hs'
      obtain ⟨i, hi, rfl⟩ := List.mem_map.mp hs
      exact (hfaithful _ hs').1.2 ⟨hboot.requested i hi, (hfaithful _ hs').2⟩
  · intro i hi
    rcases List.mem_append.mp (hinits ▸ hi) with hold | hi
    · rw [hboot.requested i hold]
      exact zero_notMem_natives
    · exact (hfaithful _ (List.mem_map_of_mem hi)).1.1

/-- A run of faithful names. -/
theorem InitInv.namesFaithful (h : InitInv L₀ record L) (hb : BindingInv L₀ record L)
    (hboot : BootInits L₀)
    (hnames : ∀ s ∈ record.names, L₀.world.registry.Knows s → L₀.world.registry.NameFaithful s) :
    NamesFaithful record L := by
  obtain ⟨hnodup, hzero⟩ := h.requested_nodup hboot hnames
  -- one module has one C string for its name, and without zeros that is one string
  have hone : ∀ i ∈ L.world.inits, ∀ j ∈ L.world.inits, i.module = j.module →
      i.requested = j.requested := by
    intro i hi j hj heq
    apply (utf8Value_inj (hzero i hi) (hzero j hj)).mp
    rw [← h.nmModname_eq hi, ← h.nmModname_eq hj, heq]
  -- an answer that is an object was cached, for a known name of the record
  have hanswer : ∀ s o, (some s, some (.object o)) ∈ record →
      L.bindingObj s = .object o ∧ (0 : UInt16) ∉ s := by
    intro s o hmem
    have hcached : L.bindingObj s = .object o := (Option.some.inj (hb.answers s _ hmem)).symm
    obtain ⟨hname, hknown⟩ := (hb.cached s).mp ⟨o, hcached⟩
    exact ⟨hcached, (hnames s hname hknown).1⟩
  refine ⟨?_, ?_, hone, ?_⟩
  · intro s o hmem i hi hio
    obtain ⟨hcached, hs⟩ := hanswer s o hmem
    rcases (h.cached s o hcached).2 with ⟨-, hother⟩ | ⟨-, -, hunique⟩
    · exact absurd hio (hother i hi)
    · obtain rfl := hunique i hi hio
      rw [hb.registry, h.nmModname_eq hi]
      exact decodeUnits_utf8Value_iff.mpr hs
  · intro s o hmem hother
    obtain ⟨hcached, hs⟩ := hanswer s o hmem
    rcases (h.cached s o hcached).2 with ⟨hn, -⟩ | ⟨-, ⟨i, hi, hio⟩, -⟩
    · exact (utf8Value_eq_natives_iff hs).mp hn
    · exact absurd hio (hother i hi)
  · refine hnodup.of_map.map_on ?_
    intro i hi j hj heq
    exact List.inj_on_of_nodup_map hnodup hi hj (hone i hi j hj heq)

/-- A name whose answer is faithful has no zero code unit. -/
theorem NamesFaithful.zero_notMem (hlaw : NamesFaithful record L) (h : InitInv L₀ record L)
    (hb : BindingInv L₀ record L) {s : JsString} (hs : s ∈ record.names)
    (hknown : L₀.world.registry.Knows s) : (0 : UInt16) ∉ s := by
  obtain ⟨v, hmem⟩ := BindingRecord.mem_names.mp hs
  obtain ⟨o, ho⟩ := (hb.cached s).mpr ⟨hs, hknown⟩
  obtain rfl : v = some (.object o) := by rw [hb.answers s v hmem, ho]
  -- the answer was the natives object or the exports of a module
  rcases (h.cached s o ho).2 with ⟨-, hother⟩ | ⟨-, ⟨i, hi, hio⟩, hunique⟩
  · rw [hlaw.nativesObject s o hmem hother]
    exact zero_notMem_natives
  · have hspelled := hlaw.exports s o hmem i hi hio
    rw [hb.registry, h.nmModname_eq hi, hunique i hi hio] at hspelled
    exact decodeUnits_utf8Value_iff.mp hspelled

/-- A module named `"natives"` is initialised by the loader's own evaluation, and again
by a request for it. -/
theorem NamesFaithful.not_natives (hlaw : NamesFaithful record L) (h : InitInv L₀ record L)
    (hboot : BootInits L₀) (hs : js "natives" ∈ record.names) :
    ¬ L₀.world.registry.Provides (js "natives") := by
  classical
  intro hprovides
  obtain ⟨new, hinits, hnew⟩ := h.requests
  obtain ⟨i, hi⟩ := hboot.provided hprovides
  have hagain : js "natives" ∈ new.map Init.requested := by
    rw [hnew]
    exact List.mem_filter.mpr ⟨mem_forwarded.mpr hs, decide_eq_true hprovides⟩
  obtain ⟨j, hj, hname⟩ := List.mem_map.mp hagain
  -- both were found under one C string, so they are one module
  obtain ⟨fuel, hfound⟩ := h.found i (hinits ▸ List.mem_append_left _ hi)
  obtain ⟨fuel', hfound'⟩ := h.found j (hinits ▸ List.mem_append_right _ hj)
  rw [hboot.requested i hi] at hfound
  rw [hname] at hfound'
  have hsame : i.module = j.module :=
    Option.some.inj (Registry.findBuiltin_unique hfound hfound')
  have honce := hlaw.once
  rw [hinits, List.map_append, List.nodup_append'] at honce
  exact honce.2.2 (List.mem_map_of_mem hi) (hsame ▸ List.mem_map_of_mem hj)

/-- **Binding names cross into native code faithfully**, and exactly when they do. Over
any registry and any run of `process.binding` calls, names are faithful if and only if
every requested name that `GetBinding` knows has no zero code unit and is not `"natives"`
in a registry with a module of that name. -/
theorem namesFaithful_iff (fuel : ℕ) (r : Registry) (table : SourceTable) (L₀ : Loader)
    (h₀ : bootstrapLoaders fuel (World.start r) table = .ok L₀) (xs : List (Option JsString))
    (record : BindingRecord) (L : Loader)
    (hrun : run (Loader.processBinding fuel) L₀ xs = .ok (record, L)) :
    NamesFaithful record L ↔ ∀ s, some s ∈ xs → r.Knows s → r.NameFaithful s := by
  obtain ⟨hb, h⟩ := initInv_run h₀ hrun
  have hboot := (bootInits h₀).1
  have hreg : L₀.world.registry = r := registry_of_bootstrapLoaders h₀
  have hnames : ∀ s, some s ∈ xs ↔ s ∈ record.names := by
    intro s
    rw [names_of_run hrun]
    simp
  simp only [hnames, ← hreg]
  constructor
  · intro hlaw s hs hknown
    refine ⟨hlaw.zero_notMem h hb hs hknown, ?_⟩
    rintro ⟨rfl, hprovides⟩
    exact hlaw.not_natives h hboot hs hprovides
  · exact h.namesFaithful hb hboot

/-- `"contextify"` and `"contextify\x00"` name one module, which is initialised twice. -/
theorem not_namesFaithful_contextify_zero :
    ∃ L₀ record L,
      bootstrapLoaders 1 (World.start registerBuiltinModules) .empty = .ok L₀ ∧
      run (Loader.processBinding 1) L₀
        [some (js "contextify"), some (js "contextify" ++ [0])] = .ok (record, L) ∧
      L.world.inits.map Init.module = [0, 0] ∧
      L.world.inits.map Init.requested = [js "contextify", js "contextify" ++ [0]] ∧
      ¬ NamesFaithful record L := by
  refine ⟨_, _, _, rfl, rfl, rfl, rfl, ?_⟩
  intro hlaw
  exact absurd hlaw.once (by decide)

theorem namesFaithful_contextify_fs :
    ∃ L₀ record L,
      bootstrapLoaders 1 (World.start registerBuiltinModules) .empty = .ok L₀ ∧
      run (Loader.processBinding 1) L₀ [some (js "contextify"), some (js "fs")] = .ok (record, L) ∧
      NamesFaithful record L := by
  obtain ⟨L₀, record, L, h₀, hrun⟩ : ∃ L₀ record L,
      bootstrapLoaders 1 (World.start registerBuiltinModules) .empty = .ok L₀ ∧
      run (Loader.processBinding 1) L₀ [some (js "contextify"), some (js "fs")] =
        .ok (record, L) := ⟨_, _, _, rfl, rfl⟩
  refine ⟨L₀, record, L, h₀, hrun, (namesFaithful_iff 1 _ _ L₀ h₀ _ record L hrun).mpr ?_⟩
  intro s hs _
  have hcases : s = js "contextify" ∨ s = js "fs" := by simpa using hs
  rcases hcases with rfl | rfl <;> exact ⟨by decide, fun h => absurd h.1 (by decide)⟩

end Law

end NodeMini
