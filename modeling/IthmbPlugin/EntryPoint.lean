import IthmbPlugin.State
import IthmbPlugin.Library.Runs
import Mathlib.Logic.Function.Basic

/-!
# The entry point and its racing callers

`ig_plugin_get_api` as one function, and as the steps that any number of
callers interleave: the tests, the store of the host pointer, one step for each
cell of `ensure_initialized`, and the read of the finished state. Each closure
may panic, which ends its call with a null table. A call is kept after its
return with what it returned.
-/

set_option autoImplicit false

namespace IthmbPlugin.EntryPoint
open IthmbPlugin.Types IthmbPlugin.State IthmbPlugin.Registry IthmbPlugin.OnceCell
open IthmbPlugin.Runs

/-- The tests of the entry point, in their order. -/
def checkHost (hostAbiVersion : Int32) (hostApi : Option HostApiPtr) : Option HostApiPtr :=
  if hostAbiVersion / 1000000 ≠ igPluginAbiVersion / 1000000 then none
  else match hostApi with
    | none => none
    | some host =>
      if host.api.structSize < Int32.ofNat sizeOfIGHostApi then none else some host

def storeHost (host : HostApiPtr) (st : Statics) : Statics :=
  { st with hostApi := set st.hostApi host }

def igPluginGetApi (layout : StaticLayout) (o : InitOutcomes) (hostAbiVersion : Int32)
    (hostApi : Option HostApiPtr) (st : Statics) : Option IGPluginApi × Statics :=
  match checkHost hostAbiVersion hostApi with
  | none => (none,st)
  | some host =>
    match ensureInitialized layout o (storeHost host st) with
    | (false,st) => (none,st)
    | (true,st) => (st.pluginState.map PluginState.pluginApi,st)

def pluginGetCodec (st : Statics) (index : Int32) (codec : Option (Option IGCodecApi)) :
    IGStatus × Option (Option IGCodecApi) :=
  match codec with
  | none => (.invalidArg,none)
  | some old =>
    if index ≠ 0 then (.ok,some none)
    else match st.pluginState with
      | none => (.internal,some old)
      | some state => (.ok,some (some state.codecApi))

def codecGetCapability (st : Statics) (cap : Option (Option IGCodecCapability)) :
    IGStatus × Option (Option IGCodecCapability) :=
  match cap with
  | none => (.invalidArg,none)
  | some old =>
    match st.capability with
    | none => (.internal,some old)
    | some capability => (.ok,some (some capability))

abbrev CallId := ℕ

inductive Pc where
  | entered
  | storing (host : HostApiPtr)
  | extensions
  | state
  | capability
  | registry
  | finishing
  | returned (api : Option IGPluginApi)
  deriving DecidableEq

structure Entry where
  version : Int32
  host : Option HostApiPtr
  pc : Pc
  deriving DecidableEq

structure Plugin where
  statics : Statics
  calls : CallId → Option Entry

def Plugin.loaded : Plugin where
  statics := .unset
  calls := fun _ => none

/-- Where a call goes after a cell: on, or out with a null table. -/
def Pc.after (cell : Bool) (next : Pc) : Pc := if cell then next else .returned none

def advance (layout : StaticLayout) (o : InitOutcome) (st : Statics) (e : Entry) :
    Option (Statics × Pc) :=
  match e.pc with
  | .entered =>
    match checkHost e.version e.host with
    | none => some (st,.returned none)
    | some host => some (st,.storing host)
  | .storing host => some (storeHost host st,.extensions)
  | .extensions =>
    let st := initExtensions layout o st
    some (st,.after st.pluginExtensions.isSome .state)
  | .state =>
    let st := initState o st
    some (st,.after st.pluginState.isSome .capability)
  | .capability =>
    let st := initCapability o st
    some (st,.after st.capability.isSome .registry)
  | .registry =>
    let st := initRegistry o st
    some (st,.after st.bufferRegistry.isSome .finishing)
  | .finishing => some (st,.returned (st.pluginState.map PluginState.pluginApi))
  | .returned _ => none

/-- `useRegistry` is what decode and free calls do to the content of the last
cell meanwhile. -/
inductive Action where
  | call (c : CallId) (version : Int32) (host : Option HostApiPtr)
  | advance (c : CallId) (o : InitOutcome)
  | useRegistry (r : BufferRegistry)

def step (layout : StaticLayout) (w : Plugin) : Action → Option Plugin
  | .call c version host =>
    match w.calls c with
    | some _ => none
    | none => some { w with calls := Function.update w.calls c (some ⟨version, host, .entered⟩) }
  | .advance c o =>
    match w.calls c with
    | none => none
    | some e => (advance layout o w.statics e).map fun (st,pc) =>
      { statics := st, calls := Function.update w.calls c (some { e with pc := pc }) }
  | .useRegistry r =>
    match w.statics.bufferRegistry with
    | none => none
    | some _ => some { w with statics := { w.statics with bufferRegistry := some r } }

def Compatible (version : Int32) (host : Option HostApiPtr) : Prop :=
  (1000000 ≤ version.toInt ∧ version.toInt ≤ 1999999) ∧
  ∃ ptr, host = some ptr ∧ (sizeOfIGHostApi:ℤ) ≤ ptr.api.structSize.toInt

theorem major_version (v : Int32) :
    v / 1000000 = igPluginAbiVersion / 1000000 ↔ 1000000 ≤ v.toInt ∧ v.toInt ≤ 1999999 := by
  have hone : (igPluginAbiVersion / 1000000).toInt = 1 := by decide
  have hdiv : (v / 1000000).toInt = v.toInt.tdiv 1000000 :=
    Int32.toInt_div_of_ne_right v 1000000 (by decide)
  rw [← Int32.toInt_inj, hone, hdiv]
  rcases Int.le_total 0 v.toInt with hv | hv
  · rw [Int.tdiv_eq_ediv_of_nonneg hv]
    omega
  · have hneg : v.toInt.tdiv 1000000 = -(-v.toInt).tdiv 1000000 := by
      rw [Int.neg_tdiv, neg_neg]
    have hpos : 0 ≤ (-v.toInt).tdiv 1000000 := Int.tdiv_nonneg (by omega) (by decide)
    omega

theorem checkHost_some_iff (version : Int32) (host : Option HostApiPtr) :
    (checkHost version host).isSome = true ↔ Compatible version host := by
  unfold checkHost Compatible
  rw [← major_version]
  by_cases hv : version / 1000000 = igPluginAbiVersion / 1000000
  · cases host with
    | none => simp
    | some ptr =>
      have hsize : (Int32.ofNat sizeOfIGHostApi).toInt = sizeOfIGHostApi := by decide
      by_cases hs : ptr.api.structSize < Int32.ofNat sizeOfIGHostApi
      · have hlt := Int32.lt_iff_toInt_lt.mp hs
        simp [hv, hs]
        omega
      · have hle := mt Int32.lt_iff_toInt_lt.mpr hs
        simp [hv, hs]
        omega
  · simp [hv]

def cellSet (st : Statics) : ℕ → Bool
  | 0 => st.hostApi.isSome
  | 1 => st.pluginExtensions.isSome
  | 2 => st.pluginState.isSome
  | 3 => st.capability.isSome
  | 4 => st.bufferRegistry.isSome
  | _ => true

def FilledTo (n : ℕ) (st : Statics) : Prop := ∀ i, i < n → cellSet st i = true

theorem filledTo_zero (st : Statics) : FilledTo 0 st := fun _ hi => absurd hi (Nat.not_lt_zero _)

theorem FilledTo.succ {n : ℕ} {st : Statics} (h : FilledTo n st) (hn : cellSet st n = true) :
    FilledTo (n+1) st := by
  intro i hi
  rcases Nat.lt_succ_iff_lt_or_eq.mp hi with hlt | rfl
  · exact h i hlt
  · exact hn

structure Grows (st st' : Statics) : Prop where
  hostApi : Extends st.hostApi st'.hostApi
  pluginExtensions : Extends st.pluginExtensions st'.pluginExtensions
  pluginState : Extends st.pluginState st'.pluginState
  capability : Extends st.capability st'.capability
  bufferRegistry : st.bufferRegistry.isSome = true → st'.bufferRegistry.isSome = true

theorem Grows.refl (st : Statics) : Grows st st :=
  ⟨extends_refl _, extends_refl _, extends_refl _, extends_refl _, id⟩

theorem FilledTo.grows {n : ℕ} {st st' : Statics} (h : FilledTo n st) (hg : Grows st st') :
    FilledTo n st' := by
  intro i hi
  have hset := h i hi
  match i with
  | 0 => exact hg.hostApi.isSome hset
  | 1 => exact hg.pluginExtensions.isSome hset
  | 2 => exact hg.pluginState.isSome hset
  | 3 => exact hg.capability.isSome hset
  | 4 => exact hg.bufferRegistry hset
  | _+5 => rfl

/-- The content of the cells: the capability was built from the state and the
extensions that are there. -/
structure Sound (layout : StaticLayout) (st : Statics) : Prop where
  pluginExtensions : ∀ e, st.pluginExtensions = some e → e = extensionsArray layout
  pluginState : ∀ s, st.pluginState = some s → ∃ addrs, s = initPluginState addrs
  capability : ∀ cap, st.capability = some cap → ∃ s e, st.pluginState = some s ∧
    st.pluginExtensions = some e ∧ cap = buildCapability (some s) (some e)

def Pc.cells : Pc → ℕ
  | .entered => 0
  | .storing _ => 0
  | .extensions => 1
  | .state => 2
  | .capability => 3
  | .registry => 4
  | .finishing => 5
  | .returned none => 0
  | .returned (some _) => 5

def Pc.Tested : Pc → Prop
  | .entered => False
  | .returned none => False
  | _ => True

structure Known (st : Statics) (e : Entry) : Prop where
  filled : FilledTo e.pc.cells st
  tested : e.pc.Tested → Compatible e.version e.host
  table : ∀ api, e.pc = .returned (some api) → st.pluginState.map PluginState.pluginApi = some api

theorem Known.grows {st st' : Statics} {e : Entry} (h : Known st e) (hg : Grows st st') :
    Known st' e where
  filled := h.filled.grows hg
  tested := h.tested
  table api hpc := by
    obtain ⟨s, hs, hapi⟩ := Option.map_eq_some_iff.mp (h.table api hpc)
    rw [hg.pluginState s hs, Option.map_some, hapi]

section Cells
variable {layout : StaticLayout} (o : InitOutcome) {st : Statics}

theorem storeHost_grows (host : HostApiPtr) : Grows st (storeHost host st) :=
  { Grows.refl st with hostApi := extends_set _ _ }

theorem initExtensions_grows : Grows st (initExtensions layout o st) :=
  { Grows.refl st with pluginExtensions := extends_getOrInit _ _ }

theorem initState_grows : Grows st (initState o st) :=
  { Grows.refl st with pluginState := extends_getOrInit _ _ }

theorem initCapability_grows : Grows st (initCapability o st) :=
  { Grows.refl st with capability := extends_getOrInit _ _ }

theorem initRegistry_grows : Grows st (initRegistry o st) :=
  { Grows.refl st with
    bufferRegistry := fun h => by
      obtain ⟨r, hr⟩ := Option.isSome_iff_exists.mp h
      rw [initRegistry, hr]
      rfl }

theorem initExtensions_sound (h : Sound layout st) : Sound layout (initExtensions layout o st) where
  pluginExtensions e he := by
    rcases getOrInit_cases he with hold | ⟨-, hnew⟩
    · exact h.pluginExtensions e hold
    · cases o with
      | panics => cases hnew
      | completes addrs => exact (Option.some.inj hnew).symm
  pluginState := h.pluginState
  capability cap hcap := by
    obtain ⟨s, e, hs, he, hc⟩ := h.capability cap hcap
    have hg : Grows st (initExtensions layout o st) := initExtensions_grows o
    exact ⟨s, e, hs, hg.pluginExtensions e he, hc⟩

theorem initState_sound (h : Sound layout st) : Sound layout (initState o st) where
  pluginExtensions := h.pluginExtensions
  pluginState s hs := by
    rcases getOrInit_cases hs with hold | ⟨-, hnew⟩
    · exact h.pluginState s hold
    · cases o with
      | panics => cases hnew
      | completes addrs => exact ⟨addrs, (Option.some.inj hnew).symm⟩
  capability cap hcap := by
    obtain ⟨s, e, hs, he, hc⟩ := h.capability cap hcap
    exact ⟨s, e, (initState_grows o).pluginState s hs, he, hc⟩

theorem initCapability_sound (h : Sound layout st) (hf : FilledTo 3 st) :
    Sound layout (initCapability o st) where
  pluginExtensions := h.pluginExtensions
  pluginState := h.pluginState
  capability cap hcap := by
    rcases getOrInit_cases hcap with hold | ⟨-, hnew⟩
    · exact h.capability cap hold
    · obtain ⟨s, hs⟩ := Option.isSome_iff_exists.mp (hf 2 (by decide))
      obtain ⟨e, he⟩ := Option.isSome_iff_exists.mp (hf 1 (by decide))
      refine ⟨s, e, hs, he, ?_⟩
      rw [hs, he] at hnew
      cases o with
      | panics => cases hnew
      | completes addrs => exact (Option.some.inj hnew).symm

end Cells

theorem known_after {st : Statics} {version : Int32} {host : Option HostApiPtr} {cell : Bool}
    {next : Pc} (hc : Compatible version host) (hnext : ∀ api, next ≠ .returned api)
    (hf : cell = true → FilledTo next.cells st) : Known st ⟨version, host, .after cell next⟩ := by
  cases cell with
  | true =>
    refine ⟨hf rfl, fun _ => hc, ?_⟩
    intro api hpc
    exact absurd hpc (hnext _)
  | false => exact ⟨filledTo_zero st, fun h => h.elim, fun api hpc => (by cases hpc)⟩

/-- Everything one step of a call does: cells are filled and nothing else, the
call knows what it has filled, and a call whose tests fail fills nothing. -/
theorem advance_spec {layout : StaticLayout} {o : InitOutcome} {st st' : Statics} {e : Entry}
    {pc : Pc} (hs : Sound layout st) (hk : Known st e)
    (h : advance layout o st e = some (st',pc)) :
    Grows st st' ∧ Sound layout st' ∧ Known st' { e with pc := pc } ∧
      (¬ Compatible e.version e.host → st' = st) := by
  obtain ⟨version, host, pc₀⟩ := e
  have hc : pc₀.Tested → Compatible version host := hk.tested
  have hf : FilledTo pc₀.cells st := hk.filled
  cases pc₀ with
  | entered =>
    simp only [advance] at h
    cases hcheck : checkHost version host with
    | none =>
      rw [hcheck] at h
      cases h
      exact ⟨Grows.refl st, hs, ⟨hf, fun h => h.elim, fun api hpc => (by cases hpc)⟩, fun _ => rfl⟩
    | some ptr =>
      rw [hcheck] at h
      cases h
      have hcompat : Compatible version host :=
        (checkHost_some_iff version host).mp (by rw [hcheck]; rfl)
      exact ⟨Grows.refl st, hs, ⟨hf, fun _ => hcompat, fun api hpc => (by cases hpc)⟩,
        fun _ => rfl⟩
  | storing ptr =>
    cases h
    have hg : Grows st (storeHost ptr st) := storeHost_grows ptr
    exact ⟨hg, ⟨hs.1, hs.2, hs.3⟩, ⟨(hf.grows hg).succ (set_isSome _ _), fun _ => hc trivial,
      fun api hpc => (by cases hpc)⟩, fun hn => absurd (hc trivial) hn⟩
  | extensions =>
    cases h
    have hg : Grows st (initExtensions layout o st) := initExtensions_grows o
    exact ⟨hg, initExtensions_sound o hs, known_after (hc trivial) (by simp) (hf.grows hg).succ,
      fun hn => absurd (hc trivial) hn⟩
  | state =>
    cases h
    have hg : Grows st (initState o st) := initState_grows o
    exact ⟨hg, initState_sound o hs, known_after (hc trivial) (by simp) (hf.grows hg).succ,
      fun hn => absurd (hc trivial) hn⟩
  | capability =>
    cases h
    have hg : Grows st (initCapability o st) := initCapability_grows o
    exact ⟨hg, initCapability_sound o hs hf, known_after (hc trivial) (by simp)
      (hf.grows hg).succ, fun hn => absurd (hc trivial) hn⟩
  | registry =>
    cases h
    have hg : Grows st (initRegistry o st) := initRegistry_grows o
    exact ⟨hg, ⟨hs.1, hs.2, hs.3⟩, known_after (hc trivial) (by simp) (hf.grows hg).succ,
      fun hn => absurd (hc trivial) hn⟩
  | finishing =>
    cases h
    obtain ⟨s, hstate⟩ := Option.isSome_iff_exists.mp (hf 2 (by decide))
    rw [hstate]
    refine ⟨Grows.refl st, hs, ⟨hf, fun _ => hc trivial, ?_⟩, fun _ => rfl⟩
    intro api hpc
    cases hpc
    exact congrArg (Option.map PluginState.pluginApi) hstate
  | returned api => cases h

structure Ordered (layout : StaticLayout) (w : Plugin) : Prop where
  sound : Sound layout w.statics
  known : ∀ c e, w.calls c = some e → Known w.statics e

theorem loaded_ordered (layout : StaticLayout) : Ordered layout .loaded where
  sound := ⟨fun e h => (by cases h), fun s h => (by cases h), fun cap h => (by cases h)⟩
  known c e h := by cases h

theorem update_call {calls : CallId → Option Entry} {c d : CallId} {e e' : Entry}
    (h : Function.update calls c (some e) d = some e') : e' = e ∨ calls d = some e' := by
  by_cases hd : d = c
  · rw [hd, Function.update_self] at h
    exact Or.inl (Option.some.inj h).symm
  · rw [Function.update_of_ne hd] at h
    exact Or.inr h

theorem step_ordered {layout : StaticLayout} (w : Plugin) (a : Action) (w' : Plugin)
    (h : Ordered layout w) (hs : step layout w a = some w') : Ordered layout w' := by
  cases a with
  | call c version host =>
    simp only [step] at hs
    split at hs
    · cases hs
    · cases hs
      refine ⟨h.sound, ?_⟩
      intro d e he
      rcases update_call he with rfl | he
      · exact ⟨filledTo_zero _, fun ht => ht.elim, fun api hpc => (by cases hpc)⟩
      · exact h.known d e he
  | advance c o =>
    simp only [step] at hs
    split at hs
    · cases hs
    · next e hc =>
      obtain ⟨⟨st,pc⟩, hadv, rfl⟩ := Option.map_eq_some_iff.mp hs
      obtain ⟨hg, hsound, hknown, -⟩ := advance_spec h.sound (h.known c e hc) hadv
      refine ⟨hsound, ?_⟩
      intro d e' he
      rcases update_call he with rfl | he
      · exact hknown
      · exact (h.known d e' he).grows hg
  | useRegistry r =>
    simp only [step] at hs
    split at hs
    · cases hs
    · cases hs
      have hg : Grows w.statics { w.statics with bufferRegistry := some r } :=
        { Grows.refl w.statics with bufferRegistry := fun _ => rfl }
      exact ⟨⟨h.sound.1, h.sound.2, h.sound.3⟩, fun c e he => (h.known c e he).grows hg⟩

theorem reached_ordered {layout : StaticLayout} {w : Plugin}
    (h : Reached (step layout) (fun _ _ => True) .loaded w) : Ordered layout w :=
  reached_invariant (loaded_ordered layout) (fun w a w' hw _ hs => step_ordered w a w' hw hs) h

/-- What a caller that holds the table can rely on. -/
structure Usable (st : Statics) (api : IGPluginApi) : Prop where
  hostApi : st.hostApi.isSome = true
  pluginExtensions : st.pluginExtensions.isSome = true
  pluginState : st.pluginState.isSome = true
  capability : st.capability.isSome = true
  table : st.pluginState.map PluginState.pluginApi = some api
  registry : ∃ r, st.bufferRegistry = some r
  getCodec : ∀ index codec, (pluginGetCodec st index codec).1 ≠ .internal
  getCapability : ∀ cap, (codecGetCapability st cap).1 ≠ .internal

theorem usable_of_returned {st : Statics} {e : Entry} {api : IGPluginApi} (hk : Known st e)
    (hpc : e.pc = .returned (some api)) : Usable st api := by
  have hf : FilledTo 5 st := by
    have hfilled := hk.filled
    rw [hpc] at hfilled
    exact hfilled
  obtain ⟨state, hstate⟩ := Option.isSome_iff_exists.mp (hf 2 (by decide))
  obtain ⟨cap, hcap⟩ := Option.isSome_iff_exists.mp (hf 3 (by decide))
  refine ⟨hf 0 (by decide), hf 1 (by decide), hf 2 (by decide), hf 3 (by decide),
    hk.table api hpc, Option.isSome_iff_exists.mp (hf 4 (by decide)), ?_, ?_⟩
  · intro index codec
    cases codec with
    | none => simp [pluginGetCodec]
    | some old =>
      by_cases hi : index ≠ 0
      · simp [pluginGetCodec, hi]
      · simp [pluginGetCodec, hi, hstate]
  · intro slot
    cases slot with
    | none => simp [codecGetCapability]
    | some old => simp [codecGetCapability, hcap]

theorem extensions_of_returned {layout : StaticLayout} {w : Plugin}
    (h : Reached (step layout) (fun _ _ => True) .loaded w) {c : CallId} {e : Entry}
    {api : IGPluginApi} (hc : w.calls c = some e) (hpc : e.pc = .returned (some api)) :
    w.statics.pluginExtensions = some (extensionsArray layout) := by
  have ho := reached_ordered h
  have hset := (usable_of_returned (ho.known c e hc) hpc).pluginExtensions
  obtain ⟨exts, hexts⟩ := Option.isSome_iff_exists.mp hset
  rw [hexts, ho.sound.pluginExtensions exts hexts]

/-- The entry point in any state any interleaving can reach. A table is
returned only to a caller whose tests pass, and a call whose tests fail changes
no cell. All tables are one, and with the first of them every cell is set, so
nothing reached through the table finds one missing. The capability is set only
after the state its references point into, and from it. -/
theorem entry_safe (layout : StaticLayout) (w : Plugin)
    (h : Reached (step layout) (fun _ _ => True) .loaded w) :
    (∀ c e api, w.calls c = some e → e.pc = .returned (some api) → Compatible e.version e.host) ∧
    (∀ c e o w', w.calls c = some e → ¬ Compatible e.version e.host →
      step layout w (.advance c o) = some w' → w'.statics = w.statics) ∧
    (∀ c d e e' api api', w.calls c = some e → w.calls d = some e' →
      e.pc = .returned (some api) → e'.pc = .returned (some api') → api = api') ∧
    (∀ c e api, w.calls c = some e → e.pc = .returned (some api) → Usable w.statics api) ∧
    (∀ cap, w.statics.capability = some cap → ∃ s exts, w.statics.pluginState = some s ∧
      w.statics.pluginExtensions = some exts ∧ cap = buildCapability (some s) (some exts)) := by
  have ho := reached_ordered h
  refine ⟨?_, ?_, ?_, ?_, ho.sound.capability⟩
  · intro c e api hc hpc
    exact (ho.known c e hc).tested (by rw [hpc]; trivial)
  · intro c e o w' hc hcompat hs
    simp only [step, hc] at hs
    obtain ⟨⟨st,pc⟩, hadv, rfl⟩ := Option.map_eq_some_iff.mp hs
    exact (advance_spec ho.sound (ho.known c e hc) hadv).2.2.2 hcompat
  · intro c d e e' api api' hc hd hpc hpc'
    have htable := (ho.known c e hc).table api hpc
    have htable' := (ho.known d e' hd).table api' hpc'
    exact Option.some.inj (htable.symm.trans htable')
  · intro c e api hc hpc
    exact usable_of_returned (ho.known c e hc) hpc

def someHost : HostApiPtr := ⟨64, ⟨16, 1000000, none⟩⟩

def someAddrs : BufferAddrs := ⟨128, 160, 192, 224⟩

def panicAndRetry : List Action :=
  let ok := InitOutcome.completes someAddrs
  [.call 0 1000000 (some someHost), .call 1 1999999 (some someHost), .advance 0 ok, .advance 1 ok,
    .advance 0 ok, .advance 1 ok, .advance 0 ok, .advance 1 .panics, .advance 0 .panics,
    .advance 1 ok, .advance 1 ok, .advance 1 ok, .advance 1 ok]

theorem entry_safe_retried :
    ∃ w, run (step ⟨32,48⟩) panicAndRetry .loaded = some w ∧
      Usable w.statics (initPluginState someAddrs).pluginApi := by
  obtain ⟨w, hw⟩ : ∃ w, run (step ⟨32,48⟩) panicAndRetry .loaded = some w :=
    Option.isSome_iff_exists.mp (by decide)
  have hcall : (run (step ⟨32,48⟩) panicAndRetry .loaded).map (fun w => w.calls 1) =
      some (some ⟨1999999, some someHost,
        .returned (some (initPluginState someAddrs).pluginApi)⟩) := by decide
  rw [hw] at hcall
  exact ⟨w, hw, (entry_safe ⟨32,48⟩ w ⟨panicAndRetry, hw, by decide⟩).2.2.2.1 1 _ _
    (Option.some.inj hcall) rfl⟩

def EndsWith (layout : StaticLayout) (c : CallId) (w : Plugin) (st : Statics)
    (api : Option IGPluginApi) : Prop :=
  ∃ as w', (∀ a ∈ as, ∃ o, a = .advance c o) ∧ run (step layout) as w = some w' ∧
    w'.statics = st ∧ ∃ e, w'.calls c = some e ∧ e.pc = .returned api

section Alone
variable {layout : StaticLayout} {c : CallId} {w : Plugin} {e : Entry} {st : Statics}
variable {api : Option IGPluginApi}

theorem endsWith_returned (hc : w.calls c = some e) (hpc : e.pc = .returned api) :
    EndsWith layout c w w.statics api :=
  ⟨[], w, by simp, rfl, rfl, e, hc, hpc⟩

theorem endsWith_step {o : InitOutcome} {st' : Statics} {pc : Pc} (hc : w.calls c = some e)
    (hadv : advance layout o w.statics e = some (st',pc))
    (hrest : EndsWith layout c ⟨st', Function.update w.calls c (some { e with pc := pc })⟩ st api) :
    EndsWith layout c w st api := by
  obtain ⟨as, w', hmine, hrun, hend⟩ := hrest
  refine ⟨.advance c o::as, w', ?_, ?_, hend⟩
  · intro a ha
    rcases List.mem_cons.mp ha with rfl | ha
    · exact ⟨o, rfl⟩
    · exact hmine a ha
  · simp only [run, step, hc, hadv, Option.map_some, Option.bind_some]
    exact hrun

theorem called (calls : CallId → Option Entry) (c : CallId) (x : Option Entry) :
    Function.update calls c x c = x := Function.update_self ..

/-- What the entry point returns after its cells: nothing when one panicked. -/
def answer (result : Bool × Statics) : Option IGPluginApi :=
  if result.1 then result.2.pluginState.map PluginState.pluginApi else none

theorem endsWith_cell {o : InitOutcome} {version : Int32} {host : Option HostApiPtr} {pc next : Pc}
    {st' : Statics} {α : Type*} {cell : Option α} {rest : Bool × Statics}
    (hc : w.calls c = some ⟨version, host, pc⟩)
    (hadv : advance layout o w.statics ⟨version, host, pc⟩ = some (st',.after cell.isSome next))
    (hrest : EndsWith layout c ⟨st', Function.update w.calls c (some ⟨version, host, next⟩)⟩
      rest.2 (answer rest)) :
    EndsWith layout c w (if cell.isNone then (false,st') else rest).2
      (answer (if cell.isNone then (false,st') else rest)) := by
  cases cell with
  | none => exact endsWith_step hc hadv (endsWith_returned (called _ _ _) rfl)
  | some v => exact endsWith_step hc hadv hrest

theorem endsWith_last {o : InitOutcome} {version : Int32} {host : Option HostApiPtr}
    (hc : w.calls c = some ⟨version, host, .registry⟩) :
    EndsWith layout c w (initRegistry o w.statics)
      (answer ((initRegistry o w.statics).bufferRegistry.isSome,initRegistry o w.statics)) := by
  apply endsWith_step (o := o) hc rfl
  cases (initRegistry o w.statics).bufferRegistry with
  | none => exact endsWith_returned (called _ _ _) rfl
  | some r =>
    apply endsWith_step (o := .panics) (called _ _ _) rfl
    exact endsWith_returned (called _ _ _) rfl

theorem endsWith_cells (layout : StaticLayout) (o : InitOutcomes) {version : Int32}
    {host : Option HostApiPtr} (hc : w.calls c = some ⟨version, host, .extensions⟩) :
    let result := ensureInitialized layout o w.statics
    EndsWith layout c w result.2 (answer result) := by
  apply endsWith_cell (o := o.extensions) hc rfl
  apply endsWith_cell (o := o.state) (called _ _ _) rfl
  apply endsWith_cell (o := o.capability) (called _ _ _) rfl
  exact endsWith_last (called _ _ _)

/-- The steps of a call compute what the entry point computes as one function. -/
theorem entry_alone (layout : StaticLayout) (o : InitOutcomes) {version : Int32}
    {host : Option HostApiPtr} (hc : w.calls c = some ⟨version, host, .entered⟩) :
    let result := igPluginGetApi layout o version host w.statics
    EndsWith layout c w result.2 result.1 := by
  intro result
  have hresult : result = igPluginGetApi layout o version host w.statics := rfl
  unfold igPluginGetApi at hresult
  cases hcheck : checkHost version host with
  | none =>
    rw [hcheck] at hresult
    rw [hresult]
    have hadv : advance layout .panics w.statics ⟨version, host, .entered⟩ =
        some (w.statics,.returned none) := by simp only [advance, hcheck]
    exact endsWith_step hc hadv (endsWith_returned (called _ _ _) rfl)
  | some ptr =>
    rw [hcheck] at hresult
    have hadv : advance layout .panics w.statics ⟨version, host, .entered⟩ =
        some (w.statics,.storing ptr) := by simp only [advance, hcheck]
    apply endsWith_step hc hadv
    apply endsWith_step (o := .panics) (called _ _ _) rfl
    have hcells := fun calls => endsWith_cells (c := c) (w := ⟨storeHost ptr w.statics,
      Function.update calls c (some ⟨version, host, .extensions⟩)⟩) layout o (called _ _ _)
    cases hens : ensureInitialized layout o (storeHost ptr w.statics) with
    | mk done st =>
      simp only [hens] at hresult hcells
      rw [hresult]
      cases done with
      | true => exact hcells _
      | false => exact hcells _

end Alone

end IthmbPlugin.EntryPoint
