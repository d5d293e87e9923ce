import IthmbPlugin.Extension
import IthmbPlugin.Library.Ranked

/-!
# The tables for the life of the plugin

What a table shows its holder is the same ever after, whatever calls of the
entry point come later and however their closures fare: the texts its
references point to, the functions, the capability with the extensions, which
are extensions that the matcher accepts. And a caller whose tests pass gets the
table unless a closure panics in its own hands.
-/

set_option autoImplicit false

namespace IthmbPlugin.Lifetime
open IthmbPlugin.Types IthmbPlugin.Strings IthmbPlugin.State IthmbPlugin.OnceCell
open IthmbPlugin.Runs IthmbPlugin.Ranked IthmbPlugin.Extension IthmbPlugin.EntryPoint

section Growth
variable {layout : StaticLayout}

theorem Grows.trans {st st' st'' : Statics} (h : Grows st st') (h' : Grows st' st'') :
    Grows st st'' where
  hostApi v hv := h'.hostApi v (h.hostApi v hv)
  pluginExtensions v hv := h'.pluginExtensions v (h.pluginExtensions v hv)
  pluginState v hv := h'.pluginState v (h.pluginState v hv)
  capability v hv := h'.capability v (h.capability v hv)
  bufferRegistry hs := h'.bufferRegistry (h.bufferRegistry hs)

theorem step_grows {w w' : Plugin} {a : Action} (h : Ordered layout w)
    (hs : step layout w a = some w') : Grows w.statics w'.statics := by
  cases a with
  | call c version host =>
    simp only [step] at hs
    split at hs <;> cases hs
    exact .refl _
  | advance c o =>
    simp only [step] at hs
    split at hs
    · cases hs
    · next e hc =>
      obtain ⟨⟨st,pc⟩, hadv, rfl⟩ := Option.map_eq_some_iff.mp hs
      exact (advance_spec h.sound (h.known c e hc) hadv).1
  | useRegistry r =>
    simp only [step] at hs
    split at hs <;> cases hs
    exact { Grows.refl w.statics with bufferRegistry := fun _ => rfl }

theorem step_returned {w w' : Plugin} {a : Action} (hs : step layout w a = some w')
    {c : CallId} {e : Entry} {api : Option IGPluginApi} (hc : w.calls c = some e)
    (hpc : e.pc = .returned api) : w'.calls c = some e := by
  cases a with
  | call d version host =>
    simp only [step] at hs
    split at hs
    · cases hs
    · next hd =>
      cases hs
      have hne : c ≠ d := fun he => by simp [← he, hc] at hd
      exact (Function.update_of_ne hne ..).trans hc
  | advance d o =>
    simp only [step] at hs
    split at hs
    · cases hs
    · next e' hd =>
      obtain ⟨⟨st,pc⟩, hadv, rfl⟩ := Option.map_eq_some_iff.mp hs
      have hne : c ≠ d := by
        rintro rfl
        cases hc.symm.trans hd
        simp [advance, hpc] at hadv
      exact (Function.update_of_ne hne ..).trans hc
  | useRegistry r =>
    simp only [step] at hs
    split at hs <;> cases hs
    exact hc

theorem run_grows {as : List Action} {w w' : Plugin} (h : Ordered layout w)
    (hrun : run (step layout) as w = some w') :
    Ordered layout w' ∧ Grows w.statics w'.statics ∧ ∀ c e api, w.calls c = some e →
      e.pc = .returned api → w'.calls c = some e := by
  induction as generalizing w with
  | nil =>
    cases hrun
    exact ⟨h, .refl _, fun _ _ _ hc _ => hc⟩
  | cons a as ih =>
    obtain ⟨w₁, hs, hrest⟩ := run_cons hrun
    obtain ⟨hend, hgrows, hkept⟩ := ih (step_ordered w a w₁ h hs) hrest
    exact ⟨hend, Grows.trans (step_grows h hs) hgrows,
      fun c e api hc hpc => hkept c e api (step_returned hs hc hpc) hpc⟩

end Growth

theorem bufferRef_text (addr : Addr) (s : Str) (hs : s ≠ [])
    (hlen : (encodeUtf16 s).length ≤ 2^31-1) :
    utf16ToString (bufferRef ⟨addr,encodeUtf16 s⟩) = some s :=
  string_to_host_and_back addr s hs hlen

def ExtensionTexts (refs : List IGStringRef) : Prop :=
  refs.map utf16ToString = [some ".ithmb".toList, some ".ipm".toList]

theorem extensionsArray_texts (layout : StaticLayout) :
    ExtensionTexts (extensionsArray layout) := by
  have hithmb : extIthmbData = encodeUtf16 ".ithmb".toList := by decide
  have hipm : extIpmData = encodeUtf16 ".ipm".toList := by decide
  rw [ExtensionTexts, extensionsArray, hithmb, hipm, List.map_cons, List.map_cons, List.map_nil,
    bufferRef_text layout.extIthmb _ (by decide) (by decide),
    bufferRef_text layout.extIpm _ (by decide) (by decide)]

theorem extensionsArray_accepted (layout : StaticLayout) (ext : IGStringRef)
    (h : ext ∈ extensionsArray layout) :
    matchExtension (some (extensionsArray layout)) ext = 1 := by
  have hwhole : ∀ {addr : Addr} {u : List UInt16}, ext = bufferRef ⟨addr,u⟩ → u ≠ [] →
      u.length ≤ 2^31-1 → Accepted (u.map AsciiCase.lowUnit) →
      matchExtension (some (extensionsArray layout)) ext = 1 := by
    intro addr u he hu hlen haccepted
    have hlength : (Int32.ofNat u.length).toInt = u.length := i32_length_toInt u.length hlen
    have hvalid : ext.Valid := by
      intro ptr hptr
      rw [he] at hptr ⊢
      cases hptr
      exact hlength.le
    have hpos : ¬ Int32.ofNat u.length ≤ 0 := i32_length_positive u.length (by simpa using hu) hlen
    have hdenoted : denoted ext = some u := by
      simp only [he, denoted, bufferRef, if_neg hpos, fromRawParts, hlength]
      simp
    exact (matchExtension_iff layout hvalid).1.mpr ⟨u, hdenoted, haccepted⟩
  rcases List.mem_cons.mp h with he | h
  · exact hwhole he (by decide) (by decide) (by decide)
  · exact hwhole (List.mem_singleton.mp h) (by decide) (by decide) (by decide)

/-- Everything the host reads through a table: the sizes, the texts, the codec
with its six functions, and the capability with as many extensions as it says,
all of them accepted. -/
structure Shows (st : Statics) (api : IGPluginApi) (codec : IGCodecApi)
    (cap : IGCodecCapability) : Prop where
  apiSize : api.structSize.toInt = sizeOfIGPluginApi
  pluginId : utf16ToString api.info.pluginId = some "ithmb-codec".toList
  name : utf16ToString api.info.name = some "iThmb Codec".toList
  version : utf16ToString api.info.version = some cargoPkgVersion
  functions : [api.getCodec, api.initializeFn, api.shutdown, api.selfTest] =
    [some .pluginGetCodec, some .pluginInitialize, some .pluginShutdown, some .pluginSelfTest]
  getCodec : ∀ old, pluginGetCodec st 0 (some old) = (.ok,some (some codec))
  codecSize : codec.structSize.toInt = sizeOfIGCodecApi
  codecFunctions : [codec.getCapability, codec.canHandleExtension, codec.canHandleSignature,
    codec.loadMetadata, codec.decodeStaticRaster, codec.freePixelBuffer] =
    [some .codecGetCapability, some .codecCanHandleExtension, some .codecCanHandleSignature,
      some .codecLoadMetadata, some .codecDecodeStaticRaster, some .codecFreePixelBuffer]
  getCapability : ∀ old, codecGetCapability st (some old) = (.ok,some (some cap))
  capabilitySize : cap.structSize.toInt = sizeOfIGCodecCapability
  codecId : utf16ToString cap.codecId = utf16ToString api.info.pluginId
  codecName : utf16ToString cap.codecName = utf16ToString api.info.name
  extensions : ∃ refs, cap.decodeExtensions = some refs ∧
    cap.decodeExtensionCount.toInt = refs.length ∧ ExtensionTexts refs ∧
    ∀ ext ∈ refs, matchExtension st.pluginExtensions ext = 1

theorem shows_of_returned {layout : StaticLayout} {w : Plugin} (h : Ordered layout w) {c : CallId}
    {e : Entry} {api : IGPluginApi} (hc : w.calls c = some e) (hpc : e.pc = .returned (some api)) :
    ∃ codec cap, Shows w.statics api codec cap := by
  have husable := usable_of_returned (h.known c e hc) hpc
  obtain ⟨cap, hcap⟩ := Option.isSome_iff_exists.mp husable.capability
  obtain ⟨s, exts, hs, hexts, rfl⟩ := h.sound.capability cap hcap
  obtain ⟨addrs, rfl⟩ := h.sound.pluginState s hs
  obtain rfl := h.sound.pluginExtensions exts hexts
  have htable := husable.table
  rw [hs, Option.map_some, Option.some.injEq] at htable
  subst htable
  have hid := bufferRef_text addrs.pluginId "ithmb-codec".toList (by decide) (by decide)
  have hname := bufferRef_text addrs.pluginName "iThmb Codec".toList (by decide) (by decide)
  have hcapName := bufferRef_text addrs.capName "iThmb Codec".toList (by decide) (by decide)
  have hsizes : (Int32.ofNat sizeOfIGPluginApi).toInt = sizeOfIGPluginApi ∧
      (Int32.ofNat sizeOfIGCodecApi).toInt = sizeOfIGCodecApi ∧
      (Int32.ofNat sizeOfIGCodecCapability).toInt = sizeOfIGCodecCapability := by decide
  refine ⟨(initPluginState addrs).codecApi,
    buildCapability (some (initPluginState addrs)) (some (extensionsArray layout)),
    ⟨hsizes.1, hid, hname,
      bufferRef_text addrs.pluginVersion cargoPkgVersion (by decide) (by decide), rfl, ?_,
      hsizes.2.1, rfl, ?_, hsizes.2.2, rfl, hcapName.trans hname.symm, ?_⟩⟩
  · intro old
    simp [pluginGetCodec, hs]
  · intro old
    simp [codecGetCapability, hcap]
  · refine ⟨extensionsArray layout, rfl, rfl, extensionsArray_texts layout, ?_⟩
    intro ext hext
    rw [hexts]
    exact extensionsArray_accepted layout ext hext

theorem Shows.congr {st st' : Statics} {api : IGPluginApi} {codec : IGCodecApi}
    {cap : IGCodecCapability} (h : Shows st api codec cap)
    (hstate : st'.pluginState = st.pluginState) (hcap : st'.capability = st.capability)
    (hexts : st'.pluginExtensions = st.pluginExtensions) : Shows st' api codec cap :=
  { h with
    getCodec := fun old => by
      rw [pluginGetCodec, hstate]
      exact h.getCodec old
    getCapability := fun old => by
      rw [codecGetCapability, hcap]
      exact h.getCapability old
    extensions := by
      rw [hexts]
      exact h.extensions }

/-- What the holder of a table reads through it, it reads for ever, whatever
any number of other calls do, in any order and with any panics; and the host
whose services the plugin uses stays the same. -/
theorem tables_last (layout : StaticLayout) (w : Plugin)
    (h : Reached (step layout) (fun _ _ => True) .loaded w) (c : CallId) (e : Entry)
    (api : IGPluginApi) (hc : w.calls c = some e) (hpc : e.pc = .returned (some api)) :
    ∃ codec cap, Shows w.statics api codec cap ∧
      ∀ as w', run (step layout) as w = some w' → w'.calls c = some e ∧
        Shows w'.statics api codec cap ∧ w'.statics.hostApi = w.statics.hostApi := by
  have ho := reached_ordered h
  have husable := usable_of_returned (ho.known c e hc) hpc
  obtain ⟨codec, cap, hshows⟩ := shows_of_returned ho hc hpc
  refine ⟨codec, cap, hshows, fun as w' hrun => ?_⟩
  obtain ⟨-, hgrows, hkept⟩ := run_grows ho hrun
  exact ⟨hkept c e _ hc hpc,
    hshows.congr (hgrows.pluginState.eq husable.pluginState)
      (hgrows.capability.eq husable.capability)
      (hgrows.pluginExtensions.eq husable.pluginExtensions),
    hgrows.hostApi.eq husable.hostApi⟩

theorem tables_last_retried :
    ∃ w w' codec cap, run (step ⟨32,48⟩) panicAndRetry .loaded = some w ∧
      run (step ⟨32,48⟩) [.call 2 1000000 (some ⟨80, ⟨24, 1000000, none⟩⟩), .advance 2 .panics,
        .advance 2 .panics] w = some w' ∧
      Shows w'.statics (initPluginState someAddrs).pluginApi codec cap := by
  obtain ⟨w, hw⟩ : ∃ w, run (step ⟨32,48⟩) panicAndRetry .loaded = some w :=
    Option.isSome_iff_exists.mp (by decide)
  have hend : (run (step ⟨32,48⟩) panicAndRetry .loaded).map (fun w => (w.calls 1,
      (run (step ⟨32,48⟩) [.call 2 1000000 (some ⟨80, ⟨24, 1000000, none⟩⟩), .advance 2 .panics,
        .advance 2 .panics] w).isSome)) = some (some ⟨1999999, some someHost,
      .returned (some (initPluginState someAddrs).pluginApi)⟩,true) := by decide
  rw [hw, Option.map_some, Option.some.injEq, Prod.mk.injEq] at hend
  obtain ⟨w', hw'⟩ := Option.isSome_iff_exists.mp hend.2
  obtain ⟨codec, cap, -, hlast⟩ :=
    tables_last ⟨32,48⟩ w ⟨panicAndRetry, hw, by decide⟩ 1 _ _ hend.1 rfl
  exact ⟨w, w', codec, cap, hw, hw', (hlast _ w' hw').2.1⟩

def stepsLeft : Pc → ℕ
  | .entered => 7
  | .storing _ => 6
  | .extensions => 5
  | .state => 4
  | .capability => 3
  | .registry => 2
  | .finishing => 1
  | .returned _ => 0

def inProgress (w : Plugin) (c : CallId) : Option Pc :=
  (w.calls c).bind fun e =>
    match e.pc with
    | .returned _ => none
    | pc => some pc

def mover : Action → Option CallId
  | .advance c _ => some c
  | _ => none

section Served
variable {layout : StaticLayout} {c : CallId}

theorem inProgress_some {w : Plugin} {pc : Pc} (h : inProgress w c = some pc) :
    ∃ e, w.calls c = some e ∧ e.pc = pc ∧ ∀ api, pc ≠ .returned api := by
  obtain ⟨e, hc, hpc⟩ := Option.bind_eq_some_iff.mp h
  cases hp : e.pc <;> simp only [hp] at hpc <;> cases hpc <;> exact ⟨e, hc, hp, by simp⟩

theorem inProgress_none {w : Plugin} {e : Entry} (hc : w.calls c = some e)
    (h : inProgress w c = none) : ∃ api, e.pc = .returned api := by
  rw [inProgress, hc, Option.bind_some] at h
  cases hp : e.pc <;> simp only [hp] at h <;> cases h
  exact ⟨_, rfl⟩

theorem after_left {next : Pc} (cell : Bool) : stepsLeft (.after cell next) ≤ stepsLeft next := by
  cases cell with
  | true => exact Nat.le_refl _
  | false => exact Nat.zero_le _

theorem advance_left {o : InitOutcome} {st st' : Statics} {e : Entry} {pc : Pc}
    (h : advance layout o st e = some (st',pc)) : stepsLeft pc < stepsLeft e.pc := by
  obtain ⟨version, host, pc₀⟩ := e
  cases pc₀ with
  | entered =>
    simp only [advance] at h
    split at h <;> cases h <;> simp [stepsLeft]
  | storing ptr => cases h; simp [stepsLeft]
  | extensions => cases h; exact (after_left _).trans_lt (by simp [stepsLeft])
  | state => cases h; exact (after_left _).trans_lt (by simp [stepsLeft])
  | capability => cases h; exact (after_left _).trans_lt (by simp [stepsLeft])
  | registry => cases h; exact (after_left _).trans_lt (by simp [stepsLeft])
  | finishing => cases h; simp [stepsLeft]
  | returned api => cases h

theorem entry_schedule : Schedules (step layout) inProgress mover stepsLeft where
  positive w c pc hpc := by
    obtain ⟨e, -, -, hin⟩ := inProgress_some hpc
    cases pc <;> first | exact absurd rfl (hin _) | simp [stepsLeft]
  moves w a w' c hc hs := by
    cases a with
    | call d version host => cases hc
    | useRegistry r => cases hc
    | advance d o =>
      cases hc
      simp only [step] at hs
      split at hs
      · cases hs
      · next e hd =>
        obtain ⟨⟨st,pc⟩, hadv, rfl⟩ := Option.map_eq_some_iff.mp hs
        have hleft := advance_left hadv
        refine ⟨e.pc, ?_, ⟨fun d' hd' => ?_, ?_⟩⟩
        · rw [inProgress, hd, Option.bind_some]
          cases hpc : e.pc <;> first | rfl | simp [hpc, stepsLeft] at hleft
        · simp only [inProgress, Function.update_of_ne hd']
        · simp only [inProgress, Function.update_self, Option.bind_some]
          cases hpc : pc <;> first | exact Or.inl rfl | exact Or.inr ⟨_, rfl, hpc ▸ hleft⟩
  stays w a w' c pc hc hs hpc := by
    have hother : ∀ {d : CallId} {e : Entry} {st : Statics}, c ≠ d →
        inProgress ⟨st, Function.update w.calls d (some e)⟩ c = some pc := by
      intro d e st hd
      simp only [inProgress, Function.update_of_ne hd]
      exact hpc
    cases a with
    | call d version host =>
      simp only [step] at hs
      split at hs
      · cases hs
      · next hd =>
        cases hs
        refine hother fun he => ?_
        rw [inProgress, he, hd] at hpc
        cases hpc
    | advance d o =>
      simp only [step] at hs
      split at hs
      · cases hs
      · obtain ⟨⟨st,pc'⟩, hadv, rfl⟩ := Option.map_eq_some_iff.mp hs
        exact hother fun he => hc (by rw [he]; rfl)
    | useRegistry r =>
      simp only [step] at hs
      split at hs <;> cases hs
      exact hpc

/-- The call is not refused, unless its tests failed. -/
def Unrefused (c : CallId) (w : Plugin) : Prop :=
  ∀ e, w.calls c = some e → Compatible e.version e.host → e.pc ≠ .returned none

theorem getOrInit_completes {α : Type*} (cell : Option α) (addrs : BufferAddrs)
    (f : BufferAddrs → α) :
    (getOrInit cell ((InitOutcome.completes addrs).value f)).isSome = true := by
  cases cell <;> rfl

theorem advance_unrefused {o : InitOutcome} {st st' : Statics} {e : Entry} {pc : Pc}
    (hk : Known st e) (hcompat : Compatible e.version e.host) (ho : o ≠ .panics)
    (h : advance layout o st e = some (st',pc)) : pc ≠ .returned none := by
  obtain ⟨version, host, pc₀⟩ := e
  cases o with
  | panics => exact absurd rfl ho
  | completes addrs =>
    have hfilled : FilledTo pc₀.cells st := hk.filled
    cases pc₀ with
    | entered =>
      have hsome := (checkHost_some_iff version host).mpr hcompat
      simp only [advance] at h
      split at h
      · next hnone =>
        rw [hnone] at hsome
        cases hsome
      · cases h
        simp
    | storing ptr => cases h; simp
    | extensions =>
      cases h
      simp [initExtensions, getOrInit_completes, Pc.after]
    | state =>
      cases h
      simp [initState, getOrInit_completes, Pc.after]
    | capability =>
      cases h
      simp [initCapability, getOrInit_completes, Pc.after]
    | registry =>
      cases h
      simp [initRegistry, getOrInit_completes, Pc.after]
    | finishing =>
      cases h
      obtain ⟨s, hs⟩ := Option.isSome_iff_exists.mp (hfilled 2 (by decide))
      simp [show st.pluginState = some s from hs]
    | returned api => cases h

theorem step_unrefused (w : Plugin) (a : Action) (w' : Plugin)
    (h : Ordered layout w ∧ Unrefused c w) (ha : a ≠ .advance c .panics)
    (hs : step layout w a = some w') : Ordered layout w' ∧ Unrefused c w' := by
  obtain ⟨ho, hu⟩ := h
  refine ⟨step_ordered w a w' ho hs, fun e hc hcompat => ?_⟩
  cases a with
  | call d version host =>
    simp only [step] at hs
    split at hs <;> cases hs
    rcases update_call hc with rfl | hc
    · simp
    · exact hu e hc hcompat
  | advance d o =>
    simp only [step] at hs
    split at hs
    · cases hs
    · next e' hd =>
      obtain ⟨⟨st,pc⟩, hadv, rfl⟩ := Option.map_eq_some_iff.mp hs
      by_cases hcd : c = d
      · subst hcd
        simp only [Function.update_self, Option.some.injEq] at hc
        subst hc
        exact advance_unrefused (ho.known c e' hd) hcompat (fun he => ha (by rw [he])) hadv
      · simp only [Function.update_of_ne hcd] at hc
        exact hu e hc hcompat
  | useRegistry r =>
    simp only [step] at hs
    split at hs <;> cases hs
    exact hu e hc hcompat

theorem run_unrefused {w w' : Plugin} {as : List Action} (h : Ordered layout w ∧ Unrefused c w)
    (has : .advance c .panics ∉ as) (hrun : run (step layout) as w = some w') :
    Ordered layout w' ∧ Unrefused c w' := by
  have hown : ∀ a ∈ as, a ≠ .advance c .panics := by
    rintro a ha rfl
    exact has ha
  have hok : Admits (step layout) (fun _ a => a ≠ .advance c .panics) as w :=
    admits_of_forall (fun _ => hown) w
  exact run_invariant step_unrefused as w w' h hok hrun

theorem step_entry {e : Entry} (w : Plugin) (a : Action) (w' : Plugin)
    (h : ∃ pc, w.calls c = some { e with pc := pc }) (hs : step layout w a = some w') :
    ∃ pc, w'.calls c = some { e with pc := pc } := by
  obtain ⟨pc, hc⟩ := h
  cases a with
  | call d version host =>
    simp only [step] at hs
    split at hs
    · cases hs
    · next hd =>
      cases hs
      have hne : c ≠ d := fun he => by simp [← he, hc] at hd
      exact ⟨pc, (Function.update_of_ne hne ..).trans hc⟩
  | advance d o =>
    simp only [step] at hs
    split at hs
    · cases hs
    · next e' hd =>
      obtain ⟨⟨st,pc'⟩, hadv, rfl⟩ := Option.map_eq_some_iff.mp hs
      by_cases hcd : c = d
      · subst hcd
        cases hc.symm.trans hd
        exact ⟨pc', Function.update_self ..⟩
      · exact ⟨pc, (Function.update_of_ne hcd ..).trans hc⟩
  | useRegistry r =>
    simp only [step] at hs
    split at hs <;> cases hs
    exact ⟨pc, hc⟩

end Served

/-- Who passes the tests and meets no panic in a closure it runs itself is
served: it returns after its steps, the others being scheduled as they may, and
with the table. So a caller that passed the tests and was refused has panicked. -/
theorem entry_served (layout : StaticLayout) (c : CallId) :
    (∀ w e, Reached (step layout) (fun _ _ => True) .loaded w → w.calls c = some e →
      Compatible e.version e.host → e.pc ≠ .returned none →
      ∀ as w', run (step layout) as w = some w' → .advance c .panics ∉ as →
        stepsLeft e.pc ≤ as.countP (fun a => mover a = some c) →
        ∃ e' api, w'.calls c = some e' ∧ e'.pc = .returned (some api) ∧
          w'.statics.pluginState.map PluginState.pluginApi = some api) ∧
    (∀ as w e, run (step layout) as .loaded = some w → w.calls c = some e →
      Compatible e.version e.host → e.pc = .returned none → .advance c .panics ∈ as) := by
  refine ⟨fun w e h hc hcompat hpc as w' hrun has hsteps => ?_,
    fun as w e hrun hc hcompat hpc => ?_⟩
  · have ho := reached_ordered h
    have hunrefused : Unrefused c w := fun e' he' _ => by cases hc.symm.trans he'; exact hpc
    obtain ⟨early, late, v, pc, rfl, hearly, hv, hreturned⟩ : ∃ early late v pc,
        as = early++late ∧ run (step layout) early w = some v ∧
        v.calls c = some { e with pc := pc } ∧ ∃ api, pc = .returned api := by
      cases hin : inProgress w c with
      | none => exact ⟨[], as, w, e.pc, rfl, rfl, hc, inProgress_none hc hin⟩
      | some pc =>
        obtain ⟨e', he', rfl, -⟩ := inProgress_some hin
        cases hc.symm.trans he'
        obtain ⟨early, late, v, has', hearly, hnone⟩ :=
          ends_within entry_schedule as hin hrun hsteps
        obtain ⟨pc, hv⟩ := run_invariant (fun w a w' hw (_ : True) hs => step_entry w a w' hw hs)
          early w v ⟨e.pc, hc⟩ (admits_of_forall (fun _ _ _ => trivial) w) hearly
        exact ⟨early, late, v, pc, has', hearly, hv, inProgress_none hv hnone⟩
    obtain ⟨api, rfl⟩ := hreturned
    have hearlier : .advance c .panics ∉ early := fun hmem => has (List.mem_append_left late hmem)
    obtain ⟨hov, huv⟩ := run_unrefused ⟨ho, hunrefused⟩ hearlier hearly
    rw [run_append, hearly, Option.bind_some] at hrun
    obtain ⟨ho', -, hkept⟩ := run_grows hov hrun
    have hc' := hkept c _ api hv rfl
    cases api with
    | none => exact absurd rfl (huv _ hv hcompat)
    | some api => exact ⟨_, api, hc', rfl, (ho'.known c _ hc').table api rfl⟩
  · by_contra has
    have hstart : Ordered layout .loaded ∧ Unrefused c .loaded :=
      ⟨loaded_ordered layout, fun e he => by cases he⟩
    exact (run_unrefused hstart has hrun).2 e hc hcompat hpc

def bothCalled : List Action := [.call 0 1000000 (some someHost), .call 1 1999999 (some someHost)]

def firstPanics : List Action :=
  let ok := InitOutcome.completes someAddrs
  [.advance 0 ok, .advance 0 ok, .advance 0 ok, .advance 0 .panics, .advance 1 ok, .advance 1 ok,
    .advance 1 ok, .advance 1 ok, .advance 1 ok, .advance 1 ok, .advance 1 ok]

theorem entry_served_second :
    ∃ w w' e api, run (step ⟨32,48⟩) bothCalled .loaded = some w ∧
      run (step ⟨32,48⟩) firstPanics w = some w' ∧ w'.calls 1 = some e ∧
      e.pc = .returned (some api) := by
  obtain ⟨w, hw⟩ : ∃ w, run (step ⟨32,48⟩) bothCalled .loaded = some w :=
    Option.isSome_iff_exists.mp (by decide)
  have hend : (run (step ⟨32,48⟩) bothCalled .loaded).map (fun w => (w.calls 1,
      (run (step ⟨32,48⟩) firstPanics w).isSome)) =
      some (some ⟨1999999, some someHost, .entered⟩,true) := by decide
  rw [hw, Option.map_some, Option.some.injEq, Prod.mk.injEq] at hend
  obtain ⟨w', hw'⟩ := Option.isSome_iff_exists.mp hend.2
  obtain ⟨e, api, hc, hpc, -⟩ := (entry_served ⟨32,48⟩ 1).1 w _ ⟨bothCalled, hw, by decide⟩ hend.1
    ((checkHost_some_iff _ _).mp (by decide)) (by decide) firstPanics w' hw'
    (by simp [firstPanics]) (by decide)
  exact ⟨w, w', e, api, hw, hw', hc, hpc⟩

end IthmbPlugin.Lifetime
