import IthmbPlugin.Discipline
import IthmbPlugin.Lifetime
import IthmbPlugin.Extension

/-!
# The loaded plugin

The entry point, the codec calls and the messages to the host on one set of
statics. A codec call works on the registry it finds in the once-cell when it
gets there, and panics where the cell is unset. The host reaches the functions
of the codec through a table that a call of the entry point has returned to it,
in any thread and at any time, while other calls of the entry point are still
filling cells. What it is told is kept in `logs`, the newest first.
-/

set_option autoImplicit false

namespace IthmbPlugin.Loaded
open IthmbPlugin.Types IthmbPlugin.Strings IthmbPlugin.FileIo IthmbPlugin.Registry
open IthmbPlugin.Allocator IthmbPlugin.Decode IthmbPlugin.State IthmbPlugin.Runs
open IthmbPlugin.OnceCell IthmbPlugin.DecodeContract
open IthmbPlugin.Calls IthmbPlugin.Discipline IthmbPlugin.Extension
open IthmbPlugin.EntryPoint (Plugin Entry Pc)

structure Session where
  plugin : Plugin
  slots : SlotId → IGPixelBuffer
  origins : SlotId → Option ℕ
  memory : Memory
  calls : Finmap (fun _ : CallId => Call)
  history : List HostEvent
  logs : List (Option HostApiPtr × LogRecord)

def Session.loaded (slots : SlotId → IGPixelBuffer) : Session where
  plugin := .loaded
  slots := slots
  origins := fun _ => none
  memory := .empty
  calls := ∅
  history := []
  logs := []

def getHostApi (st : Statics) : Option IGHostApi := st.hostApi.map HostApiPtr.api

def pluginInitialize : IGStatus := .ok

def pluginShutdown (st : Statics) : List LogRecord :=
  match getHostApi st with
  | none => []
  | some hostApi => loggerLog hostApi.core .info "ithmb-codec: shutdown".toList

namespace Session

def statics (s : Session) : Statics := s.plugin.statics

def world (s : Session) : World where
  slots := s.slots
  origins := s.origins
  registry := s.statics.bufferRegistry.getD .new
  memory := s.memory
  calls := s.calls
  history := s.history

/-- What it leaves. The cell of the registry is not filled by codec calls. -/
def put (s : Session) (w : World) : Session where
  plugin := { s.plugin with statics := { s.plugin.statics with
    bufferRegistry := s.plugin.statics.bufferRegistry.map fun _ => w.registry } }
  slots := w.slots
  origins := w.origins
  memory := w.memory
  calls := w.calls
  history := w.history
  logs := s.logs

def log (s : Session) (records : List LogRecord) : Session :=
  { s with logs := records.map (fun r => (s.statics.hostApi,r))++s.logs }

end Session

/-- `BUFFER_REGISTRY.get().unwrap()` on the unset cell: the panic is caught, and
a decode call has its block no longer in hand. -/
def unwrapPanic (s : Session) : Calls.Action → Option Session
  | .advance c _ =>
    match s.statics.bufferRegistry, s.calls.lookup c with
    | none, some (.copied slot _ _) =>
      some (s.put (s.world.endCall c (.refused (some slot) .internal)))
    | none, some (.cleared slot _ _) => some (s.put (s.world.endCall c (.freed (some slot))))
    | _, _ => none
  | _ => none

def codecStep (s : Session) (a : Calls.Action) : Option Session :=
  match unwrapPanic s a with
  | some s' => some s'
  | none => (Calls.step s.world a).map s.put

/-- `via` is the call of the entry point that returned the table the host goes
through. -/
inductive Action where
  | getApi (c : EntryPoint.CallId) (version : Int32) (host : Option HostApiPtr)
  | initStep (c : EntryPoint.CallId) (o : InitOutcome)
  | hostWrite (slot : SlotId) (b : IGPixelBuffer)
  | hostCopy (source target : SlotId)
  | decode (via : EntryPoint.CallId) (c : CallId) (slot : Option SlotId) (fs : FileSystem)
      (decodeIthmb : List UInt8 → Bool → DecodeOutcome) (path : IGStringRef) (frameIndex : Int32)
  | free (via : EntryPoint.CallId) (c : CallId) (slot : Option SlotId)
  | advance (c : CallId) (answer : Addr)
  | canHandleExtension (via : EntryPoint.CallId) (ext : IGStringRef)
  | shutdown (via : EntryPoint.CallId)

def step (layout : StaticLayout) (s : Session) : Action → Option Session
  | .getApi c version host =>
    (EntryPoint.step layout s.plugin (.call c version host)).map fun p => { s with plugin := p }
  | .initStep c o =>
    (EntryPoint.step layout s.plugin (.advance c o)).map fun p => { s with plugin := p }
  | .hostWrite slot b => codecStep s (.hostWrite slot b)
  | .hostCopy source target => codecStep s (.hostCopy source target)
  | .decode _ c slot fs decodeIthmb path frameIndex =>
    let env : DecodeEnv := ⟨fs, getHostApi s.statics, decodeIthmb⟩
    (codecStep s (.beginDecode c slot env path frameIndex)).map fun s' =>
      s'.log (decodeImage env path frameIndex slot.isNone).2
  | .free _ c slot => codecStep s (.beginFree c slot)
  | .advance c answer => codecStep s (.advance c answer)
  | .canHandleExtension _ ext =>
    (codecCanHandleExtension (getHostApi s.statics) s.statics.pluginExtensions ext).map fun r =>
      s.log r.2
  | .shutdown _ => some (s.log (pluginShutdown s.statics))

def HasTable (s : Session) (via : EntryPoint.CallId) : Prop :=
  ((s.plugin.calls via).bind fun e =>
    match e.pc with
    | .returned api => api
    | _ => none).isSome = true

/-- A host that goes through its table, an allocator that keeps to fresh
addresses, and queries whose units are readable and, where they are logged,
give bytes that are text. -/
def Promised (s : Session) : Action → Prop
  | .decode via _ _ _ _ _ _ => HasTable s via
  | .free via _ _ => HasTable s via
  | .advance c answer => MallocFresh s.world (.advance c answer)
  | .canHandleExtension via ext =>
    HasTable s via ∧ ext.Valid ∧ Loggable (getHostApi s.statics) ext
  | .shutdown via => HasTable s via
  | _ => True

instance (s : Session) (via : EntryPoint.CallId) : Decidable (HasTable s via) :=
  inferInstanceAs (Decidable (_ = true))

instance (ext : IGStringRef) : Decidable ext.Valid :=
  inferInstanceAs (Decidable (∀ ptr ∈ ext.data, ext.length.toInt ≤ ptr.units.length))

instance (s : Session) : (a : Action) → Decidable (Promised s a)
  | .getApi .. => isTrue trivial
  | .initStep .. => isTrue trivial
  | .hostWrite .. => isTrue trivial
  | .hostCopy .. => isTrue trivial
  | .decode via _ _ _ _ _ _ => inferInstanceAs (Decidable (HasTable s via))
  | .free via _ _ => inferInstanceAs (Decidable (HasTable s via))
  | .advance c answer => inferInstanceAs (Decidable (MallocFresh s.world (.advance c answer)))
  | .canHandleExtension via ext => inferInstanceAs (Decidable (HasTable s via ∧ ext.Valid ∧
      Loggable (getHostApi s.statics) ext))
  | .shutdown via => inferInstanceAs (Decidable (HasTable s via))

theorem advance_registry {layout : StaticLayout} {o : InitOutcome} {st st' : Statics} {e : Entry}
    {pc : Pc} (h : EntryPoint.advance layout o st e = some (st',pc)) :
    st'.bufferRegistry = st.bufferRegistry ∨
      (st.bufferRegistry = none ∧ st'.bufferRegistry = some .new) := by
  obtain ⟨version, host, pc₀⟩ := e
  cases pc₀ with
  | entered =>
    simp only [EntryPoint.advance] at h
    split at h <;> cases h <;> exact Or.inl rfl
  | storing host => cases h; exact Or.inl rfl
  | extensions => cases h; exact Or.inl rfl
  | state => cases h; exact Or.inl rfl
  | capability => cases h; exact Or.inl rfl
  | registry =>
    cases h
    simp only [initRegistry]
    cases st.bufferRegistry with
    | some r => exact Or.inl rfl
    | none =>
      cases o with
      | panics => exact Or.inl rfl
      | completes addrs => exact Or.inr ⟨rfl, rfl⟩
  | finishing => cases h; exact Or.inl rfl
  | returned api => cases h

theorem entry_registry {layout : StaticLayout} {w w' : Plugin} {a : EntryPoint.Action}
    (ha : ∀ r, a ≠ .useRegistry r) (h : EntryPoint.step layout w a = some w') :
    w'.statics.bufferRegistry = w.statics.bufferRegistry ∨
      (w.statics.bufferRegistry = none ∧ w'.statics.bufferRegistry = some .new) := by
  cases a with
  | call c version host =>
    simp only [EntryPoint.step] at h
    split at h <;> cases h
    exact Or.inl rfl
  | advance c o =>
    simp only [EntryPoint.step] at h
    split at h
    · cases h
    · obtain ⟨⟨st,pc⟩, hadv, rfl⟩ := Option.map_eq_some_iff.mp h
      exact advance_registry hadv
  | useRegistry r => exact absurd rfl (ha r)

theorem hasTable_iff {s : Session} {via : EntryPoint.CallId} :
    HasTable s via ↔ ∃ e api, s.plugin.calls via = some e ∧ e.pc = .returned (some api) := by
  unfold HasTable
  cases s.plugin.calls via with
  | none => simp
  | some e => cases hpc : e.pc <;> simp [hpc, Option.isSome_iff_exists]

structure Joined (layout : StaticLayout) (slots : SlotId → IGPixelBuffer) (s : Session) : Prop where
  entry : Reached (EntryPoint.step layout) (fun _ _ => True) .loaded s.plugin
  codec : Reached Calls.step MallocFresh (.initial slots) s.world
  unset : s.statics.bufferRegistry = none → s.calls = ∅

section Joined
variable {layout : StaticLayout} {slots : SlotId → IGPixelBuffer} {s s' : Session}

theorem loaded_joined (layout : StaticLayout) (slots : SlotId → IGPixelBuffer) :
    Joined layout slots (.loaded slots) where
  entry := .start _
  codec := .start _
  unset _ := rfl

theorem Joined.log (h : Joined layout slots s) (records : List LogRecord) :
    Joined layout slots (s.log records) := ⟨h.entry, h.codec, h.unset⟩

theorem Joined.registry_set (h : Joined layout slots s) {via : EntryPoint.CallId}
    (hvia : HasTable s via) : ∃ r, s.statics.bufferRegistry = some r := by
  obtain ⟨e, api, hc, hpc⟩ := hasTable_iff.mp hvia
  exact (EntryPoint.usable_of_returned ((EntryPoint.reached_ordered h.entry).known via e hc)
    hpc).registry

/-- No call finds the cell unset. -/
theorem Joined.no_panic (h : Joined layout slots s) (a : Calls.Action) :
    unwrapPanic s a = none := by
  cases a with
  | advance c answer =>
    cases hr : s.statics.bufferRegistry with
    | some r => simp [unwrapPanic, hr]
    | none => simp [unwrapPanic, hr, h.unset hr]
  | hostWrite slot b => rfl
  | hostCopy source target => rfl
  | beginDecode c slot env path frameIndex => rfl
  | beginFree c slot => rfl

theorem Joined.entry_step (h : Joined layout slots s) {a : EntryPoint.Action} {p : Plugin}
    (ha : ∀ r, a ≠ .useRegistry r) (hs : EntryPoint.step layout s.plugin a = some p) :
    Joined layout slots { s with plugin := p } where
  entry := h.entry.next trivial hs
  codec := by
    have hworld : { s with plugin := p }.world = s.world := by
      rcases entry_registry ha hs with hkeep | ⟨hnone, hnew⟩
      · simp only [Session.world, Session.statics, hkeep]
      · simp only [Session.world, Session.statics, hnone, hnew, Option.getD_some, Option.getD_none]
    exact hworld ▸ h.codec
  unset hnone := by
    rcases entry_registry ha hs with hkeep | ⟨-, hnew⟩
    · exact h.unset (hkeep.symm.trans hnone)
    · cases hnew.symm.trans hnone

theorem Joined.codec_set (h : Joined layout slots s) {r : BufferRegistry}
    (hr : s.statics.bufferRegistry = some r) {a : Calls.Action} {w : World}
    (ha : MallocFresh s.world a) (hs : Calls.step s.world a = some w) :
    Joined layout slots (s.put w) where
  entry := by
    have huse : EntryPoint.step layout s.plugin (.useRegistry w.registry) =
        some (s.put w).plugin := by
      have hcell : s.plugin.statics.bufferRegistry = some r := hr
      simp only [EntryPoint.step, hcell, Session.put, Option.map_some]
    exact h.entry.next trivial huse
  codec := by
    have hcell : s.plugin.statics.bufferRegistry = some r := hr
    have hworld : (s.put w).world = w := by
      simp [Session.world, Session.put, Session.statics, hcell]
    rw [hworld]
    exact h.codec.next ha hs
  unset hnone := by
    have hcell : s.plugin.statics.bufferRegistry = some r := hr
    simp [Session.put, Session.statics, hcell] at hnone

theorem Joined.codec_unset (h : Joined layout slots s) (hr : s.statics.bufferRegistry = none)
    {a : Calls.Action} {w : World} (ha : MallocFresh s.world a)
    (hs : Calls.step s.world a = some w) (hregistry : w.registry = s.world.registry)
    (hcalls : w.calls = s.calls) : Joined layout slots (s.put w) where
  entry := by
    have hplugin : (s.put w).plugin = s.plugin := by
      have hcell : s.plugin.statics.bufferRegistry = none := hr
      simp only [Session.put, hcell, Option.map_none]
      rw [← hcell]
    exact hplugin ▸ h.entry
  codec := by
    have hworld : (s.put w).world = w := by
      have hcell : s.plugin.statics.bufferRegistry = none := hr
      have hnew : w.registry = .new := by
        rw [hregistry, Session.world, hr, Option.getD_none]
      simp [Session.world, Session.put, Session.statics, hcell, ← hnew]
    rw [hworld]
    exact h.codec.next ha hs
  unset _ := hcalls.trans (h.unset hr)

theorem Joined.codec_step (h : Joined layout slots s) {a : Calls.Action}
    (hs : codecStep s a = some s') (ha : MallocFresh s.world a)
    (hcell : (∃ r, s.statics.bufferRegistry = some r) ∨ ∀ w, Calls.step s.world a = some w →
      w.registry = s.world.registry ∧ w.calls = s.calls) : Joined layout slots s' := by
  rw [codecStep, h.no_panic a] at hs
  obtain ⟨w, hw, rfl⟩ := Option.map_eq_some_iff.mp hs
  cases hr : s.statics.bufferRegistry with
  | some r => exact h.codec_set hr ha hw
  | none =>
    obtain ⟨hregistry, hcalls⟩ := hcell.resolve_left (by simp [hr]) w hw
    exact h.codec_unset hr ha hw hregistry hcalls

theorem step_joined (s : Session) (a : Action) (s' : Session) (h : Joined layout slots s)
    (ha : Promised s a) (hs : step layout s a = some s') : Joined layout slots s' := by
  cases a with
  | getApi c version host =>
    obtain ⟨p, hp, rfl⟩ := Option.map_eq_some_iff.mp hs
    exact h.entry_step (by simp) hp
  | initStep c o =>
    obtain ⟨p, hp, rfl⟩ := Option.map_eq_some_iff.mp hs
    exact h.entry_step (by simp) hp
  | hostWrite slot b =>
    rw [step] at hs
    exact h.codec_step hs trivial (Or.inr fun w hw => by cases hw; exact ⟨rfl, rfl⟩)
  | hostCopy source target =>
    rw [step] at hs
    exact h.codec_step hs trivial (Or.inr fun w hw => by cases hw; exact ⟨rfl, rfl⟩)
  | decode via c slot fs decodeIthmb path frameIndex =>
    obtain ⟨s₁, hs₁, rfl⟩ := Option.map_eq_some_iff.mp hs
    exact (h.codec_step hs₁ trivial (Or.inl (h.registry_set ha))).log _
  | free via c slot =>
    rw [step] at hs
    exact h.codec_step hs trivial (Or.inl (h.registry_set ha))
  | advance c answer =>
    rw [step] at hs
    refine h.codec_step hs ha ?_
    cases hr : s.statics.bufferRegistry with
    | some r => exact Or.inl ⟨r, rfl⟩
    | none =>
      refine Or.inr fun w hw => ?_
      simp [Calls.step, Session.world, h.unset hr] at hw
  | canHandleExtension via ext =>
    obtain ⟨r, -, rfl⟩ := Option.map_eq_some_iff.mp hs
    exact h.log _
  | shutdown via =>
    cases hs
    exact h.log _

theorem Joined.quiet_live (h : Joined layout slots s) (hquiet : s.calls = ∅) (p : Addr) :
    p ∈ s.memory.live ↔ ∃ r, s.statics.bufferRegistry = some r ∧ p ∈ r.entries := by
  have hlive := Discipline.quiet_live (reached_disciplined h.codec) hquiet p
  rw [show s.memory.live = s.world.memory.live from rfl, hlive, Session.world]
  cases hr : s.statics.bufferRegistry with
  | none => simp [BufferRegistry.new, Finmap.notMem_empty]
  | some r => simp

end Joined

theorem query_defined {layout : StaticLayout} {s : Session} {via : EntryPoint.CallId}
    {ext : IGStringRef} (h : Promised s (.canHandleExtension via ext)) :
    (step layout s (.canHandleExtension via ext)).isSome = true := by
  obtain ⟨-, -, hlog⟩ := h
  rcases codecCanHandleExtension_cases (getHostApi s.statics) s.statics.pluginExtensions ext with
    ⟨-, logs, -, heq⟩ | ⟨hnot, -⟩
  · rw [step, heq]
    rfl
  · exact absurd hlog hnot

/-- Whatever the host does with the plugin from the moment it is loaded, in any
number of threads and with any panics in the initialisation, as long as it
keeps the promises: the entry point and the codec calls each run as they do
alone; no call meets the unset registry and no query is undefined; and with no
codec call in progress the blocks not given back are the registered ones. -/
theorem loaded_safe (layout : StaticLayout) (slots : SlotId → IGPixelBuffer) (s : Session)
    (h : Reached (step layout) Promised (.loaded slots) s) :
    Reached (EntryPoint.step layout) (fun _ _ => True) .loaded s.plugin ∧
    Reached Calls.step MallocFresh (.initial slots) s.world ∧
    (∀ a, unwrapPanic s a = none) ∧
    (∀ via ext, Promised s (.canHandleExtension via ext) →
      (step layout s (.canHandleExtension via ext)).isSome = true) ∧
    (s.calls = ∅ → ∀ p, p ∈ s.memory.live ↔
      ∃ r, s.statics.bufferRegistry = some r ∧ p ∈ r.entries) := by
  have hjoined : Joined layout slots s :=
    reached_invariant (loaded_joined layout slots) step_joined h
  exact ⟨hjoined.entry, hjoined.codec, hjoined.no_panic, fun _ _ => query_defined,
    hjoined.quiet_live⟩

def fetchTable : List Action :=
  let ok := InitOutcome.completes EntryPoint.someAddrs
  .getApi 0 1000000 (some ⟨64,loggingHost⟩)::List.replicate 7 (.initStep 0 ok)

def decodeAndFree : List Action :=
  fetchTable++[.decode 0 0 (some 0) regularFile (fun _ _ => .image pixel) somePath 0,
    .advance 0 8, .advance 0 null, .advance 0 null, .advance 0 null, .free 0 1 (some 0),
    .advance 1 null, .advance 1 null, .advance 1 null]

theorem loaded_safe_freed :
    ∃ s, run (step ⟨32,48⟩) decodeAndFree (.loaded fun _ => emptyBuffer) = some s ∧
      Reached Calls.step MallocFresh (.initial fun _ => emptyBuffer) s.world := by
  obtain ⟨s, hs⟩ : ∃ s, run (step ⟨32,48⟩) decodeAndFree (.loaded fun _ => emptyBuffer) = some s :=
    Option.isSome_iff_exists.mp (by decide)
  exact ⟨s, hs, (loaded_safe ⟨32,48⟩ _ s ⟨decodeAndFree, hs, by decide⟩).2.1⟩

def Shows (ext : IGStringRef) (shown : Str) : Prop :=
  match denoted ext with
  | none => shown = "null".toList
  | some u => Utf8Text.encode shown = (u.take 32).map extByte

/-- What there is to say about the calls that were made: that the file of one
could not be read, what one asked about, and that one shut the plugin down. -/
inductive Text (as : List Action) : LogLevel → Str → Prop
  | readFailure (via : EntryPoint.CallId) (c : CallId) (slot : Option SlotId) (fs : FileSystem)
      (decodeIthmb : List UInt8 → Bool → DecodeOutcome) (path : IGStringRef) (frameIndex : Int32)
      (pathStr : Str) (status : IGStatus)
      (hcall : .decode via c slot fs decodeIthmb path frameIndex ∈ as)
      (hpath : utf16ToString path = some pathStr)
      (hread : readIthmbFile fs pathStr = .error status) :
      Text as .error ("ithmb-codec: failed to read file: ".toList++status.debug)
  | extension (via : EntryPoint.CallId) (ext : IGStringRef) (shown : Str)
      (hcall : .canHandleExtension via ext ∈ as) (hshown : Shows ext shown) :
      Text as .info ("ithmb-codec: can_handle_extension('".toList++shown++"')".toList)
  | shutdown (via : EntryPoint.CallId) (hcall : .shutdown via ∈ as) :
      Text as .info "ithmb-codec: shutdown".toList

theorem Text.mono {as bs : List Action} {level : LogLevel} {text : Str} (h : Text as level text)
    (hsub : as ⊆ bs) : Text bs level text := by
  cases h with
  | readFailure via c slot fs decodeIthmb path frameIndex pathStr status hcall hpath hread =>
    exact .readFailure via c slot fs decodeIthmb path frameIndex pathStr status (hsub hcall)
      hpath hread
  | extension via ext shown hcall hshown => exact .extension via ext shown (hsub hcall) hshown
  | shutdown via hcall => exact .shutdown via (hsub hcall)

/-- A message that this host can be sent, as the host decodes it. -/
def Sendable (as : List Action) (hostApi : Option IGHostApi) (r : LogRecord) : Prop :=
  ∃ api core, hostApi = some api ∧ api.core = some core ∧ core.log = true ∧
    Text as r.level (Utf16.decodeLossy r.message)

section Messages
variable {as : List Action}

theorem loggerLog_sendable {api : IGHostApi} {level : LogLevel} {text : Str}
    (h : Text as level text) (r : LogRecord) (hr : r ∈ loggerLog api.core level text) :
    Sendable as (some api) r := by
  cases hcore : api.core with
  | none => simp [loggerLog, hcore] at hr
  | some core =>
    simp only [loggerLog, hcore] at hr
    split_ifs at hr with hlog
    · rw [List.mem_singleton.mp hr]
      refine ⟨api, core, rfl, hcore, hlog, ?_⟩
      rw [encodeUtf16, Utf16.decodeLossy_encode]
      exact h
    · cases hr

theorem shutdown_sendable {via : EntryPoint.CallId} (hcall : .shutdown via ∈ as) (st : Statics)
    (r : LogRecord) (hr : r ∈ pluginShutdown st) : Sendable as (getHostApi st) r := by
  unfold pluginShutdown at hr
  cases hapi : getHostApi st with
  | none => simp [hapi] at hr
  | some api =>
    rw [hapi] at hr
    exact loggerLog_sendable (.shutdown via hcall) r hr

theorem decodeImage_sendable {via : EntryPoint.CallId} {c : CallId} {slot : Option SlotId}
    {fs : FileSystem} {decodeIthmb : List UInt8 → Bool → DecodeOutcome} {path : IGStringRef}
    {frameIndex : Int32} (hcall : .decode via c slot fs decodeIthmb path frameIndex ∈ as)
    {hostApi : Option IGHostApi} {bufferNull : Bool} (r : LogRecord)
    (hr : r ∈ (decodeImage ⟨fs,hostApi,decodeIthmb⟩ path frameIndex bufferNull).2) :
    Sendable as hostApi r := by
  unfold decodeImage at hr
  split at hr
  · cases hr
  · split at hr
    · cases hr
    · next pathStr hpath =>
      split at hr
      · cases hr
      · split at hr
        · next status hread =>
          simp only [logReadFailure] at hr
          cases hostApi with
          | none => cases hr
          | some api =>
            exact loggerLog_sendable (.readFailure via c slot fs decodeIthmb path frameIndex
              pathStr status hcall hpath hread) r hr
        · split at hr <;> cases hr

theorem extStr_shows {ext : IGStringRef} {shown : Str} (h : extStr ext = .value shown) :
    Shows ext shown := by
  unfold Shows
  cases hu : denoted ext with
  | none =>
    rw [extStr_null hu] at h
    cases h
    rfl
  | some u =>
    rw [extStr_denoted hu] at h
    rcases fromUtf8Unchecked_cases ((u.take 32).map extByte) with ⟨s, hs, heq⟩ | ⟨-, heq⟩ <;>
      rw [heq] at h <;> cases h
    exact hs

theorem extension_sendable {via : EntryPoint.CallId} {ext : IGStringRef}
    (hcall : .canHandleExtension via ext ∈ as) {hostApi : Option IGHostApi}
    {logs : List LogRecord} (hlogs : logExtension hostApi ext = .value logs) (r : LogRecord)
    (hr : r ∈ logs) : Sendable as hostApi r := by
  cases hostApi with
  | none =>
    cases hlogs
    cases hr
  | some api =>
    cases hcore : api.core with
    | none =>
      simp only [logExtension, Option.bind_some, hcore, Outcome.value.injEq] at hlogs
      rw [← hlogs] at hr
      cases hr
    | some core =>
      simp only [logExtension, Option.bind_some, hcore] at hlogs
      cases hshown : extStr ext with
      | value shown =>
        rw [hshown] at hlogs
        cases hlogs
        rw [← hcore] at hr
        exact loggerLog_sendable (.extension via ext shown hcall (extStr_shows hshown)) r hr
      | panicked => rw [hshown] at hlogs; cases hlogs
      | undefined => rw [hshown] at hlogs; cases hlogs

/-- Every message so far was one for the host that is stored now. -/
def Delivered (as : List Action) (s : Session) : Prop :=
  ∀ dest r, (dest,r) ∈ s.logs → dest = s.statics.hostApi ∧ Sendable as (getHostApi s.statics) r

theorem Delivered.log {s : Session} (h : Delivered as s) {records : List LogRecord}
    (hr : ∀ r ∈ records, Sendable as (getHostApi s.statics) r) :
    Delivered as (s.log records) := by
  intro dest r hmem
  rcases List.mem_append.mp hmem with hnew | hold
  · obtain ⟨r', hr', he⟩ := List.mem_map.mp hnew
    cases he
    exact ⟨rfl, hr r hr'⟩
  · exact h dest r hold

theorem Delivered.kept {s s' : Session} (h : Delivered as s) (hlogs : s'.logs = s.logs)
    (hhost : Extends s.statics.hostApi s'.statics.hostApi) : Delivered as s' := by
  intro dest r hmem
  obtain ⟨hdest, hsend⟩ := h dest r (hlogs ▸ hmem)
  obtain ⟨api, core, hapi, hrest⟩ := hsend
  obtain ⟨ptr, hptr, rfl⟩ := Option.map_eq_some_iff.mp hapi
  have hstored := hhost ptr hptr
  refine ⟨?_, ptr.api, core, ?_, hrest⟩
  · rw [hdest, hptr, hstored]
  · rw [getHostApi, hstored, Option.map_some]

theorem Delivered.mono {bs : List Action} {s : Session} (h : Delivered as s) (hsub : as ⊆ bs) :
    Delivered bs s := by
  intro dest r hmem
  obtain ⟨hdest, api, core, hapi, hcore, hlog, htext⟩ := h dest r hmem
  exact ⟨hdest, api, core, hapi, hcore, hlog, htext.mono hsub⟩

theorem codecStep_host {s s' : Session} {a : Calls.Action} (h : codecStep s a = some s') :
    s'.logs = s.logs ∧ s'.statics.hostApi = s.statics.hostApi := by
  have hput : ∀ w, (s.put w).logs = s.logs ∧ (s.put w).statics.hostApi = s.statics.hostApi :=
    fun _ => ⟨rfl, rfl⟩
  unfold codecStep at h
  split at h
  · next s₁ hpanic =>
    cases h
    cases a with
    | advance c answer =>
      simp only [unwrapPanic] at hpanic
      split at hpanic <;> cases hpanic <;> exact hput _
    | hostWrite slot b => cases hpanic
    | hostCopy source target => cases hpanic
    | beginDecode c slot env path frameIndex => cases hpanic
    | beginFree c slot => cases hpanic
  · obtain ⟨w, -, rfl⟩ := Option.map_eq_some_iff.mp h
    exact hput w

theorem Delivered.codec {s s' : Session} (h : Delivered as s) {a : Calls.Action}
    (hs : codecStep s a = some s') : Delivered as s' := by
  obtain ⟨hlogs, hhost⟩ := codecStep_host hs
  exact h.kept hlogs (hhost ▸ extends_refl _)

theorem step_delivered {layout : StaticLayout} {slots : SlotId → IGPixelBuffer}
    (before : List Action) (s : Session) (a : Action) (s' : Session)
    (h : Joined layout slots s ∧ Delivered before s) (ha : Promised s a)
    (hs : step layout s a = some s') :
    Joined layout slots s' ∧ Delivered (before++[a]) s' := by
  obtain ⟨hjoined, hbefore⟩ := h
  refine ⟨step_joined s a s' hjoined ha hs, ?_⟩
  have hd : Delivered (before++[a]) s := hbefore.mono (List.subset_append_left _ _)
  have hlast : a ∈ before++[a] := List.mem_append_right _ List.mem_cons_self
  have hentry : ∀ {b : EntryPoint.Action} {p : Plugin},
      EntryPoint.step layout s.plugin b = some p →
      Delivered (before++[a]) { s with plugin := p } :=
    fun hp =>
      hd.kept rfl (Lifetime.step_grows (EntryPoint.reached_ordered hjoined.entry) hp).hostApi
  cases a with
  | getApi c version host =>
    obtain ⟨p, hp, rfl⟩ := Option.map_eq_some_iff.mp hs
    exact hentry hp
  | initStep c o =>
    obtain ⟨p, hp, rfl⟩ := Option.map_eq_some_iff.mp hs
    exact hentry hp
  | hostWrite slot b =>
    rw [step] at hs
    exact hd.codec hs
  | hostCopy source target =>
    rw [step] at hs
    exact hd.codec hs
  | decode via c slot fs decodeIthmb path frameIndex =>
    obtain ⟨s₁, hs₁, rfl⟩ := Option.map_eq_some_iff.mp hs
    have hhost : getHostApi s₁.statics = getHostApi s.statics := by
      rw [getHostApi, getHostApi, (codecStep_host hs₁).2]
    exact (hd.codec hs₁).log fun r hr => hhost ▸ decodeImage_sendable hlast r hr
  | free via c slot =>
    rw [step] at hs
    exact hd.codec hs
  | advance c answer =>
    rw [step] at hs
    exact hd.codec hs
  | canHandleExtension via ext =>
    obtain ⟨answer, hanswer, rfl⟩ := Option.map_eq_some_iff.mp hs
    rcases codecCanHandleExtension_cases (getHostApi s.statics) s.statics.pluginExtensions ext
      with ⟨-, logs, hlogs, heq⟩ | ⟨-, heq⟩
    · cases heq.symm.trans hanswer
      exact hd.log (extension_sendable hlast hlogs)
    · cases heq.symm.trans hanswer
  | shutdown via =>
    cases hs
    exact hd.log (shutdown_sendable hlast s.statics)

end Messages

/-- Over the whole life of the plugin all that is said is about a call that was
made, at its level and in the words for it, and is said to the host whose
pointer was stored first, which has a log function. -/
theorem loaded_messages (layout : StaticLayout) (slots : SlotId → IGPixelBuffer)
    (as : List Action) (s : Session) (hrun : run (step layout) as (.loaded slots) = some s)
    (hok : Admits (step layout) Promised as (.loaded slots)) (dest : Option HostApiPtr)
    (r : LogRecord) (hr : (dest,r) ∈ s.logs) :
    ∃ ptr core, dest = some ptr ∧ s.statics.hostApi = some ptr ∧ ptr.api.core = some core ∧
      core.log = true ∧ Text as r.level (Utf16.decodeLossy r.message) := by
  have hinit : Joined layout slots (.loaded slots) ∧ Delivered [] (.loaded slots) :=
    ⟨loaded_joined layout slots, fun dest r hr => by cases hr⟩
  have hboth := @run_trail _ _ (step layout) Promised
    (fun before s => Joined layout slots s ∧ Delivered before s) step_delivered [] as _ _ hinit
    hok hrun
  obtain ⟨hdest, api, core, hapi, hcore, hlog, htext⟩ := hboth.2 dest r hr
  obtain ⟨ptr, hptr, rfl⟩ := Option.map_eq_some_iff.mp hapi
  exact ⟨ptr, core, hdest.trans hptr, hptr, hcore, hlog, htext⟩

def queryAndShutdown : List Action :=
  fetchTable++[.canHandleExtension 0 (extRef [0x2E,0x20AC]), .shutdown 0]

theorem loaded_messages_query :
    ∃ s r, run (step ⟨32,48⟩) queryAndShutdown (.loaded fun _ => emptyBuffer) = some s ∧
      (some ⟨64,loggingHost⟩,r) ∈ s.logs ∧
      Utf16.decodeLossy r.message = "ithmb-codec: can_handle_extension('.?')".toList ∧
      Text queryAndShutdown r.level (Utf16.decodeLossy r.message) := by
  obtain ⟨s, hs⟩ : ∃ s, run (step ⟨32,48⟩) queryAndShutdown (.loaded fun _ => emptyBuffer) =
      some s := Option.isSome_iff_exists.mp (by decide +kernel)
  have hlogs : (run (step ⟨32,48⟩) queryAndShutdown (.loaded fun _ => emptyBuffer)).map
      Session.logs = some [
        (some ⟨64,loggingHost⟩,⟨.info,encodeUtf16 "ithmb-codec: shutdown".toList⟩),
        (some ⟨64,loggingHost⟩,
          ⟨.info,encodeUtf16 "ithmb-codec: can_handle_extension('.?')".toList⟩)] := by
    decide +kernel
  rw [hs, Option.map_some, Option.some.injEq] at hlogs
  obtain ⟨-, -, -, -, -, -, htext⟩ := loaded_messages ⟨32,48⟩ _ queryAndShutdown s hs
    (by decide +kernel) _ _ (hlogs ▸ List.mem_cons_of_mem _ List.mem_cons_self)
  refine ⟨s, _, hs, hlogs ▸ List.mem_cons_of_mem _ List.mem_cons_self, ?_, htext⟩
  exact Utf16.decodeLossy_encode _

end IthmbPlugin.Loaded
