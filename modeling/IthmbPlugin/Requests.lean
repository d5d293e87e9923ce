import IthmbPlugin.Loaded
import IthmbPlugin.Sequential
import IthmbPlugin.Linearizable

/-!
# A host that makes one call at a time

Such a host sees each call as one function of the plugin's state. Its sessions,
whatever it asks for and in whatever order, are runs of the loaded plugin: the
steps of the calls compute what the functions compute, and the host's promises
for the functions are those it makes for the steps.
-/

set_option autoImplicit false

namespace IthmbPlugin.Requests
open IthmbPlugin.Types IthmbPlugin.Strings IthmbPlugin.FileIo IthmbPlugin.Registry
open IthmbPlugin.Allocator IthmbPlugin.Decode IthmbPlugin.State IthmbPlugin.Runs
open IthmbPlugin.Discipline IthmbPlugin.Extension
open IthmbPlugin.Sequential IthmbPlugin.Loaded
open IthmbPlugin.Calls (World SlotId CallId startDecode_cases)
open IthmbPlugin.Linearizable (returned)
open IthmbPlugin.DecodeContract (servingEnv somePath emptyBuffer)
open IthmbPlugin.EntryPoint (Plugin igPluginGetApi someHost someAddrs)

/-- The library and its host between two calls. -/
structure Host where
  statics : Statics
  slots : SlotId → IGPixelBuffer
  memory : Memory
  table : Option IGPluginApi
  logs : List (Option HostApiPtr × LogRecord)
  /-- What the decode calls returned, the newest first. -/
  statuses : List IGStatus

def Host.loaded (slots : SlotId → IGPixelBuffer) : Host := ⟨.unset, slots, .empty, none, [], []⟩

inductive Request where
  | getApi (version : Int32) (host : Option HostApiPtr) (o : InitOutcomes)
  | hostWrite (slot : SlotId) (b : IGPixelBuffer)
  | hostCopy (source target : SlotId)
  | decode (slot : SlotId) (fs : FileSystem) (decodeIthmb : List UInt8 → Bool → DecodeOutcome)
      (malloc : ℕ → Addr) (path : IGStringRef) (frameIndex : Int32)
  | free (slot : SlotId)
  | canHandleExtension (ext : IGStringRef)
  | shutdown

namespace Host

def log (x : Host) (records : List LogRecord) : Host :=
  { x with logs := records.map (fun r => (x.statics.hostApi,r))++x.logs }

def put (x : Host) (slot : SlotId) (buffer : Option IGPixelBuffer)
    (registry : Option BufferRegistry) (m : Memory) : Host :=
  { x with
    statics := { x.statics with bufferRegistry := registry }
    slots := Function.update x.slots slot (buffer.getD (x.slots slot))
    memory := m }

def decode (x : Host) (slot : SlotId) (fs : FileSystem)
    (decodeIthmb : List UInt8 → Bool → DecodeOutcome) (malloc : ℕ → Addr) (path : IGStringRef)
    (frameIndex : Int32) : Host :=
  let result := codecDecodeStaticRaster ⟨fs, getHostApi x.statics, decodeIthmb⟩ malloc path
    frameIndex (some (x.slots slot)) x.statics.bufferRegistry x.memory
  let x := (x.put slot result.buffer result.registry result.memory).log result.logs
  { x with statuses := result.status::x.statuses }

def free (x : Host) (slot : SlotId) : Host :=
  let result := codecFreePixelBuffer (some (x.slots slot)) x.statics.bufferRegistry x.memory
  x.put slot result.buffer result.registry result.memory

end Host

def serve (layout : StaticLayout) (x : Host) : Request → Option Host
  | .getApi version host o =>
    let result := igPluginGetApi layout o version host x.statics
    some { x with statics := result.2, table := x.table.or result.1 }
  | .hostWrite slot b => some { x with slots := Function.update x.slots slot b }
  | .hostCopy source target =>
    some { x with slots := Function.update x.slots target (x.slots source) }
  | .decode slot fs decodeIthmb malloc path frameIndex =>
    if x.table.isSome then some (x.decode slot fs decodeIthmb malloc path frameIndex) else none
  | .free slot => if x.table.isSome then some (x.free slot) else none
  | .canHandleExtension ext =>
    if x.table.isSome then
      (codecCanHandleExtension (getHostApi x.statics) x.statics.pluginExtensions ext).map fun r =>
        x.log r.2
    else none
  | .shutdown => if x.table.isSome then some (x.log (pluginShutdown x.statics)) else none

/-- Malloc answers null or a fresh address. The units of a query are readable
and, where they are logged, give bytes that are text. -/
def Kept (x : Host) : Request → Prop
  | .decode _ _ _ malloc _ _ => ∀ n, malloc n = null ∨ malloc n ∉ x.memory.live
  | .canHandleExtension ext => ext.Valid ∧ Loggable (getHostApi x.statics) ext
  | _ => True

/-- A state of the loaded plugin in which no call is in progress. -/
structure Match (x : Host) (s : Session) : Prop where
  statics : s.statics = x.statics
  slots : s.slots = x.slots
  memory : s.memory = x.memory
  logs : s.logs = x.logs
  statuses : s.history.filterMap returned = x.statuses
  quiet : s.calls = ∅
  table : x.table.isSome = true → ∃ via, HasTable s via
  fresh : ∃ n, ∀ c ≥ n, s.plugin.calls c = none

section Codec
variable {s : Session} {r : BufferRegistry} {layout : StaticLayout}

theorem world_put (hr : s.statics.bufferRegistry = some r) (w : World) : (s.put w).world = w := by
  have hcell : s.plugin.statics.bufferRegistry = some r := hr
  simp [Session.world, Session.put, Session.statics, hcell]

theorem put_world (hr : s.statics.bufferRegistry = some r) : s.put s.world = s := by
  have hcell : s.plugin.statics.bufferRegistry = some r := hr
  obtain ⟨⟨statics, calls⟩, slots, origins, memory, codecCalls, history, logs⟩ := s
  simp only [Session.put, Session.world, Session.statics] at hcell ⊢
  simp [hcell]
  rw [← hcell]

theorem registry_put (hr : s.statics.bufferRegistry = some r) (w : World) :
    (s.put w).statics.bufferRegistry = some w.registry := by
  have hcell : s.plugin.statics.bufferRegistry = some r := hr
  simp [Session.put, Session.statics, hcell]

theorem put_put (w w' : World) : (s.put w).put w' = s.put w' := by
  simp only [Session.put, Option.map_map]
  rfl

theorem log_put (w w' : World) (records : List LogRecord) :
    ((s.put w).log records).put w' = (s.put w').log records := by
  simp only [Session.put, Session.log, Session.statics, Option.map_map]
  rfl

theorem codecStep_set (hr : s.statics.bufferRegistry = some r) (a : Calls.Action) :
    codecStep s a = (Calls.step s.world a).map s.put := by
  have hno : unwrapPanic s a = none := by
    cases a <;> simp [unwrapPanic, hr]
  rw [codecStep, hno]

theorem codec_run {c : CallId} {w : World} (as : List Calls.Action)
    (hmine : ∀ a ∈ as, ∃ answer, a = .advance c answer) (hr : s.statics.bufferRegistry = some r)
    (hrun : run Calls.step as s.world = some w) (hok : Admits Calls.step MallocFresh as s.world) :
    ∃ bs, run (step layout) bs s = some (s.put w) ∧ Admits (step layout) Promised bs s := by
  induction as generalizing s r with
  | nil =>
    cases hrun
    exact ⟨[], congrArg some (put_world hr).symm, trivial⟩
  | cons a as ih =>
    obtain ⟨w₁, hstep, hrest⟩ := run_cons hrun
    obtain ⟨hfresh, hokrest⟩ := admits_cons hok hstep
    obtain ⟨answer, rfl⟩ := hmine a List.mem_cons_self
    have hs : step layout s (.advance c answer) = some (s.put w₁) := by
      rw [step, codecStep_set hr, hstep]
      rfl
    rw [← world_put hr w₁] at hrest hokrest
    obtain ⟨bs, hbs, hadmits⟩ :=
      ih (fun a ha => hmine a (List.mem_cons_of_mem _ ha)) (registry_put hr w₁) hrest hokrest
    refine ⟨.advance c answer::bs, ?_, hfresh, ?_⟩
    · rw [run, hs, Option.bind_some, hbs, put_put]
    · rw [hs]
      exact hadmits

theorem steps_fresh {c : CallId} {malloc : ℕ → Addr} {as : List Calls.Action}
    (h : Steps c malloc as) {w : World} (hfresh : ∀ n, malloc n = null ∨ malloc n ∉ w.memory.live) :
    Admits Calls.step MallocFresh as w := by
  rcases h with rfl | ⟨answer, rest, rfl, hanswer, hrest⟩
  · trivial
  · refine ⟨?_, ?_⟩
    · rcases hanswer with rfl | ⟨n, rfl⟩
      · exact Or.inl rfl
      · exact hfresh n
    · cases Calls.step w (.advance c answer) with
      | none => trivial
      | some w' =>
        exact admits_of_forall (fun _ a ha => by rw [hrest a ha]; exact Or.inl rfl) w'

theorem Steps.mine {c : CallId} {malloc : ℕ → Addr} {as : List Calls.Action}
    (h : Steps c malloc as) : ∀ a ∈ as, ∃ answer, a = .advance c answer := by
  rcases h with rfl | ⟨answer, rest, rfl, -, hrest⟩
  · simp
  · intro a ha
    rcases List.mem_cons.mp ha with rfl | ha
    · exact ⟨answer, rfl⟩
    · exact ⟨null, hrest a ha⟩

theorem decode_logs (env : DecodeEnv) (malloc : ℕ → Addr) (path : IGStringRef)
    (frameIndex : Int32) (b : IGPixelBuffer) (registry : Option BufferRegistry) (m : Memory) :
    (codecDecodeStaticRaster env malloc path frameIndex (some b) registry m).logs =
      (decodeImage env path frameIndex false).2 := by
  rcases himg : decodeImage env path frameIndex false with ⟨status | img, logs⟩
  · rw [@decode_refused _ _ _ (some b) _ _ himg]
  · simp only [codecDecodeStaticRaster, Option.isNone_some, himg]
    cases frameOf img with
    | none => rfl
    | some f =>
      simp only
      split_ifs
      · rfl
      · cases registry with
        | none => rfl
        | some r =>
          rcases hreg : register r (malloc f.bufSize) f.bufSize with ⟨_ | _, _⟩ <;>
            simp only [hreg]

end Codec

section Serve
variable {layout : StaticLayout} {x x' : Host} {s : Session} {r : BufferRegistry}
variable {via : EntryPoint.CallId}

theorem Match.put (h : Match x s) (hr : s.statics.bufferRegistry = some r) {w : World}
    {slot : SlotId} {buffer : Option IGPixelBuffer} {registry : Option BufferRegistry} {m : Memory}
    (hothers : OthersKept slot s.world w) (hslot : some (w.slots slot) = buffer)
    (hregistry : some w.registry = registry) (hmemory : w.memory = m)
    {statuses : List IGStatus} (hstatuses : w.history.filterMap returned = statuses) :
    Match { x.put slot buffer registry m with statuses := statuses } (s.put w) where
  statics := by
    rw [Host.put, ← hregistry, ← h.statics]
    have hcell : s.plugin.statics.bufferRegistry = some r := hr
    simp [Session.put, Session.statics, hcell]
  slots := by
    subst hslot
    change w.slots = Function.update x.slots slot (w.slots slot)
    funext t
    by_cases ht : t = slot
    · rw [ht, Function.update_self]
    · rw [Function.update_of_ne ht, ← h.slots]
      exact hothers.2 t ht
  memory := hmemory
  logs := h.logs
  statuses := hstatuses
  quiet := hothers.1.trans h.quiet
  table := h.table
  fresh := h.fresh

theorem Match.log (h : Match x s) (records : List LogRecord) :
    Match (x.log records) (s.log records) where
  statics := h.statics
  slots := h.slots
  memory := h.memory
  logs := by
    simp only [Session.log, Host.log, h.logs, h.statics]
  statuses := h.statuses
  quiet := h.quiet
  table := h.table
  fresh := h.fresh

theorem Match.idle (h : Match x s) (c : CallId) : c ∉ s.world.calls := by
  change c ∉ s.calls
  rw [h.quiet]
  exact Finmap.notMem_empty

theorem serve_codec {c : CallId} {a : Action} {b : Calls.Action} {records : List LogRecord}
    {as : List Calls.Action} {w : World} (hr : s.statics.bufferRegistry = some r)
    (hstep : ∀ w, Calls.step s.world b = some w → step layout s a = some ((s.put w).log records))
    (ha : Promised s a) (hmine : ∀ a ∈ as, ∃ answer, a = .advance c answer)
    (hrun : run Calls.step (b::as) s.world = some w)
    (hok : ∀ w, Calls.step s.world b = some w → Admits Calls.step MallocFresh as w) :
    ∃ bs, run (step layout) bs s = some ((s.put w).log records) ∧
      Admits (step layout) Promised bs s := by
  obtain ⟨w₁, hbegin, hrest⟩ := run_cons hrun
  have hfirst := hstep w₁ hbegin
  have hworld : ((s.put w₁).log records).world = w₁ := world_put hr w₁
  have hcell : ((s.put w₁).log records).statics.bufferRegistry = some w₁.registry :=
    registry_put hr w₁
  have hadmits := hok w₁ hbegin
  rw [← hworld] at hrest hadmits
  obtain ⟨bs, hbs, hbsok⟩ := @codec_run _ _ layout c w as hmine hcell hrest hadmits
  refine ⟨a::bs, ?_, ha, ?_⟩
  · rw [run, hfirst, Option.bind_some, hbs, log_put]
  · rw [hfirst]
    exact hbsok

theorem world_registry (hr : s.statics.bufferRegistry = some r) :
    s.statics.bufferRegistry = some s.world.registry := by
  rw [hr, Session.world, hr]
  rfl

theorem beginDecode_memory {c : CallId} {slot : Option SlotId} {env : DecodeEnv}
    {path : IGStringRef} {frameIndex : Int32} {w w' : World}
    (h : Calls.step w (.beginDecode c slot env path frameIndex) = some w') :
    w'.memory = w.memory := by
  obtain ⟨-, hw⟩ := Option.ite_none_left_eq_some.mp h
  cases Option.some.inj hw
  rcases startDecode_cases w c slot env path frameIndex with ⟨status, heq, -⟩ | ⟨t, f, -, heq⟩ <;>
    rw [heq] <;> rfl

theorem serve_decode (h : Match x s) (hr : s.statics.bufferRegistry = some r)
    (hvia : HasTable s via) (slot : SlotId) (fs : FileSystem)
    (decodeIthmb : List UInt8 → Bool → DecodeOutcome) (malloc : ℕ → Addr) (path : IGStringRef)
    (frameIndex : Int32) (hfresh : ∀ n, malloc n = null ∨ malloc n ∉ x.memory.live) :
    ∃ as s', run (step layout) as s = some s' ∧ Admits (step layout) Promised as s ∧
      Match (x.decode slot fs decodeIthmb malloc path frameIndex) s' := by
  let env : DecodeEnv := ⟨fs, getHostApi s.statics, decodeIthmb⟩
  obtain ⟨as, w, hsteps, hrun, hothers, hslot, hregistry, hmemory, hfilled, hrefused⟩ :=
    decode_alone s.world 0 (h.idle 0) slot env malloc path frameIndex
  have hstep : ∀ w, Calls.step s.world (.beginDecode 0 (some slot) env path frameIndex) = some w →
      step layout s (.decode via 0 (some slot) fs decodeIthmb path frameIndex) =
        some ((s.put w).log (decodeImage env path frameIndex false).2) := by
    intro w hw
    rw [step, codecStep_set hr, hw]
    rfl
  have hok : ∀ w, Calls.step s.world (.beginDecode 0 (some slot) env path frameIndex) = some w →
      Admits Calls.step MallocFresh as w := by
    intro w hw
    have hmem : w.memory = x.memory := (beginDecode_memory hw).trans h.memory
    exact steps_fresh hsteps (hmem ▸ hfresh)
  obtain ⟨bs, hbs, hadmits⟩ := serve_codec hr hstep hvia (Steps.mine hsteps) hrun hok
  refine ⟨bs, _, hbs, hadmits, ?_⟩
  have hstatuses : w.history.filterMap returned =
      (codecDecodeStaticRaster env malloc path frameIndex (some (s.world.slots slot))
        (some s.world.registry) s.world.memory).status::x.statuses := by
    by_cases hstatus : (codecDecodeStaticRaster env malloc path frameIndex
        (some (s.world.slots slot)) (some s.world.registry) s.world.memory).status = .ok
    · obtain ⟨serial, p, hhistory⟩ := hfilled hstatus
      rw [hhistory, hstatus]
      exact congrArg (.ok::·) h.statuses
    · rw [hrefused hstatus]
      exact congrArg (_::·) h.statuses
  have hput := (h.put hr hothers hslot hregistry hmemory hstatuses).log
    (decodeImage env path frameIndex false).2
  rw [← world_registry hr] at hput
  simp only [Host.decode, decode_logs, ← h.statics, ← h.slots, ← h.memory]
  exact hput

theorem serve_free (h : Match x s) (hr : s.statics.bufferRegistry = some r)
    (hvia : HasTable s via) (slot : SlotId) :
    ∃ as s', run (step layout) as s = some s' ∧ Admits (step layout) Promised as s ∧
      Match (x.free slot) s' := by
  obtain ⟨as, w, hsteps, hrun, hothers, hslot, hregistry, hmemory, hhistory⟩ :=
    free_alone s.world 0 (h.idle 0) slot
  have hstep : ∀ w, Calls.step s.world (.beginFree 0 (some slot)) = some w →
      step layout s (.free via 0 (some slot)) = some ((s.put w).log []) := by
    intro w hw
    rw [step, codecStep_set hr, hw]
    rfl
  have hok : ∀ w, Calls.step s.world (.beginFree 0 (some slot)) = some w →
      Admits Calls.step MallocFresh as w :=
    fun w _ => admits_of_forall (fun _ a ha => by rw [hsteps a ha]; exact Or.inl rfl) w
  obtain ⟨bs, hbs, hadmits⟩ :=
    serve_codec hr hstep hvia (fun a ha => ⟨null, hsteps a ha⟩) hrun hok
  refine ⟨bs, _, hbs, hadmits, ?_⟩
  have hstatuses : w.history.filterMap returned = x.statuses := by
    rw [hhistory]
    exact h.statuses
  have hput := h.put hr hothers hslot hregistry hmemory hstatuses
  rw [← world_registry hr] at hput
  simp only [Host.free, ← h.statics, ← h.slots, ← h.memory]
  exact hput

theorem entry_run {c : EntryPoint.CallId} {p : Plugin} (as : List EntryPoint.Action)
    (hmine : ∀ a ∈ as, ∃ o, a = .advance c o)
    (hrun : run (EntryPoint.step layout) as s.plugin = some p) :
    ∃ bs, run (step layout) bs s = some { s with plugin := p } ∧
      Admits (step layout) Promised bs s := by
  induction as generalizing s with
  | nil =>
    cases hrun
    exact ⟨[], rfl, trivial⟩
  | cons a as ih =>
    obtain ⟨p₁, hstep, hrest⟩ := run_cons hrun
    obtain ⟨o, rfl⟩ := hmine a List.mem_cons_self
    have hs : step layout s (.initStep c o) = some { s with plugin := p₁ } := by
      rw [step, hstep]
      rfl
    obtain ⟨bs, hbs, hadmits⟩ := @ih { s with plugin := p₁ }
      (fun a ha => hmine a (List.mem_cons_of_mem _ ha)) hrest
    refine ⟨.initStep c o::bs, ?_, trivial, ?_⟩
    · rw [run, hs, Option.bind_some, hbs]
    · rw [hs]
      exact hadmits

theorem advances_others {c : EntryPoint.CallId} {p p' : Plugin} {as : List EntryPoint.Action}
    (hmine : ∀ a ∈ as, ∃ o, a = .advance c o)
    (hrun : run (EntryPoint.step layout) as p = some p') :
    ∀ d, d ≠ c → p'.calls d = p.calls d := by
  refine @run_invariant _ _ _ (fun _ a => ∃ o, a = .advance c o)
    (fun q => ∀ d, d ≠ c → q.calls d = p.calls d) ?_ as p p' (fun _ _ => rfl)
    (admits_of_forall (fun _ => hmine) p) hrun
  rintro q a q' hq ⟨o, rfl⟩ hs d hd
  simp only [EntryPoint.step] at hs
  split at hs
  · cases hs
  · obtain ⟨⟨st, pc⟩, -, rfl⟩ := Option.map_eq_some_iff.mp hs
    exact (Function.update_of_ne hd ..).trans (hq d hd)

theorem serve_getApi (h : Match x s) (version : Int32) (host : Option HostApiPtr)
    (o : InitOutcomes) :
    ∃ as s', run (step layout) as s = some s' ∧ Admits (step layout) Promised as s ∧
      Match { x with
        statics := (igPluginGetApi layout o version host x.statics).2
        table := x.table.or (igPluginGetApi layout o version host x.statics).1 } s' := by
  obtain ⟨c, hfresh⟩ := h.fresh
  let p : Plugin := { s.plugin with
    calls := Function.update s.plugin.calls c (some ⟨version, host, .entered⟩) }
  have hcall : step layout s (.getApi c version host) = some { s with plugin := p } := by
    simp only [step, EntryPoint.step, hfresh c le_rfl]
    rfl
  have hentered : p.calls c = some ⟨version, host, .entered⟩ := Function.update_self ..
  have hstatics : p.statics = x.statics := h.statics
  obtain ⟨as, p', hmine, hrun, hst, e, hc, hpc⟩ := EntryPoint.entry_alone layout o hentered
  rw [hstatics] at hst hpc
  obtain ⟨bs, hbs, hadmits⟩ := @entry_run layout { s with plugin := p } c p' as hmine hrun
  have hothers : ∀ d, d ≠ c → p'.calls d = s.plugin.calls d := fun d hd =>
    (advances_others hmine hrun d hd).trans (Function.update_of_ne hd ..)
  refine ⟨.getApi c version host::bs, { s with plugin := p' }, ?_, ⟨trivial, ?_⟩, ?_⟩
  · rw [run, hcall, Option.bind_some, hbs]
  · rw [hcall]
    exact hadmits
  · exact {
      statics := hst
      slots := h.slots
      memory := h.memory
      logs := h.logs
      statuses := h.statuses
      quiet := h.quiet
      table := by
        intro htable
        cases hx : x.table with
        | none =>
          rw [hx, Option.none_or] at htable
          obtain ⟨api, hapi⟩ := Option.isSome_iff_exists.mp htable
          exact ⟨c, hasTable_iff.mpr ⟨e, api, hc, hapi ▸ hpc⟩⟩
        | some api =>
          obtain ⟨via, hvia⟩ := h.table (by rw [hx]; rfl)
          obtain ⟨e', api', hc', hpc'⟩ := hasTable_iff.mp hvia
          have hne : via ≠ c := by
            rintro rfl
            rw [hfresh via le_rfl] at hc'
            cases hc'
          exact ⟨via, hasTable_iff.mpr ⟨e', api', (hothers via hne).trans hc', hpc'⟩⟩
      fresh := ⟨c+1, fun d hd =>
        (hothers d (Nat.ne_of_gt hd)).trans (hfresh d (Nat.le_of_lt hd))⟩ }

theorem Match.hostMove (h : Match x s) {w : World} (hregistry : w.registry = s.world.registry)
    (hmemory : w.memory = s.memory) (hcalls : w.calls = s.calls)
    (hhistory : w.history = s.history) :
    Match { x with slots := w.slots } (s.put w) where
  statics := by
    rw [← h.statics]
    have hcell : (s.plugin.statics.bufferRegistry.map fun _ => w.registry) =
        s.plugin.statics.bufferRegistry := by
      rw [hregistry, Session.world, Session.statics]
      cases s.plugin.statics.bufferRegistry <;> rfl
    simp only [Session.put, Session.statics, hcell]
  slots := rfl
  memory := hmemory.trans h.memory
  logs := h.logs
  statuses := by
    change w.history.filterMap returned = _
    rw [hhistory]
    exact h.statuses
  quiet := hcalls.trans h.quiet
  table := h.table
  fresh := h.fresh

/-- Every request is served by a run of the plugin. -/
theorem serve_run (h : Match x s) {slots : SlotId → IGPixelBuffer} (hjoined : Joined layout slots s)
    {a : Request} (hok : Kept x a) (hs : serve layout x a = some x') :
    ∃ as s', run (step layout) as s = some s' ∧ Admits (step layout) Promised as s ∧
      Match x' s' := by
  cases a with
  | getApi version host o =>
    cases hs
    exact serve_getApi h version host o
  | hostWrite slot b =>
    cases hs
    refine ⟨[.hostWrite slot b], _, rfl, ⟨trivial, trivial⟩, ?_⟩
    have hmove := h.hostMove (w := s.world.writeSlot slot b none) rfl rfl rfl rfl
    rw [← h.slots]
    exact hmove
  | hostCopy source target =>
    cases hs
    refine ⟨[.hostCopy source target], _, rfl, ⟨trivial, trivial⟩, ?_⟩
    have hmove := h.hostMove
      (w := s.world.writeSlot target (s.world.slots source) (s.world.origins source))
      rfl rfl rfl rfl
    rw [← h.slots]
    exact hmove
  | decode slot fs decodeIthmb malloc path frameIndex =>
    obtain ⟨htable, hx⟩ := Option.ite_none_right_eq_some.mp hs
    cases hx
    obtain ⟨via, hvia⟩ := h.table htable
    obtain ⟨r, hr⟩ := hjoined.registry_set hvia
    exact serve_decode h hr hvia slot fs decodeIthmb malloc path frameIndex hok
  | free slot =>
    obtain ⟨htable, hx⟩ := Option.ite_none_right_eq_some.mp hs
    cases hx
    obtain ⟨via, hvia⟩ := h.table htable
    obtain ⟨r, hr⟩ := hjoined.registry_set hvia
    exact serve_free h hr hvia slot
  | canHandleExtension ext =>
    obtain ⟨htable, hx⟩ := Option.ite_none_right_eq_some.mp hs
    obtain ⟨via, hvia⟩ := h.table htable
    rw [← h.statics] at hx
    obtain ⟨answer, hanswer, rfl⟩ := Option.map_eq_some_iff.mp hx
    have hstep : step layout s (.canHandleExtension via ext) = some (s.log answer.2) := by
      rw [step, hanswer, Option.map_some]
    refine ⟨[.canHandleExtension via ext], s.log answer.2, ?_, ⟨⟨hvia, ?_⟩, ?_⟩, h.log _⟩
    · rw [run, hstep, Option.bind_some, run]
    · rw [h.statics]
      exact hok
    · rw [hstep]
      trivial
  | shutdown =>
    obtain ⟨htable, hx⟩ := Option.ite_none_right_eq_some.mp hs
    cases hx
    obtain ⟨via, hvia⟩ := h.table htable
    refine ⟨[.shutdown via], _, rfl, ⟨hvia, trivial⟩, ?_⟩
    rw [← h.statics]
    exact h.log _

end Serve

theorem loaded_match (slots : SlotId → IGPixelBuffer) : Match (.loaded slots) (.loaded slots) where
  statics := rfl
  slots := rfl
  memory := rfl
  logs := rfl
  statuses := rfl
  quiet := rfl
  table htable := by cases htable
  fresh := ⟨0, fun _ _ => rfl⟩

theorem reached_match {layout : StaticLayout} {slots : SlotId → IGPixelBuffer} {x : Host}
    (h : Reached (serve layout) Kept (.loaded slots) x) :
    ∃ s, Reached (step layout) Promised (.loaded slots) s ∧ Match x s := by
  have hinit : ∃ s, Reached (step layout) Promised (.loaded slots) s ∧ Match (.loaded slots) s :=
    ⟨.loaded slots, .start _, loaded_match slots⟩
  refine @reached_invariant _ _ _ _
    (fun y => ∃ s, Reached (step layout) Promised (.loaded slots) s ∧ Match y s) _ _ hinit ?_ h
  rintro y a y' ⟨s, hreached, hmatch⟩ hok hs
  have hjoined : Joined layout slots s :=
    reached_invariant (loaded_joined layout slots) step_joined hreached
  obtain ⟨as, s', hrun, hadmits, hmatch'⟩ := serve_run hmatch hjoined hok hs
  exact ⟨s', hreached.append hadmits hrun, hmatch'⟩

/-- Every session of a host that makes one call at a time and keeps its promises
is a run of the loaded plugin, with the same statics, structs, heap and messages
and the same statuses of the decode calls. Between its calls the live blocks are
the registered ones. -/
theorem sessions_are_runs (layout : StaticLayout) (slots : SlotId → IGPixelBuffer) (x : Host)
    (h : Reached (serve layout) Kept (.loaded slots) x) :
    (∃ s, Reached (step layout) Promised (.loaded slots) s ∧ Match x s) ∧
    ∀ p, p ∈ x.memory.live ↔ ∃ r, x.statics.bufferRegistry = some r ∧ p ∈ r.entries := by
  obtain ⟨s, hreached, hmatch⟩ := reached_match h
  refine ⟨⟨s, hreached, hmatch⟩, fun p => ?_⟩
  have hjoined : Joined layout slots s :=
    reached_invariant (loaded_joined layout slots) step_joined hreached
  rw [← hmatch.memory, ← hmatch.statics]
  exact hjoined.quiet_live hmatch.quiet p

def session : List Request :=
  [.getApi 1000000 (some someHost) ⟨.completes someAddrs, .completes someAddrs,
      .completes someAddrs, .completes someAddrs⟩,
    .decode 0 (servingEnv pixel).fs (servingEnv pixel).decodeIthmb (fun _ => 8) somePath 0,
    .free 0, .shutdown]

theorem sessions_are_runs_freed :
    ∃ x s, run (serve ⟨32,48⟩) session (.loaded fun _ => emptyBuffer) = some x ∧
      x.statuses = [.ok] ∧ Reached (step ⟨32,48⟩) Promised (.loaded fun _ => emptyBuffer) s ∧
      Match x s := by
  obtain ⟨x, hx⟩ : ∃ x, run (serve ⟨32,48⟩) session (.loaded fun _ => emptyBuffer) = some x :=
    Option.isSome_iff_exists.mp (by decide)
  have hstatuses : (run (serve ⟨32,48⟩) session (.loaded fun _ => emptyBuffer)).map
      Host.statuses = some [.ok] := by decide
  rw [hx] at hstatuses
  have hok : Admits (serve ⟨32,48⟩) Kept session (.loaded fun _ => emptyBuffer) :=
    ⟨trivial, fun _ => Or.inr Finmap.notMem_empty, trivial, trivial, trivial⟩
  obtain ⟨s, hreached, hmatch⟩ := (sessions_are_runs ⟨32,48⟩ _ x ⟨session, hx, hok⟩).1
  exact ⟨x, s, hx, Option.some.inj hstatuses, hreached, hmatch⟩

end IthmbPlugin.Requests
