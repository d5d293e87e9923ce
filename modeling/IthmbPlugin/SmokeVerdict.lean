import IthmbPlugin.AbiSmoke
import IthmbPlugin.Requests

/-!
# What the smoke test certifies

The test passes exactly in the surroundings it needs, and each of the failures
it can report has its cause there. A passing test is a session of a host that
makes one call at a time, and so a run of the loaded plugin.
-/

set_option autoImplicit false

namespace IthmbPlugin.SmokeVerdict
open IthmbPlugin.Types IthmbPlugin.Strings IthmbPlugin.FileIo IthmbPlugin.Registry
open IthmbPlugin.Allocator IthmbPlugin.Decode IthmbPlugin.State IthmbPlugin.EntryPoint
open IthmbPlugin.Extension IthmbPlugin.Metadata IthmbPlugin.MetadataContract
open IthmbPlugin.DecodeContract IthmbPlugin.ByteStream IthmbPlugin.AbiSmoke
open IthmbPlugin.MachineInt (isizeMax)
open IthmbPlugin.Loaded (getHostApi Promised)
open IthmbPlugin.Linearizable (returned)
open IthmbPlugin.Discipline (pixel)
open IthmbPlugin.Runs (run Reached)
open IthmbPlugin.Requests (Host Request serve Kept reached_match)

def Described (o : Outside) (info : IGImageInfo) : Prop :=
  ∃ first fileSize w h, ReportsSize o.metadataFs (fixturePath o) fileSize ∧
    fileSize.toNat ≤ 8*1024*1024 ∧ StartsWith o.metadataFs (fixturePath o) first ∧
    Denotes o.core (i32FromBeBytes first) (w,h) ∧
    info = fillImageInfo zeroInfo w h fileSize.toInt64

/-- Everything the test needs of its surroundings in order to pass. -/
structure Passes (o : Outside) (addrs : BufferAddrs) (info : IGImageInfo) (f : Frame) : Prop where
  found : Found o
  inits : completed o.inits = some addrs
  metadata : Described o info
  decoded : Decoded o f
  served : o.malloc f.bufSize ≠ null
  shape : 0 < f.width.toInt ∧ 0 < f.height.toInt
  /-- As a C `int` the size of the frame is still a byte a pixel. -/
  readable : f.width.toInt*f.height.toInt ≤ (cInt f.bufSize).toInt

def outcome (o : Outside) (addrs : BufferAddrs) (info : IGImageInfo) (f : Frame) : Handled where
  info := info
  decoded := f.publish (o.malloc f.bufSize)
  raw := f.data.take (cInt f.bufSize).toInt.toNat
  freed := clearedBuffer (f.publish (o.malloc f.bufSize))
  library := finished o addrs f
  messages := []

/-- What the test can find wrong, and when. -/
inductive Blames (o : Outside) : Failure → Prop
  | cdylib (h : o.soExists = false) : Blames o (.cdylibNotFound o.soPath)
  | fixture (h : o.fixtureExists = false) : Blames o (.fixtureNotFound o.fixture)
  | library (h : o.loads = false) : Blames o .notLoaded
  | inits (h : completed o.inits = none) : Blames o .nullApi
  | metadata (s : Stage) (h : FirstFailing o.core o.metadataFs (fixturePath o) s) :
      Blames o (.loadMetadata s.status)
  | decode (st : IGStatus) (logs : List LogRecord)
      (h : decodeImage (decodeEnv o) (fixturePath o) 0 false = (.error st,logs)) :
      Blames o (.decodeStaticRaster st)
  | memory (img : DecodedImage) (logs : List LogRecord)
      (himg : decodeImage (decodeEnv o) (fixturePath o) 0 false = (.ok img,logs))
      (h : ∀ f, frameOf img = some f → o.malloc f.bufSize = null) :
      Blames o (.decodeStaticRaster .outOfMemory)
  | shape (f : Frame) (hf : Decoded o f) (h : f.width.toInt ≤ 0 ∨ f.height.toInt ≤ 0) :
      Blames o (.invalidBuffer f.width f.height f.stride)
  | negative (f : Frame) (hf : Decoded o f) (h : (cInt f.bufSize).toInt < 0) :
      Blames o .systemError
  | small (f : Frame) (hf : Decoded o f)
      (h : (cInt f.bufSize).toInt < f.width.toInt*f.height.toInt) : Blames o .smallBuffer

section Verdict
variable {o : Outside}

theorem smoke_opened (hfound : Found o) {addrs : BufferAddrs}
    (hinits : completed o.inits = some addrs) :
    smoke o = (handleFixture o (initPluginState addrs).pluginApi (initPluginState addrs).codecApi
      (settled o addrs)).map fun handled => (pluginTables,handled) := by
  let api := (initPluginState addrs).pluginApi
  let st := settled o addrs
  let ext := utf16Ref o.extAddr (codePoints ".ithmb")
  calc smoke o
      = (openTables api st >>= fun opened => checkExtension opened.1 st ext >>= fun _ =>
          (handleFixture o api opened.1 st).map fun handled => (opened.2,handled)) := by
        rw [smoke, openPlugin_eq o hfound, hinits]
        rfl
    _ = (checkExtension (initPluginState addrs).codecApi st ext >>= fun _ =>
          (handleFixture o api (initPluginState addrs).codecApi st).map fun handled =>
            (pluginTables,handled)) := by
        rw [openTables_eq]
        rfl
    _ = _ := by
        rw [checkExtension_eq]
        rfl

theorem smoke_not_found (h : ¬ Found o) : ∃ e, smoke o = .error e ∧ Blames o e := by
  rw [smoke, openPlugin]
  cases hso : o.soExists with
  | false => exact ⟨_, rfl, .cdylib hso⟩
  | true =>
    cases hfixture : o.fixtureExists with
    | false => exact ⟨_, rfl, .fixture hfixture⟩
    | true =>
      cases hloads : o.loads with
      | false => exact ⟨_, rfl, .library hloads⟩
      | true => exact absurd ⟨hso, hfixture, hloads⟩ h

theorem smoke_unopened (h : ¬ Found o ∨ completed o.inits = none) :
    ∃ e, smoke o = .error e ∧ Blames o e := by
  by_cases hfound : Found o
  · have hinits : completed o.inits = none := h.resolve_left (not_not.mpr hfound)
    refine ⟨_, ?_, .inits hinits⟩
    rw [smoke, openPlugin_eq o hfound, hinits]
    rfl
  · exact smoke_not_found hfound

theorem checkFrame_cases {f : Frame} (hf : Decoded o f) :
    (∃ e, checkFrame f = .error e ∧ Blames o e) ∨
    ((0 < f.width.toInt ∧ 0 < f.height.toInt) ∧
      f.width.toInt*f.height.toInt ≤ (cInt f.bufSize).toInt) := by
  unfold checkFrame
  split_ifs with hpos hneg hsmall
  · exact Or.inl ⟨_, rfl, .negative f hf hneg⟩
  · exact Or.inl ⟨_, rfl, .small f hf hsmall⟩
  · exact Or.inr ⟨hpos, Int.not_lt.mp hsmall⟩
  · exact Or.inl ⟨_, rfl, .shape f hf (by omega)⟩

theorem checkFrame_readable {f : Frame} (hpos : 0 < f.width.toInt ∧ 0 < f.height.toInt)
    (hsize : f.width.toInt*f.height.toInt ≤ (cInt f.bufSize).toInt) :
    checkFrame f = .ok (f.data.take (cInt f.bufSize).toInt.toNat) := by
  have hpixels : 0 < f.width.toInt*f.height.toInt := mul_pos hpos.1 hpos.2
  rw [checkFrame, if_pos hpos, if_neg (by omega), if_neg (by omega)]

theorem handleFixture_cases (hdecoder : DecoderContract o.decodeIthmb)
    (hmalloc : ∀ n, isizeMax < n → o.malloc n = null) (addrs : BufferAddrs) :
    (∃ e, handleFixture o (initPluginState addrs).pluginApi (initPluginState addrs).codecApi
      (settled o addrs) = .error e ∧ Blames o e) ∨
    ∃ info f, Described o info ∧ Decoded o f ∧ o.malloc f.bufSize ≠ null ∧
      (0 < f.width.toInt ∧ 0 < f.height.toInt) ∧
      f.width.toInt*f.height.toInt ≤ (cInt f.bufSize).toInt := by
  rw [handleFixture]
  rcases loadFixture_cases o addrs with
    ⟨s, hs, hload⟩ | ⟨first, n, w, h, hsize, hle, hfirst, hdims, hload⟩
  · refine Or.inl ⟨_, ?_, .metadata s hs⟩
    change (loadFixture o _ (fixturePath o) >>= _) = _
    rw [hload]
    rfl
  · by_cases hserved : ∃ f, Decoded o f ∧ o.malloc f.bufSize ≠ null
    · obtain ⟨f, hf, hp⟩ := hserved
      rcases checkFrame_cases hf with ⟨e, herror, hblames⟩ | hread
      · refine Or.inl ⟨e, ?_, hblames⟩
        change (loadFixture o _ (fixturePath o) >>= fun _ =>
          decodeFixture o _ _ (fixturePath o) >>= _) = _
        rw [hload, decodeFixture_served addrs hdecoder hmalloc hf hp, herror]
        rfl
      · exact Or.inr ⟨_, f, ⟨first, n, w, h, hsize, hle, hfirst, hdims, rfl⟩, hf, hp, hread⟩
    · rcases decodeFixture_refused addrs hserved with
        ⟨st, logs, himg, hst⟩ | ⟨img, logs, himg, hnull, hst⟩
      · refine Or.inl ⟨_, ?_, .decode st logs himg⟩
        change (loadFixture o _ (fixturePath o) >>= fun _ =>
          decodeFixture o _ _ (fixturePath o) >>= _) = _
        rw [hload, hst]
        rfl
      · refine Or.inl ⟨_, ?_, .memory img logs himg hnull⟩
        change (loadFixture o _ (fixturePath o) >>= fun _ =>
          decodeFixture o _ _ (fixturePath o) >>= _) = _
        rw [hload, hst]
        rfl

theorem loadFixture_described {info : IGImageInfo} (h : Described o info) (addrs : BufferAddrs) :
    loadFixture o (initPluginState addrs).codecApi (fixturePath o) = .ok info := by
  obtain ⟨first, n, w, h, ⟨path, hpath, hstat⟩, hle, ⟨path', file, rest, hpath', hfile, hdel, h4⟩,
    hdims, rfl⟩ := h
  cases hpath.symm.trans hpath'
  have hsize : checkFileSize o.metadataFs path = .ok n :=
    (checkFileSize_ok_iff _ _ _).mpr ⟨hstat, UInt64.not_lt.mp ((size_within_iff n).mpr hle)⟩
  have hread : readIthmbPrefix o.metadataFs path = .ok (first,n) := by
    have henough : 4 ≤ (delivered file).length := by
      rw [hdel, List.length_append]
      omega
    simp only [readIthmbPrefix, hsize, hfile, readExact_eq, if_pos henough]
    rw [hdel, ← h4, List.take_left]
  rw [loadFixture_eq, load_after_first_bytes o.core zeroInfo hpath hread,
    (tableDimensions_ok_iff _ _ _).mpr hdims]
  rfl

theorem handleFixture_passes (hdecoder : DecoderContract o.decodeIthmb)
    (hmalloc : ∀ n, isizeMax < n → o.malloc n = null) (addrs : BufferAddrs) {info : IGImageInfo}
    {f : Frame} (hinfo : Described o info) (hf : Decoded o f) (hp : o.malloc f.bufSize ≠ null)
    (hpos : 0 < f.width.toInt ∧ 0 < f.height.toInt)
    (hsize : f.width.toInt*f.height.toInt ≤ (cInt f.bufSize).toInt) :
    handleFixture o (initPluginState addrs).pluginApi (initPluginState addrs).codecApi
      (settled o addrs) = .ok (outcome o addrs info f) := by
  rw [handleFixture]
  change (loadFixture o _ (fixturePath o) >>= fun _ =>
    decodeFixture o _ _ (fixturePath o) >>= fun _ => freeFixture _ _ _ >>= _) = _
  rw [loadFixture_described hinfo, decodeFixture_served addrs hdecoder hmalloc hf hp,
    checkFrame_readable hpos hsize]
  simp only [bind, Except.bind, Except.map, freeFixture_held addrs hp]
  rfl

theorem finished_clean (addrs : BufferAddrs) {f : Frame} (hp : o.malloc f.bufSize ≠ null) :
    (finished o addrs f).memory.live = ∅ ∧ (finished o addrs f).statics = settled o addrs := by
  have hentries : ((BufferRegistry.new.track (o.malloc f.bufSize) f.bufSize).untrack
      (o.malloc f.bufSize)) = .new := by
    have hback : (((∅ : Finmap (fun _ : Addr => BufferEntry)).insert (o.malloc f.bufSize)
        ⟨o.malloc f.bufSize, f.bufSize, false⟩).erase (o.malloc f.bufSize)) = ∅ := by
      apply Finmap.ext_lookup
      intro q
      by_cases hq : q = o.malloc f.bufSize
      · rw [hq, Finmap.lookup_erase, Finmap.lookup_empty]
      · rw [Finmap.lookup_erase_ne hq, Finmap.lookup_insert_of_ne _ hq]
    exact congrArg (fun entries => BufferRegistry.mk entries false) hback
  refine ⟨filled_free_live hp Finmap.notMem_empty f.data f.bufSize f.bufSize, ?_⟩
  simp only [finished, hentries]
  rfl

theorem smoke_passes (hdecoder : DecoderContract o.decodeIthmb)
    (hmalloc : ∀ n, isizeMax < n → o.malloc n = null) {tables : Tables} {handled : Handled}
    (hok : smoke o = .ok (tables,handled)) : ∃ addrs info f, Passes o addrs info f ∧
      tables = pluginTables ∧ handled = outcome o addrs info f := by
  by_cases hopen : ¬ Found o ∨ completed o.inits = none
  · obtain ⟨e, herror, -⟩ := smoke_unopened hopen
    rw [herror] at hok
    cases hok
  · push Not at hopen
    obtain ⟨addrs, hinits⟩ := Option.ne_none_iff_exists'.mp hopen.2
    rw [smoke_opened hopen.1 hinits] at hok
    rcases handleFixture_cases hdecoder hmalloc addrs with
      ⟨e, herror, -⟩ | ⟨info, f, hinfo, hf, hp, hpos, hsize⟩
    · rw [herror] at hok
      cases hok
    · rw [handleFixture_passes hdecoder hmalloc addrs hinfo hf hp hpos hsize] at hok
      cases hok
      exact ⟨addrs, info, f, ⟨hopen.1, hinits, hinfo, hf, hp, hpos, hsize⟩, rfl, rfl⟩

theorem passes_smoke (hdecoder : DecoderContract o.decodeIthmb)
    (hmalloc : ∀ n, isizeMax < n → o.malloc n = null) {addrs : BufferAddrs} {info : IGImageInfo}
    {f : Frame} (h : Passes o addrs info f) :
    smoke o = .ok (pluginTables,outcome o addrs info f) := by
  rw [smoke_opened h.found h.inits,
    handleFixture_passes hdecoder hmalloc addrs h.metadata h.decoded h.served h.shape h.readable]
  rfl

/-- The smoke test passes exactly in the surroundings it needs, with the
plugin's texts and as many of the decoder's bytes as a C `int` counts read
through the tables, and leaves the library as the entry point left it. -/
theorem smoke_passes_iff (o : Outside) (hdecoder : DecoderContract o.decodeIthmb)
    (hmalloc : ∀ n, isizeMax < n → o.malloc n = null) (tables : Tables) (handled : Handled) :
    (smoke o = .ok (tables,handled) ↔ ∃ addrs info f, Passes o addrs info f ∧
      tables = pluginTables ∧ handled = outcome o addrs info f) ∧
    (smoke o = .ok (tables,handled) → handled.library.memory.live = ∅ ∧
      ∃ addrs, handled.library.statics = settled o addrs) := by
  refine ⟨⟨smoke_passes hdecoder hmalloc, ?_⟩, fun hok => ?_⟩
  · rintro ⟨addrs, info, f, h, rfl, rfl⟩
    exact passes_smoke hdecoder hmalloc h
  · obtain ⟨addrs, info, f, h, -, rfl⟩ := smoke_passes hdecoder hmalloc hok
    have hclean := finished_clean addrs h.served
    exact ⟨hclean.1, addrs, hclean.2⟩

def regularOutside : Outside where
  soPath := codePoints "libithmb_core_cabi.so"
  soExists := true
  fixture := codePoints "a"
  fixtureExists := true
  loads := true
  layout := ⟨32,48⟩
  inits := ⟨.completes someAddrs, .completes someAddrs, .completes someAddrs, .completes someAddrs⟩
  metadataFs := regularFile
  decodeFs := regularFile
  core := oneFormat
  decodeIthmb := fun _ _ => .image pixel
  malloc := fun n => if isizeMax < n then null else 512
  hostAddr := 64
  extAddr := 272
  pathAddr := 304

theorem regular_malloc (n : ℕ) (h : isizeMax < n) : regularOutside.malloc n = null := if_pos h

theorem regular_decoder : DecoderContract regularOutside.decodeIthmb := by
  rintro bytes canceled img ⟨⟩
  rfl

theorem regular_passes :
    ∃ f, Passes regularOutside someAddrs (fillImageInfo zeroInfo 320 240 4) f ∧
      f.data.take (cInt f.bufSize).toInt.toNat = [1,2,3,4] := by
  obtain ⟨f, hf⟩ : ∃ f, frameOf pixel = some f := Option.isSome_iff_exists.mp (by decide)
  have hframe := frameOf_some hf
  have hsize : f.bufSize = 4 := by
    have hbytes : (frameOf pixel).map Frame.bufSize = some 4 := by decide
    rw [hf] at hbytes
    exact Option.some.inj hbytes
  refine ⟨f, ?_, by rw [hframe.2.2, hsize]; rfl⟩
  exact {
    found := ⟨rfl, rfl, rfl⟩
    inits := rfl
    metadata := ⟨[0,0,4,0], 4, 320, 240, ⟨['a'], by decide, rfl⟩, by decide,
      ⟨['a'], _, [], by decide, rfl, by decide, rfl⟩, (tableDimensions_ok_iff _ _ _).mp (by decide),
      rfl⟩
    decoded := ⟨['a'], [0,0,4,0], pixel, by decide, by decide, rfl, hf⟩
    served := by rw [hsize]; decide
    shape := by rw [hframe.1, hframe.2.1]; decide
    readable := by rw [hframe.1, hframe.2.1, hsize]; decide }

theorem smoke_passes_iff_pixel :
    ∃ handled, smoke regularOutside = .ok (pluginTables,handled) ∧
      handled.raw = [1,2,3,4] ∧ handled.library.memory.live = ∅ := by
  obtain ⟨f, hpasses, hbytes⟩ := regular_passes
  have hverdict := smoke_passes_iff regularOutside regular_decoder regular_malloc pluginTables
    (outcome regularOutside someAddrs (fillImageInfo zeroInfo 320 240 4) f)
  have hok := hverdict.1.mpr ⟨_, _, f, hpasses, rfl, rfl⟩
  exact ⟨_, hok, hbytes, (hverdict.2 hok).1⟩

/-- A failing test names a cause that is there, and there are only these. -/
theorem smoke_blames (o : Outside) (hdecoder : DecoderContract o.decodeIthmb)
    (hmalloc : ∀ n, isizeMax < n → o.malloc n = null) (e : Failure) (h : smoke o = .error e) :
    Blames o e := by
  by_cases hopen : ¬ Found o ∨ completed o.inits = none
  · obtain ⟨e', herror, hblames⟩ := smoke_unopened hopen
    rw [herror] at h
    cases h
    exact hblames
  · push Not at hopen
    obtain ⟨addrs, hinits⟩ := Option.ne_none_iff_exists'.mp hopen.2
    rw [smoke_opened hopen.1 hinits] at h
    rcases handleFixture_cases hdecoder hmalloc addrs with
      ⟨e', herror, hblames⟩ | ⟨info, f, hinfo, hf, hp, hpos, hsize⟩
    · rw [herror] at h
      cases h
      exact hblames
    · rw [handleFixture_passes hdecoder hmalloc addrs hinfo hf hp hpos hsize] at h
      cases h

def emptyImage : Outside :=
  { regularOutside with decodeIthmb := fun _ _ => .image ⟨0, 0, []⟩ }

theorem smoke_blames_shape :
    smoke emptyImage = .error (.invalidBuffer 0 0 0) ∧
      Blames emptyImage (.invalidBuffer 0 0 0) := by
  have hdecoder : DecoderContract emptyImage.decodeIthmb := by
    rintro bytes canceled img ⟨⟩
    rfl
  have hfails : smoke emptyImage = .error (.invalidBuffer 0 0 0) := rfl
  exact ⟨hfails, smoke_blames emptyImage hdecoder regular_malloc _ hfails⟩

def requests (o : Outside) : List Request :=
  [.getApi igPluginAbiVersion (some (hostTable o)) o.inits,
    .canHandleExtension (utf16Ref o.extAddr (codePoints ".ithmb")),
    .decode 0 o.decodeFs o.decodeIthmb o.malloc (fixturePath o) 0, .free 0, .shutdown]

theorem extension_kept (o : Outside) (addrs : BufferAddrs) :
    (utf16Ref o.extAddr (codePoints ".ithmb")).Valid ∧
      Loggable (getHostApi (settled o addrs)) (utf16Ref o.extAddr (codePoints ".ithmb")) := by
  refine ⟨?_, fun h => absurd rfl h⟩
  intro ptr hptr
  cases hptr
  change (Int32.ofNat 6).toInt ≤ (7:ℕ)
  decide

def opened (o : Outside) (addrs : BufferAddrs) : Host where
  statics := settled o addrs
  slots := fun _ => zeroBuffer
  memory := .empty
  table := some (initPluginState addrs).pluginApi
  logs := []
  statuses := []

def decoded (o : Outside) (addrs : BufferAddrs) (f : Frame) : Host :=
  { opened o addrs with
    statics := (holding o addrs f).statics
    slots := Function.update (fun _ => zeroBuffer) 0 (f.publish (o.malloc f.bufSize))
    memory := (holding o addrs f).memory
    statuses := [.ok] }

def freed (o : Outside) (addrs : BufferAddrs) (f : Frame) : Host :=
  { decoded o addrs f with
    statics := (finished o addrs f).statics
    slots := Function.update (decoded o addrs f).slots 0
      (clearedBuffer (f.publish (o.malloc f.bufSize)))
    memory := (finished o addrs f).memory }

theorem serve_opened {addrs : BufferAddrs} (h : completed o.inits = some addrs) :
    serve o.layout (.loaded fun _ => zeroBuffer)
      (.getApi igPluginAbiVersion (some (hostTable o)) o.inits) = some (opened o addrs) := by
  have hapi := getApi_completed o h
  simp only [serve, Host.loaded, hapi]
  rfl

theorem opened_decode (addrs : BufferAddrs) {f : Frame} (hf : Decoded o f)
    (hp : o.malloc f.bufSize ≠ null) :
    (opened o addrs).decode 0 o.decodeFs o.decodeIthmb o.malloc (fixturePath o) 0 =
      decoded o addrs f := by
  have hcall : codecDecodeStaticRaster
      ⟨o.decodeFs, getHostApi (opened o addrs).statics, o.decodeIthmb⟩ o.malloc (fixturePath o) 0
      (some ((opened o addrs).slots 0)) (opened o addrs).statics.bufferRegistry
      (opened o addrs).memory = _ := decode_published hf hp
  simp only [Host.decode, hcall]
  rfl

theorem decoded_free (addrs : BufferAddrs) {f : Frame} (hp : o.malloc f.bufSize ≠ null) :
    (decoded o addrs f).free 0 = freed o addrs f := by
  have hslot : (decoded o addrs f).slots 0 = f.publish (o.malloc f.bufSize) := by
    simp only [decoded, Function.update_self]
  have hcall : codecFreePixelBuffer (some (f.publish (o.malloc f.bufSize)))
      (decoded o addrs f).statics.bufferRegistry (decoded o addrs f).memory = _ :=
    free_held addrs hp
  simp only [Host.free, hslot, hcall]
  rfl

theorem smoke_session {addrs : BufferAddrs} {info : IGImageInfo} {f : Frame}
    (h : Passes o addrs info f) :
    Reached (serve o.layout) Kept (.loaded fun _ => zeroBuffer) (freed o addrs f) := by
  refine ⟨requests o, ?_, ?_⟩
  · rw [requests, run, serve_opened h.inits]
    change some (((opened o addrs).decode 0 _ _ _ _ 0).free 0) = _
    rw [opened_decode addrs h.decoded h.served, decoded_free addrs h.served]
  · refine ⟨trivial, ?_⟩
    rw [serve_opened h.inits]
    exact ⟨extension_kept o addrs, fun n => Or.inr Finmap.notMem_empty, trivial, trivial, trivial⟩

/-- A passing smoke test is a run of the loaded plugin, step by step from the
moment it is loaded, that ends where the test does. -/
theorem smoke_is_run (o : Outside) (hdecoder : DecoderContract o.decodeIthmb)
    (hmalloc : ∀ n, isizeMax < n → o.malloc n = null) (tables : Tables) (handled : Handled)
    (hok : smoke o = .ok (tables,handled)) :
    ∃ s, Reached (Loaded.step o.layout) Promised (.loaded fun _ => zeroBuffer) s ∧ s.calls = ∅ ∧
      s.statics = handled.library.statics ∧ s.memory = handled.library.memory ∧
      s.slots 0 = handled.freed ∧ s.history.filterMap returned = [.ok] ∧ s.logs = [] := by
  obtain ⟨addrs, info, f, h, -, rfl⟩ := smoke_passes hdecoder hmalloc hok
  obtain ⟨s, hreached, hmatch⟩ := reached_match (smoke_session h)
  refine ⟨s, hreached, hmatch.quiet, hmatch.statics, hmatch.memory, ?_, hmatch.statuses,
    hmatch.logs⟩
  rw [hmatch.slots]
  simp only [freed, Function.update_self, outcome]

theorem smoke_is_run_pixel :
    ∃ s, Reached (Loaded.step ⟨32,48⟩) Promised (.loaded fun _ => zeroBuffer) s ∧ s.calls = ∅ ∧
      s.memory.live = ∅ := by
  obtain ⟨f, hpasses, -⟩ := regular_passes
  obtain ⟨s, hreached, hquiet, -, hmemory, -⟩ := smoke_is_run regularOutside regular_decoder
    regular_malloc _ _ (passes_smoke regular_decoder regular_malloc hpasses)
  refine ⟨s, hreached, hquiet, ?_⟩
  rw [hmemory]
  exact (finished_clean someAddrs hpasses.served).1

end Verdict

end IthmbPlugin.SmokeVerdict
