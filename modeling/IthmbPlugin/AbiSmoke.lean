import IthmbPlugin.Loaded
import IthmbPlugin.MetadataContract
import IthmbPlugin.CopyBounds

/-!
# The smoke test of the ABI

`scripts/abi-smoke.py` is a host of its own. It loads the library, goes once
through the tables from the entry point to the free call and stops at the first
answer it does not expect. The stages of its `main` follow one another here;
what the test meets outside the plugin is one record. Its strings are lists of
code points, surrogates among them, and go out as arrays with one unit for each.
-/

set_option autoImplicit false

namespace IthmbPlugin.AbiSmoke
open IthmbPlugin.Types IthmbPlugin.Strings IthmbPlugin.FileIo IthmbPlugin.Registry
open IthmbPlugin.Allocator IthmbPlugin.Decode IthmbPlugin.State IthmbPlugin.EntryPoint
open IthmbPlugin.Extension IthmbPlugin.Metadata IthmbPlugin.MetadataContract
open IthmbPlugin.DecodeContract IthmbPlugin.Utf16
open IthmbPlugin.MachineInt (isizeMax asI32_toInt)
open IthmbPlugin.Loaded (getHostApi pluginInitialize pluginShutdown)
open IthmbPlugin.Linearizable (Decodes)
open IthmbPlugin.CopyBounds (backed_of_decodes)

def points (s : Str) : List ℕ := s.map Char.toNat

def codePoints (s : String) : List ℕ := points s.toList

/-- `utf16_ref`. An array element takes the low sixteen bits of a code point;
the terminating zero is not counted. -/
def utf16Ref (addr : Addr) (text : List ℕ) : IGStringRef :=
  { data := some ⟨addr, text.map UInt16.ofNat++[0]⟩, length := Int32.ofNat text.length }

def readUtf16 (ref : IGStringRef) : List ℕ :=
  match ref.data with
  | none => []
  | some ptr =>
    if ref.length ≤ 0 then [] else (fromRawParts ptr ref.length).map UInt16.toNat

inductive Failure where
  | cdylibNotFound (soPath : List ℕ)
  | fixtureNotFound (fixture : List ℕ)
  /-- `CDLL` raises, or finds no entry point. -/
  | notLoaded
  | nullApi
  | initializeFn (st : IGStatus)
  | getCodec (st : IGStatus)
  | structSize (n : Int32)
  | getCapability (st : IGStatus)
  | canHandleExtension
  | loadMetadata (st : IGStatus)
  | decodeStaticRaster (st : IGStatus)
  | invalidBuffer (width height stride : Int32)
  | smallBuffer
  /-- `string_at` raises for a negative size. -/
  | systemError
  /-- A null pointer, a bad table entry or undefined behaviour. -/
  | badAccess
  deriving DecidableEq, Repr

def statusNumber : IGStatus → ℕ
  | .ok => 0
  | .unsupported => 1
  | .canceled => 2
  | .invalidArg => 3
  | .decodeFailed => 4
  | .outOfMemory => 5
  | .internal => 6
  | .notImplemented => 7
  | .ioError => 8
  | .encodeFailed => 9

def statusTable : List Str :=
  ["Ok", "Unsupported", "Canceled", "InvalidArg", "DecodeFailed", "OutOfMemory", "Internal",
    "NotImplemented", "IoError", "EncodeFailed"].map String.toList

def decimal (n : ℤ) : Str := (toString n).toList

def statusName (st : IGStatus) : Str :=
  (statusTable[statusNumber st]?).getD (decimal (statusNumber st))

/-- What `fail` is told, or nothing where the script ends by itself. -/
def Failure.message : Failure → Option (List ℕ)
  | .cdylibNotFound soPath =>
    some (codePoints "cdylib not found at "++soPath++
      codePoints " -- run `cargo build --release` first")
  | .fixtureNotFound fixture => some (codePoints "fixture not found: "++fixture)
  | .notLoaded => none
  | .nullApi =>
    some (codePoints "ig_plugin_get_api returned NULL (ABI version mismatch or init failure)")
  | .initializeFn st => some (codePoints "initialize -> "++points (statusName st))
  | .getCodec st => some (codePoints "get_codec(0) -> "++points (statusName st))
  | .structSize n => some (codePoints "IGCodecApi struct_size="++points (decimal n.toInt)++
      codePoints " (expected 112)")
  | .getCapability st => some (codePoints "get_capability -> "++points (statusName st))
  | .canHandleExtension => some (codePoints "can_handle_extension('.ithmb') -> 0 (expected 1)")
  | .loadMetadata st => some (codePoints "load_metadata -> "++points (statusName st))
  | .decodeStaticRaster st => some (codePoints "decode_static_raster -> "++points (statusName st))
  | .invalidBuffer width height stride =>
    some (codePoints "decode returned invalid pixel buffer "++points (decimal width.toInt)++
      codePoints "x"++points (decimal height.toInt)++codePoints " stride="++
      points (decimal stride.toInt))
  | .smallBuffer => some (codePoints "decoded buffer smaller than w*h")
  | .systemError => none
  | .badAccess => none

/-- What the test meets: the built library, the command line, the plugin's
allocations and closures, the disk at each of the moments it is looked at, the
decoder library, and where its own arrays lie. -/
structure Outside where
  soPath : List ℕ
  soExists : Bool
  fixture : List ℕ
  fixtureExists : Bool
  loads : Bool
  layout : StaticLayout
  inits : InitOutcomes
  metadataFs : FileSystem
  decodeFs : FileSystem
  core : IthmbCore
  decodeIthmb : List UInt8 → Bool → DecodeOutcome
  malloc : ℕ → Addr
  hostAddr : Addr
  extAddr : Addr
  pathAddr : Addr

structure Library where
  statics : Statics
  memory : Memory

/-- A call through a table entry, which is there for one function. -/
def call {α : Type*} (entry : Option ExternFn) (fn : ExternFn) (result : α) : Except Failure α :=
  if entry = some fn then .ok result else .error .badAccess

def hostTable (o : Outside) : HostApiPtr :=
  ⟨o.hostAddr, ⟨Int32.ofNat sizeOfIGHostApi, igPluginAbiVersion, none⟩⟩

def openPlugin (o : Outside) : Except Failure (IGPluginApi × Statics) :=
  if o.soExists then
    if o.fixtureExists then
      if o.loads then
        match igPluginGetApi o.layout o.inits igPluginAbiVersion (some (hostTable o)) .unset with
        | (none,_) => .error .nullApi
        | (some api,st) => .ok (api,st)
      else .error .notLoaded
    else .error (.fixtureNotFound o.fixture)
  else .error (.cdylibNotFound o.soPath)

def openCodec (api : IGPluginApi) (st : Statics) : Except Failure IGCodecApi := do
  let initialized ← call api.initializeFn .pluginInitialize pluginInitialize
  if initialized ≠ .ok then throw (.initializeFn initialized)
  let (status,slot) ← call api.getCodec .pluginGetCodec (pluginGetCodec st 0 (some none))
  if status ≠ .ok then throw (.getCodec status)
  match slot.join with
  | none => throw .badAccess
  | some codec =>
    if codec.structSize ≠ 112 then throw (.structSize codec.structSize) else pure codec

def openCapability (codec : IGCodecApi) (st : Statics) :
    Except Failure (IGCodecCapability × List (List ℕ)) := do
  let (status,slot) ←
    call codec.getCapability .codecGetCapability (codecGetCapability st (some none))
  if status ≠ .ok then throw (.getCapability status)
  match slot.join with
  | none => throw .badAccess
  | some cap =>
    match (List.range cap.decodeExtensionCount.toInt.toNat).mapM
        fun i => cap.decodeExtensions.bind fun exts => exts[i]?.map readUtf16 with
    | none => throw .badAccess
    | some exts => pure (cap,exts)

def checkExtension (codec : IGCodecApi) (st : Statics) (ext : IGStringRef) :
    Except Failure Unit := do
  let result ← call codec.canHandleExtension .codecCanHandleExtension
    (codecCanHandleExtension (getHostApi st) st.pluginExtensions ext)
  match result with
  | none => throw .badAccess
  | some (answer,_) => if answer ≠ 1 then throw .canHandleExtension

def zeroInfo : IGImageInfo := ⟨0, 0, 0, 0, 0, 0, 0, 0, 0, null, 0⟩

def zeroBuffer : IGPixelBuffer := ⟨null, 0, 0, 0, 0, null⟩

def loadFixture (o : Outside) (codec : IGCodecApi) (path : IGStringRef) :
    Except Failure IGImageInfo := do
  let (status,slot) ← call codec.loadMetadata .codecLoadMetadata
    (codecLoadMetadata o.core o.metadataFs path (some zeroInfo))
  if status ≠ .ok then throw (.loadMetadata status)
  pure (slot.getD zeroInfo)

def cInt (n : ℤ) : Int32 := Int32.ofInt n

/-- `ctypes.string_at`. Minus one asks for the bytes before a zero. Reading past
a block is undefined in the source. -/
def stringAt (m : Memory) (p : Addr) (size : Int32) : Except Failure (List UInt8) :=
  let bytes := ((m.live.lookup p).map Block.bytes).getD []
  if size = -1 then
    if 0 ∈ bytes then .ok (bytes.takeWhile fun b => b ≠ 0) else .error .badAccess
  else if size < 0 then .error .systemError
  else if size.toInt.toNat ≤ bytes.length then .ok (bytes.take size.toInt.toNat)
  else .error .badAccess

def checkBuffer (m : Memory) (pb : IGPixelBuffer) : Except Failure (List UInt8) := do
  if pb.data = null ∨ pb.width ≤ 0 ∨ pb.height ≤ 0 ∨ pb.stride ≤ 0 then
    throw (.invalidBuffer pb.width pb.height pb.stride)
  let raw ← stringAt m pb.data (cInt (pb.height.toInt*pb.stride.toInt))
  if (raw.length:ℤ) < pb.width.toInt*pb.height.toInt then throw .smallBuffer
  pure raw

def takeBuffer (st : Statics) (result : DecodeResult) :
    Except Failure (IGPixelBuffer × List UInt8 × Library) := do
  if result.status ≠ .ok then throw (.decodeStaticRaster result.status)
  let pb := result.buffer.getD zeroBuffer
  let raw ← checkBuffer result.memory pb
  pure (pb, raw, ⟨{ st with bufferRegistry := result.registry }, result.memory⟩)

def decodeFixture (o : Outside) (codec : IGCodecApi) (st : Statics) (path : IGStringRef) :
    Except Failure (IGPixelBuffer × List UInt8 × Library) := do
  let result ← call codec.decodeStaticRaster .codecDecodeStaticRaster
    (codecDecodeStaticRaster ⟨o.decodeFs, getHostApi st, o.decodeIthmb⟩ o.malloc path 0
      (some zeroBuffer) st.bufferRegistry .empty)
  takeBuffer st result

def freeFixture (codec : IGCodecApi) (lib : Library) (pb : IGPixelBuffer) :
    Except Failure (IGPixelBuffer × Library) := do
  let result ← call codec.freePixelBuffer .codecFreePixelBuffer
    (codecFreePixelBuffer (some pb) lib.statics.bufferRegistry lib.memory)
  pure (result.buffer.getD pb,
    ⟨{ lib.statics with bufferRegistry := result.registry }, result.memory⟩)

structure Tables where
  name : List ℕ
  version : List ℕ
  abiVersion : Int32
  structSize : Int32
  codecCount : Int32
  codecName : List ℕ
  extensions : List (List ℕ)
  staticDecode : Int32
  deriving DecidableEq, Repr

structure Handled where
  info : IGImageInfo
  decoded : IGPixelBuffer
  raw : List UInt8
  freed : IGPixelBuffer
  library : Library
  messages : List LogRecord

def openTables (api : IGPluginApi) (st : Statics) : Except Failure (IGCodecApi × Tables) := do
  let codec ← openCodec api st
  let (cap,exts) ← openCapability codec st
  pure (codec, {
    name := readUtf16 api.info.name
    version := readUtf16 api.info.version
    abiVersion := api.abiVersion
    structSize := api.structSize
    codecCount := api.info.codecCount
    codecName := readUtf16 cap.codecName
    extensions := exts
    staticDecode := cap.supportsStaticRasterDecoding })

def handleFixture (o : Outside) (api : IGPluginApi) (codec : IGCodecApi) (st : Statics) :
    Except Failure Handled := do
  let path := utf16Ref o.pathAddr o.fixture
  let info ← loadFixture o codec path
  let (pb,raw,lib) ← decodeFixture o codec st path
  let (freed,lib) ← freeFixture codec lib pb
  let messages ← call api.shutdown .pluginShutdown (pluginShutdown lib.statics)
  pure ⟨info, pb, raw, freed, lib, messages⟩

/-- `main`, with what a passing test has printed. -/
def smoke (o : Outside) : Except Failure (Tables × Handled) := do
  let (api,st) ← openPlugin o
  let (codec,tables) ← openTables api st
  checkExtension codec st (utf16Ref o.extAddr (codePoints ".ithmb"))
  let handled ← handleFixture o api codec st
  pure (tables,handled)

theorem utf16Ref_seen (addr : Addr) (text : List ℕ) (hlen : text.length ≤ 2^31-1) :
    utf16ToString (utf16Ref addr text) =
      if text = [] then none else some (decodeLossy (text.map UInt16.ofNat)) := by
  split_ifs with htext
  · rw [htext]
    rfl
  · have hunits : text.map UInt16.ofNat ≠ [] := by simpa using htext
    have h := utf16ToString_slice addr (text.map UInt16.ofNat) [0] hunits (by simpa using hlen)
    rw [List.length_map] at h
    exact h

theorem readUtf16_eq (addr : Addr) (u : List UInt16) (hlen : u.length ≤ 2^31-1) :
    readUtf16 (bufferRef ⟨addr,u⟩) = u.map UInt16.toNat := by
  unfold readUtf16 bufferRef
  by_cases hu : u = []
  · rw [hu]
    rfl
  · have hpos := i32_length_positive u.length (by simpa using hu) hlen
    simp only [if_neg hpos, fromRawParts, i32_length_toInt u.length hlen]
    simp

theorem readUtf16_iff (addr : Addr) (s : Str) (hlen : (encodeUtf16 s).length ≤ 2^31-1) :
    readUtf16 (bufferRef ⟨addr,encodeUtf16 s⟩) = points s ↔ Basic s := by
  rw [readUtf16_eq addr _ hlen]
  constructor
  · intro h
    have hlength := congrArg List.length h
    simp only [points, List.length_map] at hlength
    exact (encode_length_eq_iff s).mp hlength
  · intro h
    rw [encodeUtf16, encode_of_basic h, List.map_map]
    exact List.map_congr_left fun c hc => UInt16.toNat_ofNat_of_lt' (h c hc)

/-- The script's strings agree with the plugin's in both directions exactly on
the code points of the basic plane that are no surrogates. -/
theorem script_strings :
    (∀ (addr : Addr) (text : List ℕ), text.length ≤ 2^31-1 →
      ((utf16ToString (utf16Ref addr text)).map points = some text ↔
        text ≠ [] ∧ ∀ n ∈ text, BasicPoint n)) ∧
    ∀ (addr : Addr) (s : Str), (encodeUtf16 s).length ≤ 2^31-1 →
      (readUtf16 (igStringRefFromStr addr s).2 = points s ↔ Basic s) := by
  refine ⟨fun addr text hlen => ?_, readUtf16_iff⟩
  rw [utf16Ref_seen addr text hlen]
  by_cases htext : text = []
  · simp [htext]
  · rw [if_neg htext, Option.map_some, Option.some.injEq, and_iff_right htext]
    exact decodeLossy_points_iff text

theorem script_strings_camera :
    (utf16ToString (utf16Ref 16 (codePoints ".ipm"))).map points = some (codePoints ".ipm") ∧
      (utf16ToString (utf16Ref 16 [0x1F4F7])).map points ≠ some [0x1F4F7] ∧
      (utf16ToString (utf16Ref 16 [0xDC80])).map points ≠ some [0xDC80] ∧
      readUtf16 (igStringRefFromStr 16 [Char.ofNat 0x1F4F7]).2 ≠ [0x1F4F7] := by
  refine ⟨(script_strings.1 16 (codePoints ".ipm") (by decide)).mpr (by decide), ?_, ?_, ?_⟩
  · intro h
    exact absurd (((script_strings.1 16 _ (by decide)).mp h).2 _ List.mem_cons_self) (by decide)
  · intro h
    exact absurd (((script_strings.1 16 _ (by decide)).mp h).2 _ List.mem_cons_self) (by decide)
  · intro h
    exact absurd ((script_strings.2 16 [Char.ofNat 0x1F4F7] (by decide)).mp h) (by decide)

structure Found (o : Outside) : Prop where
  so : o.soExists = true
  fixture : o.fixtureExists = true
  library : o.loads = true

def completed (i : InitOutcomes) : Option BufferAddrs :=
  match i.extensions, i.state, i.capability, i.registry with
  | .completes _, .completes addrs, .completes _, .completes _ => some addrs
  | _, _, _, _ => none

def settled (o : Outside) (addrs : BufferAddrs) : Statics where
  hostApi := some (hostTable o)
  pluginExtensions := some (extensionsArray o.layout)
  pluginState := some (initPluginState addrs)
  capability := some (buildCapability (some (initPluginState addrs))
    (some (extensionsArray o.layout)))
  bufferRegistry := some .new

theorem ensureInitialized_completed (o : Outside) :
    ensureInitialized o.layout o.inits (storeHost (hostTable o) .unset) =
      match completed o.inits with
      | some addrs => (true,settled o addrs)
      | none =>
        (false,(ensureInitialized o.layout o.inits (storeHost (hostTable o) .unset)).2) := by
  obtain ⟨extensions, state, capability, registry⟩ := o.inits
  cases extensions <;> cases state <;> cases capability <;> cases registry <;> rfl

theorem hostTable_passes (o : Outside) :
    checkHost igPluginAbiVersion (some (hostTable o)) = some (hostTable o) := by
  rw [checkHost, if_neg (not_not.mpr rfl)]
  exact if_neg (by simp [hostTable])

theorem openPlugin_eq (o : Outside) (h : Found o) :
    openPlugin o = match completed o.inits with
      | some addrs => .ok ((initPluginState addrs).pluginApi,settled o addrs)
      | none => .error .nullApi := by
  simp only [openPlugin, h.so, h.fixture, h.library, if_true, igPluginGetApi, hostTable_passes]
  rw [ensureInitialized_completed]
  cases completed o.inits <;> rfl

theorem getApi_completed (o : Outside) {addrs : BufferAddrs} (h : completed o.inits = some addrs) :
    igPluginGetApi o.layout o.inits igPluginAbiVersion (some (hostTable o)) .unset =
      (some (initPluginState addrs).pluginApi,settled o addrs) := by
  simp only [igPluginGetApi, hostTable_passes]
  rw [ensureInitialized_completed, h]
  rfl

section Tables
variable (o : Outside) (addrs : BufferAddrs)

def pluginTables : Tables where
  name := codePoints "iThmb Codec"
  version := codePoints "1.1.4"
  abiVersion := igPluginAbiVersion
  structSize := Int32.ofNat sizeOfIGPluginApi
  codecCount := 1
  codecName := codePoints "iThmb Codec"
  extensions := [codePoints ".ithmb", codePoints ".ipm"]
  staticDecode := 1

theorem openTables_eq :
    openTables (initPluginState addrs).pluginApi (settled o addrs) =
      .ok ((initPluginState addrs).codecApi,pluginTables) := rfl

theorem checkExtension_eq :
    checkExtension (initPluginState addrs).codecApi (settled o addrs)
      (utf16Ref o.extAddr (codePoints ".ithmb")) = .ok () := rfl

end Tables

def fixturePath (o : Outside) : IGStringRef := utf16Ref o.pathAddr o.fixture

def decodeEnv (o : Outside) : DecodeEnv :=
  ⟨o.decodeFs, some (hostTable o).api, o.decodeIthmb⟩

section Fixture
variable (o : Outside) (addrs : BufferAddrs)

theorem loadFixture_eq :
    loadFixture o (initPluginState addrs).codecApi (fixturePath o) =
      match codecLoadMetadata o.core o.metadataFs (fixturePath o) (some zeroInfo) with
      | (.ok,info) => .ok (info.getD zeroInfo)
      | (status,_) => .error (.loadMetadata status) := by
  have hcall : call (initPluginState addrs).codecApi.loadMetadata .codecLoadMetadata
      (codecLoadMetadata o.core o.metadataFs (fixturePath o) (some zeroInfo)) = .ok _ := if_pos rfl
  rw [loadFixture, hcall]
  rcases codecLoadMetadata o.core o.metadataFs (fixturePath o) (some zeroInfo) with ⟨status, info⟩
  cases status <;> rfl

theorem loadFixture_cases :
    (∃ s, FirstFailing o.core o.metadataFs (fixturePath o) s ∧
      loadFixture o (initPluginState addrs).codecApi (fixturePath o) =
        .error (.loadMetadata s.status)) ∨
    ∃ first fileSize w h, ReportsSize o.metadataFs (fixturePath o) fileSize ∧
      fileSize.toNat ≤ 8*1024*1024 ∧ StartsWith o.metadataFs (fixturePath o) first ∧
      Denotes o.core (i32FromBeBytes first) (w,h) ∧
      loadFixture o (initPluginState addrs).codecApi (fixturePath o) =
        .ok (fillImageInfo zeroInfo w h fileSize.toInt64) := by
  rw [loadFixture_eq]
  rcases load_metadata_stages o.core o.metadataFs (fixturePath o) zeroInfo with
    ⟨s, hs, hload⟩ | ⟨first, n, w, h, hsize, hle, hfirst, hdims, hload⟩ <;> rw [hload]
  · refine Or.inl ⟨s, hs, ?_⟩
    cases s <;> rfl
  · exact Or.inr ⟨first, n, w, h, hsize, hle, hfirst, hdims, rfl⟩

theorem decodeFixture_eq :
    decodeFixture o (initPluginState addrs).codecApi (settled o addrs) (fixturePath o) =
      takeBuffer (settled o addrs) (codecDecodeStaticRaster (decodeEnv o) o.malloc
        (fixturePath o) 0 (some zeroBuffer) (some .new) .empty) := rfl

end Fixture

theorem takeBuffer_refused (st : Statics) {result : DecodeResult} (h : result.status ≠ .ok) :
    takeBuffer st result = .error (.decodeStaticRaster result.status) := by
  rw [takeBuffer, if_pos h]
  rfl

theorem stringAt_filled {p : Addr} (hp : p ≠ null) (src : List UInt8) (n : ℕ)
    (hn : n ≤ src.length) (m : Memory) {size : Int32} (hsize : size ≠ -1)
    (hle : size.toInt ≤ n) :
    stringAt (copyNonoverlapping src p n (pixelBufferAlloc p n m)) p size =
      if size.toInt < 0 then .error .systemError else .ok (src.take size.toInt.toNat) := by
  have hlen : (src.take n).length = n := List.length_take_of_le hn
  have hneg : size < 0 ↔ size.toInt < 0 := Int32.lt_iff_toInt_lt
  have hfits : size.toInt.toNat ≤ n := Int.toNat_le.mpr hle
  simp only [stringAt, filled_live hp, Finmap.lookup_insert, Option.map_some, Option.getD_some,
    hlen, if_neg hsize, hneg, if_pos hfits, List.take_take, Nat.min_eq_left hfits]

def checkFrame (f : Frame) : Except Failure (List UInt8) :=
  if 0 < f.width.toInt ∧ 0 < f.height.toInt then
    if (cInt f.bufSize).toInt < 0 then .error .systemError
    else if (cInt f.bufSize).toInt < f.width.toInt*f.height.toInt then .error .smallBuffer
    else .ok (f.data.take (cInt f.bufSize).toInt.toNat)
  else .error (.invalidBuffer f.width f.height f.stride)

theorem cInt_cast (n : ℕ) : (cInt n).toInt = ((n:ℤ)+2^31) % 2^32-2^31 := by
  rw [cInt, Int32.ofInt_eq_ofNat]
  exact asI32_toInt n

section Published
variable {f : Frame} {p : Addr} {m : Memory}

theorem cInt_size (hmax : f.bufSize ≤ isizeMax) :
    cInt f.bufSize ≠ -1 ∧ ((cInt f.bufSize).toInt < 0 ∨ (cInt f.bufSize).toInt ≤ f.bufSize) := by
  have hsize := f.size_exact hmax
  have hstride := f.stride_exact
  have hcast := cInt_cast f.bufSize
  have hfour : (f.bufSize:ℤ) % 4 = 0 := by
    rw [hsize, hstride, ← mul_assoc]
    exact Int.mul_emod_left _ 4
  constructor
  · intro h
    rw [h, show (-1:Int32).toInt = -1 from rfl] at hcast
    omega
  · omega

theorem checkBuffer_published (hp : p ≠ null) (hmax : f.bufSize ≤ isizeMax)
    (hdata : f.bufSize ≤ f.data.length) :
    checkBuffer (copyNonoverlapping f.data p f.bufSize (pixelBufferAlloc p f.bufSize m))
        (f.publish p) = checkFrame f := by
  have hstride := f.stride_exact
  have hsize := f.size_exact hmax
  obtain ⟨hnotone, hbound⟩ := cInt_size hmax
  have htest : ((f.publish p).data = null ∨ (f.publish p).width ≤ 0 ∨ (f.publish p).height ≤ 0 ∨
      (f.publish p).stride ≤ 0) ↔ ¬ (0 < f.width.toInt ∧ 0 < f.height.toInt) := by
    simp only [Frame.publish, hp, Int32.le_iff_toInt_le, hstride, false_or]
    have h0 : (0:Int32).toInt = 0 := rfl
    omega
  rw [checkBuffer, checkFrame]
  by_cases hpos : 0 < f.width.toInt ∧ 0 < f.height.toInt
  · have hbytes : cInt ((f.publish p).height.toInt*(f.publish p).stride.toInt) =
        cInt f.bufSize := by
      change cInt (f.height.toInt*f.stride.toInt) = _
      rw [← hsize]
    have hread := stringAt_filled hp f.data f.bufSize hdata m hnotone (by omega)
    rw [if_neg (fun h => htest.mp h hpos), if_pos hpos, hbytes]
    change (stringAt _ p (cInt f.bufSize) >>= _) = _
    rw [hread]
    by_cases hneg : (cInt f.bufSize).toInt < 0
    · rw [if_pos hneg, if_pos hneg]
      rfl
    · have hlength : ((f.data.take (cInt f.bufSize).toInt.toNat).length:ℤ) =
          (cInt f.bufSize).toInt := by
        rw [List.length_take_of_le (by omega)]
        omega
      rw [if_neg hneg, if_neg hneg]
      change (if ((f.data.take (cInt f.bufSize).toInt.toNat).length:ℤ) <
        f.width.toInt*f.height.toInt then _ else _) = _
      rw [hlength]
      split_ifs <;> rfl
  · rw [if_pos (htest.mpr hpos), if_neg hpos]
    rfl

end Published

def Decoded (o : Outside) (f : Frame) : Prop :=
  ∃ path bytes img, utf16ToString (fixturePath o) = some path ∧
    readIthmbFile o.decodeFs path = .ok bytes ∧ o.decodeIthmb bytes false = .image img ∧
    frameOf img = some f

theorem decodeImage_ok_iff (env : DecodeEnv) (path : IGStringRef) (img : DecodedImage)
    (logs : List LogRecord) :
    decodeImage env path 0 false = (.ok img,logs) ↔ logs = [] ∧ ∃ p bytes,
      utf16ToString path = some p ∧ readIthmbFile env.fs p = .ok bytes ∧
      env.decodeIthmb bytes false = .image img := by
  unfold decodeImage
  cases hpath : utf16ToString path with
  | none => simp
  | some p =>
    cases hread : readIthmbFile env.fs p with
    | error status => simp [hread]
    | ok bytes =>
      cases hdec : env.decodeIthmb bytes false <;> simp [hread, hdec, and_comm, eq_comm]

theorem decodes_iff (o : Outside) (f : Frame) :
    Decodes (decodeEnv o) (fixturePath o) 0 f ↔ Decoded o f := by
  unfold Decodes
  simp only [decodeImage_ok_iff]
  constructor
  · rintro ⟨img, -, ⟨-, p, bytes, hp, hread, hdec⟩, hf⟩
    exact ⟨p, bytes, img, hp, hread, hdec, hf⟩
  · rintro ⟨p, bytes, img, hp, hread, hdec, hf⟩
    exact ⟨img, [], ⟨rfl, p, bytes, hp, hread, hdec⟩, hf⟩

section Outcome
variable (o : Outside) (addrs : BufferAddrs)

def filledMemory (f : Frame) (p : Addr) : Memory :=
  copyNonoverlapping f.data p f.bufSize (pixelBufferAlloc p f.bufSize .empty)

def holding (f : Frame) : Library where
  statics := { settled o addrs with
    bufferRegistry := some (BufferRegistry.new.track (o.malloc f.bufSize) f.bufSize) }
  memory := filledMemory f (o.malloc f.bufSize)

def finished (f : Frame) : Library where
  statics := { settled o addrs with
    bufferRegistry := some ((BufferRegistry.new.track (o.malloc f.bufSize) f.bufSize).untrack
      (o.malloc f.bufSize)) }
  memory := pixelBufferFree (o.malloc f.bufSize) (filledMemory f (o.malloc f.bufSize))

variable {o}

theorem decodeFixture_refused (h : ¬ ∃ f, Decoded o f ∧ o.malloc f.bufSize ≠ null) :
    (∃ st logs, decodeImage (decodeEnv o) (fixturePath o) 0 false = (.error st,logs) ∧
      decodeFixture o (initPluginState addrs).codecApi (settled o addrs) (fixturePath o) =
        .error (.decodeStaticRaster st)) ∨
    ∃ img logs, decodeImage (decodeEnv o) (fixturePath o) 0 false = (.ok img,logs) ∧
      (∀ f, frameOf img = some f → o.malloc f.bufSize = null) ∧
      decodeFixture o (initPluginState addrs).codecApi (settled o addrs) (fixturePath o) =
        .error (.decodeStaticRaster .outOfMemory) := by
  rw [decodeFixture_eq]
  rcases himg : decodeImage (decodeEnv o) (fixturePath o) 0 false with ⟨status | img, logs⟩
  · rw [@decode_refused _ _ _ (some zeroBuffer) _ _ himg]
    exact Or.inl ⟨status, logs, rfl, takeBuffer_refused _ (decodeImage_not_ok himg)⟩
  · have hnull : ∀ f, frameOf img = some f → o.malloc f.bufSize = null := by
      intro f hf
      by_contra hp
      exact h ⟨f, (decodes_iff o f).mp ⟨img, logs, himg, hf⟩, hp⟩
    rcases decode_outcome himg o.malloc zeroBuffer .new .empty with
      hres | ⟨f, hf, hp, -, -⟩ | ⟨f, hf, hp, -, -⟩
    · rw [hres]
      exact Or.inr ⟨img, logs, rfl, hnull, takeBuffer_refused _ (by simp)⟩
    · exact absurd (hnull f hf) hp
    · exact absurd (hnull f hf) hp

theorem decode_published {f : Frame} (hf : Decoded o f) (hp : o.malloc f.bufSize ≠ null) :
    codecDecodeStaticRaster (decodeEnv o) o.malloc (fixturePath o) 0 (some zeroBuffer)
        (some .new) .empty =
      ⟨.ok, some (f.publish (o.malloc f.bufSize)),
        some (BufferRegistry.new.track (o.malloc f.bufSize) f.bufSize),
        filledMemory f (o.malloc f.bufSize), []⟩ := by
  obtain ⟨path, bytes, img, hpath, hread, hdec, hframe⟩ := hf
  have himg : decodeImage (decodeEnv o) (fixturePath o) 0 false = (.ok img,[]) :=
    (decodeImage_ok_iff _ _ _ _).mpr ⟨rfl, path, bytes, hpath, hread, hdec⟩
  have hreg : register .new (o.malloc f.bufSize) f.bufSize =
      (.ok (),BufferRegistry.new.track (o.malloc f.bufSize) f.bufSize) :=
    register_untracked rfl (Finmap.lookup_empty _) f.bufSize
  simp only [codecDecodeStaticRaster, Option.isNone_some, himg, hframe, if_neg hp, hreg]
  rfl

theorem decodeFixture_served (hdecoder : DecoderContract o.decodeIthmb)
    (hmalloc : ∀ n, isizeMax < n → o.malloc n = null) {f : Frame} (hf : Decoded o f)
    (hp : o.malloc f.bufSize ≠ null) :
    decodeFixture o (initPluginState addrs).codecApi (settled o addrs) (fixturePath o) =
      (checkFrame f).map fun raw => (f.publish (o.malloc f.bufSize), raw, holding o addrs f) := by
  have hmax : f.bufSize ≤ isizeMax := Nat.le_of_not_lt fun hlt => hp (hmalloc _ hlt)
  have hdata : f.bufSize ≤ f.data.length :=
    backed_of_decodes hdecoder ((decodes_iff o f).mpr hf) hmax
  rw [decodeFixture_eq, decode_published hf hp, takeBuffer, if_neg (by simp)]
  change (checkBuffer (filledMemory f (o.malloc f.bufSize)) (f.publish (o.malloc f.bufSize)) >>=
    _) = _
  rw [filledMemory, checkBuffer_published hp hmax hdata]
  cases checkFrame f <;> rfl

theorem free_held {f : Frame} (hp : o.malloc f.bufSize ≠ null) :
    codecFreePixelBuffer (some (f.publish (o.malloc f.bufSize)))
        (holding o addrs f).statics.bufferRegistry (holding o addrs f).memory =
      ⟨some (clearedBuffer (f.publish (o.malloc f.bufSize))),
        (finished o addrs f).statics.bufferRegistry, (finished o addrs f).memory⟩ := by
  have hreg : unregister (BufferRegistry.new.track (o.malloc f.bufSize) f.bufSize)
      (o.malloc f.bufSize) = (.ok _,_) :=
    unregister_tracked rfl (Finmap.lookup_insert _)
  simp only [codecFreePixelBuffer, Frame.publish, if_neg hp, holding, hreg]
  rfl

theorem freeFixture_held {f : Frame} (hp : o.malloc f.bufSize ≠ null) :
    freeFixture (initPluginState addrs).codecApi (holding o addrs f)
        (f.publish (o.malloc f.bufSize)) =
      .ok (clearedBuffer (f.publish (o.malloc f.bufSize)),finished o addrs f) := by
  rw [freeFixture, free_held addrs hp]
  rfl

end Outcome

end IthmbPlugin.AbiSmoke
