import IthmbPlugin.Strings
import IthmbPlugin.FileIo
import IthmbPlugin.Registry
import IthmbPlugin.Allocator
import IthmbPlugin.Library.MachineInt

/-!
# Decoding a static raster and freeing its buffer

One call of each entry point, run alone. The decoder is a parameter, with the
three outcomes a call under `catch_unwind` can have. The registry argument is
the content of its once-cell; unwrapping it while unset panics, which the
entry point answers with an internal error.
-/

set_option autoImplicit false

namespace IthmbPlugin.Decode
open IthmbPlugin.Types IthmbPlugin.Strings IthmbPlugin.FileIo IthmbPlugin.Registry
open IthmbPlugin.Allocator IthmbPlugin.AllocTrace IthmbPlugin.MachineInt IthmbPlugin.ByteStream

structure DecodedImage where
  width : ℕ
  height : ℕ
  data : List UInt8
  deriving DecidableEq, Repr

inductive DecodeOutcome where
  | image (img : DecodedImage)
  | failed (e : DecodeError)
  | panicked
  deriving DecidableEq, Repr

/-- What one decode call meets outside the plugin. The second argument of the
decoder is the cancellation flag. -/
structure DecodeEnv where
  fs : FileSystem
  hostApi : Option IGHostApi
  decodeIthmb : List UInt8 → Bool → DecodeOutcome

def logReadFailure (hostApi : Option IGHostApi) (status : IGStatus) : List LogRecord :=
  match hostApi with
  | none => []
  | some api =>
    loggerLog api.core .error ("ithmb-codec: failed to read file: ".toList++status.debug)

/-- The call up to the allocation: argument checks, reading and decoding. It
touches no state of the plugin. -/
def decodeImage (env : DecodeEnv) (path : IGStringRef) (frameIndex : Int32) (bufferNull : Bool) :
    Except IGStatus DecodedImage × List LogRecord :=
  if bufferNull then (.error .invalidArg,[])
  else match utf16ToString path with
    | none => (.error .invalidArg,[])
    | some pathStr =>
      if frameIndex ≠ 0 then (.error .invalidArg,[])
      else match readIthmbFile env.fs pathStr with
        | .error status => (.error status,logReadFailure env.hostApi status)
        | .ok fileBytes =>
          match env.decodeIthmb fileBytes false with
          | .panicked => (.error .internal,[])
          | .failed e => (.error (igStatusFromDecodeError e),[])
          | .image img => (.ok img,[])

/-- The dimensions after narrowing, with the sizes that passed the checked
multiplications. -/
structure Frame where
  width : Int32
  height : Int32
  stride : Int32
  bufSize : ℕ
  data : List UInt8
  stride_checked : i32CheckedMul width 4 = some stride
  size_checked : usizeCheckedMul (asUsize height) (asUsize stride) = some bufSize

def frameOf (img : DecodedImage) : Option Frame :=
  match hs : i32CheckedMul (asI32 img.width) 4 with
  | none => none
  | some stride =>
    match hz : usizeCheckedMul (asUsize (asI32 img.height)) (asUsize stride) with
    | none => none
    | some bufSize => some {
        width := asI32 img.width
        height := asI32 img.height
        stride := stride
        bufSize := bufSize
        data := img.data
        stride_checked := hs
        size_checked := hz }

def Frame.publish (f : Frame) (dataPtr : Addr) : IGPixelBuffer where
  data := dataPtr
  width := f.width
  height := f.height
  stride := f.stride
  pixelFormat := 1
  releaseContext := null

structure DecodeResult where
  status : IGStatus
  buffer : Option IGPixelBuffer
  registry : Option BufferRegistry
  memory : Memory
  logs : List LogRecord

/-- `malloc` answers a request for a number of bytes in the present state of
the heap. -/
def codecDecodeStaticRaster (env : DecodeEnv) (malloc : ℕ → Addr) (path : IGStringRef)
    (frameIndex : Int32) (buffer : Option IGPixelBuffer) (registry : Option BufferRegistry)
    (m : Memory) : DecodeResult :=
  match decodeImage env path frameIndex buffer.isNone with
  | (.error status,logs) => ⟨status, buffer, registry, m, logs⟩
  | (.ok img,logs) =>
    match frameOf img with
    | none => ⟨.outOfMemory, buffer, registry, m, logs⟩
    | some f =>
      let dataPtr := malloc f.bufSize
      let allocated := pixelBufferAlloc dataPtr f.bufSize m
      if dataPtr = null then ⟨.outOfMemory, buffer, registry, allocated, logs⟩
      else
        let copied := copyNonoverlapping f.data dataPtr f.bufSize allocated
        match registry with
        | none => ⟨.internal, buffer, none, copied, logs⟩
        | some r =>
          match register r dataPtr f.bufSize with
          | (.error _,r) => ⟨.internal, buffer, some r, pixelBufferFree dataPtr copied, logs⟩
          | (.ok (),r) => ⟨.ok, buffer.map (fun _ => f.publish dataPtr), some r, copied, logs⟩

def clearedBuffer (b : IGPixelBuffer) : IGPixelBuffer :=
  { b with data := null, width := 0, height := 0, stride := 0 }

structure FreeResult where
  buffer : Option IGPixelBuffer
  registry : Option BufferRegistry
  memory : Memory

def codecFreePixelBuffer (buffer : Option IGPixelBuffer) (registry : Option BufferRegistry)
    (m : Memory) : FreeResult :=
  match buffer with
  | none => ⟨none, registry, m⟩
  | some b =>
    let dataPtr := b.data
    let cleared := clearedBuffer b
    if dataPtr = null then ⟨some cleared, registry, m⟩
    else match registry with
      | none => ⟨some cleared, none, m⟩
      | some r =>
        match unregister r dataPtr with
        | (.error _,r) => ⟨some cleared, some r, m⟩
        | (.ok _,r) => ⟨some cleared, some r, pixelBufferFree dataPtr m⟩

theorem frameOf_some {img : DecodedImage} {f : Frame} (h : frameOf img = some f) :
    f.width = asI32 img.width ∧ f.height = asI32 img.height ∧ f.data = img.data := by
  unfold frameOf at h
  split at h
  · cases h
  · split at h
    · cases h
    · cases h
      exact ⟨rfl, rfl, rfl⟩

theorem frameOf_of_checks (img : DecodedImage) (stride : Int32) (n : ℕ)
    (hs : i32CheckedMul (asI32 img.width) 4 = some stride)
    (hz : usizeCheckedMul (asUsize (asI32 img.height)) (asUsize stride) = some n) :
    ∃ f, frameOf img = some f ∧ f.stride = stride ∧ f.bufSize = n := by
  unfold frameOf
  split
  · next h => rw [h] at hs; cases hs
  · next s h =>
    rw [h] at hs
    cases hs
    split
    · next h' => rw [h'] at hz; cases hz
    · next k h' =>
      rw [h'] at hz
      cases hz
      exact ⟨_, rfl, rfl, rfl⟩

theorem Frame.stride_exact (f : Frame) : f.stride.toInt = f.width.toInt*4 :=
  i32CheckedMul_some f.stride_checked

theorem Frame.size_exact (f : Frame) (h : f.bufSize ≤ isizeMax) :
    (f.bufSize:ℤ) = f.height.toInt*f.stride.toInt :=
  extended_product_exact _ _ _ f.size_checked h

theorem decodeImage_not_ok {env : DecodeEnv} {path : IGStringRef} {frameIndex : Int32}
    {bufferNull : Bool} {status : IGStatus} {logs : List LogRecord}
    (h : decodeImage env path frameIndex bufferNull = (.error status,logs)) : status ≠ .ok := by
  unfold decodeImage at h
  split at h
  · cases h
    decide
  · split at h
    · cases h
      decide
    · split at h
      · cases h
        decide
      · split at h
        · next s hread =>
          cases h
          rcases readIthmbFile_error hread with rfl | rfl <;> decide
        · split at h <;> cases h
          · decide
          · exact decode_error_not_ok _

theorem decodeImage_ok_buffer {env : DecodeEnv} {path : IGStringRef} {frameIndex : Int32}
    {bufferNull : Bool} {img : DecodedImage} {logs : List LogRecord}
    (h : decodeImage env path frameIndex bufferNull = (.ok img,logs)) : bufferNull = false := by
  cases bufferNull with
  | false => rfl
  | true => cases h

theorem decodeImage_ok_decoder {env : DecodeEnv} {path : IGStringRef} {frameIndex : Int32}
    {bufferNull : Bool} {img : DecodedImage} {logs : List LogRecord}
    (h : decodeImage env path frameIndex bufferNull = (.ok img,logs)) :
    ∃ bytes, env.decodeIthmb bytes false = .image img := by
  unfold decodeImage at h
  split at h
  · cases h
  · split at h
    · cases h
    · split at h
      · cases h
      · split at h
        · cases h
        · next bytes hread =>
          split at h
          · cases h
          · cases h
          · next img' hdec =>
            cases h
            exact ⟨bytes, hdec⟩

theorem decode_refused {env : DecodeEnv} {path : IGStringRef} {frameIndex : Int32}
    {buffer : Option IGPixelBuffer} {status : IGStatus} {logs : List LogRecord}
    (h : decodeImage env path frameIndex buffer.isNone = (.error status,logs))
    (malloc : ℕ → Addr) (registry : Option BufferRegistry) (m : Memory) :
    codecDecodeStaticRaster env malloc path frameIndex buffer registry m =
      ⟨status, buffer, registry, m, logs⟩ := by
  rw [codecDecodeStaticRaster, h]

/-- The outcomes of a call that has an image: no memory, a block the registry
refused and that is given back, or a filled and registered block. -/
theorem decode_outcome {env : DecodeEnv} {path : IGStringRef} {frameIndex : Int32}
    {img : DecodedImage} {logs : List LogRecord}
    (himg : decodeImage env path frameIndex false = (.ok img,logs)) (malloc : ℕ → Addr)
    (b : IGPixelBuffer) (r : BufferRegistry) (m : Memory) :
    let result := codecDecodeStaticRaster env malloc path frameIndex (some b) (some r) m
    result = ⟨.outOfMemory, some b, some r, m, logs⟩ ∨
    (∃ f, frameOf img = some f ∧ malloc f.bufSize ≠ null ∧
      (r.poisoned = true ∨ malloc f.bufSize ∈ r.entries) ∧
      result = ⟨.internal, some b, some r, pixelBufferFree (malloc f.bufSize)
        (copyNonoverlapping f.data (malloc f.bufSize) f.bufSize
          (pixelBufferAlloc (malloc f.bufSize) f.bufSize m)), logs⟩) ∨
    (∃ f, frameOf img = some f ∧ malloc f.bufSize ≠ null ∧
      (r.poisoned = false ∧ malloc f.bufSize ∉ r.entries) ∧
      result = ⟨.ok, some (f.publish (malloc f.bufSize)),
        some (r.track (malloc f.bufSize) f.bufSize),
        copyNonoverlapping f.data (malloc f.bufSize) f.bufSize
          (pixelBufferAlloc (malloc f.bufSize) f.bufSize m), logs⟩) := by
  intro result
  have hdef : result = codecDecodeStaticRaster env malloc path frameIndex (some b) (some r) m := rfl
  simp only [codecDecodeStaticRaster, Option.isNone_some, himg] at hdef
  cases hf : frameOf img with
  | none =>
    rw [hf] at hdef
    exact Or.inl hdef
  | some f =>
    simp only [hf] at hdef
    by_cases hp : malloc f.bufSize = null
    · simp only [hp, if_true, alloc_null] at hdef
      exact Or.inl hdef
    · simp only [hp, if_false] at hdef
      rcases register_cases r (malloc f.bufSize) f.bufSize with
        ⟨hpois, hfree, hreg⟩ | ⟨status, hreg, hwhy⟩ <;> rw [hreg] at hdef
      · exact Or.inr (Or.inr ⟨f, rfl, hp, ⟨hpois, hfree⟩, hdef⟩)
      · exact Or.inr (Or.inl ⟨f, rfl, hp, hwhy, hdef⟩)

end IthmbPlugin.Decode
