import IthmbPlugin.Strings
import IthmbPlugin.Registry
import IthmbPlugin.Library.OnceCell

/-!
# The static state of the plugin

Five once-cells hold everything the plugin hands to the host. The string
references in the tables point into buffers that the same closure has just
allocated, or into two static arrays; where these lie is decided by the
allocator and the loader. A closure that panics leaves its cell unset and ends
the initialisation there.
-/

set_option autoImplicit false

namespace IthmbPlugin.State
open IthmbPlugin.Types IthmbPlugin.Strings IthmbPlugin.Registry IthmbPlugin.OnceCell

def igPluginAbiVersion : Int32 := 1000000

def asU16 (c : Char) : UInt16 := UInt16.ofNat c.toNat

def extIthmbData : List UInt16 :=
  [asU16 '.', asU16 'i', asU16 't', asU16 'h', asU16 'm', asU16 'b']

def extIpmData : List UInt16 := [asU16 '.', asU16 'i', asU16 'p', asU16 'm']

structure StaticLayout where
  extIthmb : Addr
  extIpm : Addr

def bufferRef (buffer : Utf16Ptr) : IGStringRef :=
  { data := some buffer, length := Int32.ofNat buffer.units.length }

def extensionsArray (layout : StaticLayout) : List IGStringRef :=
  [bufferRef ⟨layout.extIthmb, extIthmbData⟩, bufferRef ⟨layout.extIpm, extIpmData⟩]

structure PluginState where
  pluginId : Utf16Ptr
  pluginName : Utf16Ptr
  pluginVersion : Utf16Ptr
  capName : Utf16Ptr
  codecApi : IGCodecApi
  pluginApi : IGPluginApi
  deriving DecidableEq, Repr

structure BufferAddrs where
  pluginId : Addr
  pluginName : Addr
  pluginVersion : Addr
  capName : Addr
  deriving DecidableEq, Repr

def cargoPkgVersion : Str := "1.1.4".toList

def initPluginState (addrs : BufferAddrs) : PluginState :=
  let pluginId : Utf16Ptr := ⟨addrs.pluginId, encodeUtf16 "ithmb-codec".toList⟩
  let pluginName : Utf16Ptr := ⟨addrs.pluginName, encodeUtf16 "iThmb Codec".toList⟩
  let pluginVersion : Utf16Ptr := ⟨addrs.pluginVersion, encodeUtf16 cargoPkgVersion⟩
  let capName : Utf16Ptr := ⟨addrs.capName, encodeUtf16 "iThmb Codec".toList⟩
  { pluginId := pluginId
    pluginName := pluginName
    pluginVersion := pluginVersion
    capName := capName
    codecApi := {
      structSize := Int32.ofNat sizeOfIGCodecApi
      getCapability := some .codecGetCapability
      canHandleExtension := some .codecCanHandleExtension
      canHandleSignature := some .codecCanHandleSignature
      loadMetadata := some .codecLoadMetadata
      decodeStaticRaster := some .codecDecodeStaticRaster
      freePixelBuffer := some .codecFreePixelBuffer
      getAnimationInfo := none
      freeAnimationInfo := none
      decodeAnimationFrame := none
      encodeStaticRaster := none
      beginEncodeMultiFrame := none
      encodeFrame := none
      endEncodeMultiFrame := none }
    pluginApi := {
      structSize := Int32.ofNat sizeOfIGPluginApi
      abiVersion := igPluginAbiVersion
      info := {
        pluginId := bufferRef pluginId
        name := bufferRef pluginName
        version := bufferRef pluginVersion
        abiVersion := igPluginAbiVersion
        codecCount := 1 }
      getCodec := some .pluginGetCodec
      initializeFn := some .pluginInitialize
      shutdown := some .pluginShutdown
      selfTest := some .pluginSelfTest } }

def buildCapability (state : Option PluginState) (extensions : Option (List IGStringRef)) :
    IGCodecCapability where
  structSize := Int32.ofNat sizeOfIGCodecCapability
  codecId := match state with
    | some s => bufferRef s.pluginId
    | none => igStringRefNull
  codecName := match state with
    | some s => bufferRef s.capName
    | none => igStringRefNull
  metadataPriority := 200
  decodePriority := 200
  supportsMetadata := 1
  supportsColorProfiles := 0
  supportsStaticRasterDecoding := 1
  supportsAnimationDecoding := 0
  decodeExtensionCount := 2
  decodeExtensions := extensions
  supportsStaticRasterEncoding := 0
  supportsMultiFrameEncoding := 0
  encodePriority := 0
  encodeExtensionCount := 0
  encodeExtensions := none

/-- `HOST_API` stores the pointer it is given. -/
structure HostApiPtr where
  addr : Addr
  api : IGHostApi
  deriving DecidableEq, Repr

structure Statics where
  hostApi : Option HostApiPtr
  pluginExtensions : Option (List IGStringRef)
  pluginState : Option PluginState
  capability : Option IGCodecCapability
  bufferRegistry : Option BufferRegistry
  deriving DecidableEq

def Statics.unset : Statics := ⟨none, none, none, none, none⟩

/-- What one run of a closure meets: a panic, or the addresses its allocations
get. Only the closure of the plugin state allocates. -/
inductive InitOutcome where
  | panics
  | completes (addrs : BufferAddrs)
  deriving DecidableEq, Repr

def InitOutcome.value {α : Type*} (o : InitOutcome) (f : BufferAddrs → α) : Option α :=
  match o with
  | .panics => none
  | .completes addrs => some (f addrs)

section Cells
variable (layout : StaticLayout) (o : InitOutcome) (st : Statics)

def initExtensions : Statics :=
  { st with pluginExtensions :=
      getOrInit st.pluginExtensions (o.value fun _ => extensionsArray layout) }

def initState : Statics :=
  { st with pluginState := getOrInit st.pluginState (o.value initPluginState) }

def initCapability : Statics :=
  let built := o.value fun _ => buildCapability st.pluginState st.pluginExtensions
  { st with capability := getOrInit st.capability built }

def initRegistry : Statics :=
  { st with bufferRegistry := getOrInit st.bufferRegistry (o.value fun _ => .new) }

end Cells

structure InitOutcomes where
  extensions : InitOutcome
  state : InitOutcome
  capability : InitOutcome
  registry : InitOutcome

/-- The statics afterwards, and whether the function returned rather than
panicked. -/
def ensureInitialized (layout : StaticLayout) (o : InitOutcomes) (st : Statics) : Bool × Statics :=
  let st := initExtensions layout o.extensions st
  if st.pluginExtensions.isNone then (false,st) else
  let st := initState o.state st
  if st.pluginState.isNone then (false,st) else
  let st := initCapability o.capability st
  if st.capability.isNone then (false,st) else
  let st := initRegistry o.registry st
  (st.bufferRegistry.isSome,st)

end IthmbPlugin.State
