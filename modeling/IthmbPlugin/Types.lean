import IthmbPlugin.Library.Utf16
import IthmbPlugin.Library.ReprC
import Mathlib.Tactic.Basic

/-!
# The C ABI types

The structs of the plugin interface, field by field. A raw pointer into host
or plugin memory is an address, zero being null. A string reference carries
beside its address the code units that are readable there, which is what the
caller of the ABI promises; a pointer to a whole struct is an `Option`.
-/

set_option autoImplicit false

namespace IthmbPlugin.Types
open IthmbPlugin.ReprC (Field)

abbrev Addr := ℕ

def null : Addr := 0

abbrev Str := List Char

inductive IGStatus where
  | ok
  | unsupported
  | canceled
  | invalidArg
  | decodeFailed
  | outOfMemory
  | internal
  | notImplemented
  | ioError
  | encodeFailed
  deriving DecidableEq, Repr

def IGStatus.debug : IGStatus → Str
  | .ok => "Ok".toList
  | .unsupported => "Unsupported".toList
  | .canceled => "Canceled".toList
  | .invalidArg => "InvalidArg".toList
  | .decodeFailed => "DecodeFailed".toList
  | .outOfMemory => "OutOfMemory".toList
  | .internal => "Internal".toList
  | .notImplemented => "NotImplemented".toList
  | .ioError => "IoError".toList
  | .encodeFailed => "EncodeFailed".toList

/-- A non-null `*const u16` with the code units readable from it. -/
structure Utf16Ptr where
  addr : Addr
  units : List UInt16
  deriving DecidableEq, Repr

structure IGStringRef where
  data : Option Utf16Ptr
  length : Int32
  deriving DecidableEq, Repr

/-- The promise of whoever produced the reference: `length` units are readable. -/
def IGStringRef.Valid (s : IGStringRef) : Prop :=
  ∀ ptr, s.data = some ptr → s.length.toInt ≤ ptr.units.length

structure IGPixelBuffer where
  data : Addr
  width : Int32
  height : Int32
  stride : Int32
  pixelFormat : Int32
  releaseContext : Addr
  deriving DecidableEq, Repr

structure IGImageInfo where
  width : Int32
  height : Int32
  pixelFormat : Int32
  hasAlpha : Int32
  hdrTransferFn : Int32
  colorSpace : Int32
  orientation : Int32
  frameCount : Int32
  fileSizeBytes : Int64
  iccProfileData : Addr
  iccProfileSize : Int32
  deriving DecidableEq, Repr

/-- Of the host's core services only the log function is called. -/
structure IGHostCoreApi where
  log : Bool
  deriving DecidableEq, Repr

structure IGHostApi where
  structSize : Int32
  abiVersion : Int32
  core : Option IGHostCoreApi
  deriving DecidableEq, Repr

inductive ExternFn where
  | codecGetCapability
  | codecCanHandleExtension
  | codecCanHandleSignature
  | codecLoadMetadata
  | codecDecodeStaticRaster
  | codecFreePixelBuffer
  | pluginGetCodec
  | pluginInitialize
  | pluginShutdown
  | pluginSelfTest
  deriving DecidableEq, Repr

structure IGCodecCapability where
  structSize : Int32
  codecId : IGStringRef
  codecName : IGStringRef
  metadataPriority : Int32
  decodePriority : Int32
  supportsMetadata : Int32
  supportsColorProfiles : Int32
  supportsStaticRasterDecoding : Int32
  supportsAnimationDecoding : Int32
  decodeExtensionCount : Int32
  decodeExtensions : Option (List IGStringRef)
  supportsStaticRasterEncoding : Int32
  supportsMultiFrameEncoding : Int32
  encodePriority : Int32
  encodeExtensionCount : Int32
  encodeExtensions : Option (List IGStringRef)
  deriving DecidableEq, Repr

structure IGCodecApi where
  structSize : Int32
  getCapability : Option ExternFn
  canHandleExtension : Option ExternFn
  canHandleSignature : Option ExternFn
  loadMetadata : Option ExternFn
  decodeStaticRaster : Option ExternFn
  freePixelBuffer : Option ExternFn
  getAnimationInfo : Option ExternFn
  freeAnimationInfo : Option ExternFn
  decodeAnimationFrame : Option ExternFn
  encodeStaticRaster : Option ExternFn
  beginEncodeMultiFrame : Option ExternFn
  encodeFrame : Option ExternFn
  endEncodeMultiFrame : Option ExternFn
  deriving DecidableEq, Repr

structure IGPluginInfo where
  pluginId : IGStringRef
  name : IGStringRef
  version : IGStringRef
  abiVersion : Int32
  codecCount : Int32
  deriving DecidableEq, Repr

structure IGPluginApi where
  structSize : Int32
  abiVersion : Int32
  info : IGPluginInfo
  getCodec : Option ExternFn
  initializeFn : Option ExternFn
  shutdown : Option ExternFn
  selfTest : Option ExternFn
  deriving DecidableEq, Repr

def i32Field : Field := { size := 4, logAlign := 2 }

def pointerField : Field := { size := 8, logAlign := 3 }

def stringRefField : Field := { size := ReprC.sizeOf [pointerField, i32Field], logAlign := 3 }

def pluginInfoField : Field where
  size := ReprC.sizeOf [stringRefField, stringRefField, stringRefField, i32Field, i32Field]
  logAlign := 3

/-- The `repr(C)` structs on a 64-bit target. -/
def igHostApi : List Field := [i32Field, i32Field, pointerField]

def igPluginApi : List Field :=
  [i32Field, i32Field, pluginInfoField]++List.replicate 4 pointerField

def igCodecApi : List Field := i32Field::List.replicate 13 pointerField

def igCodecCapability : List Field :=
  [i32Field, stringRefField, stringRefField]++List.replicate 7 i32Field++[pointerField]++
    List.replicate 4 i32Field++[pointerField]

def sizeOfIGHostApi : ℕ := ReprC.sizeOf igHostApi

def sizeOfIGPluginApi : ℕ := ReprC.sizeOf igPluginApi

def sizeOfIGCodecApi : ℕ := ReprC.sizeOf igCodecApi

def sizeOfIGCodecCapability : ℕ := ReprC.sizeOf igCodecCapability

example : [sizeOfIGHostApi, sizeOfIGPluginApi, sizeOfIGCodecApi, sizeOfIGCodecCapability] =
    [16, 96, 112, 104] := by decide

/-- `ithmb_core::DecodeError`; the payloads are texts nothing here reads, and
`other` stands for the variants a later decoder may add. -/
inductive DecodeError where
  | io
  | jpeg
  | profile
  | invalidFormat
  | bufferTooShort
  | unsupported
  | canceled
  | other
  deriving DecidableEq, Repr

def igStatusFromDecodeError : DecodeError → IGStatus
  | .io => .ioError
  | .jpeg => .decodeFailed
  | .profile => .decodeFailed
  | .invalidFormat => .invalidArg
  | .bufferTooShort => .invalidArg
  | .unsupported => .unsupported
  | .canceled => .canceled
  | .other => .internal

theorem decode_error_not_ok (e : DecodeError) : igStatusFromDecodeError e ≠ .ok := by
  cases e <;> decide

end IthmbPlugin.Types
