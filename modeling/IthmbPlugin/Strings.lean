import IthmbPlugin.Types
import Mathlib.Algebra.Group.Nat.Defs

/-!
# Strings and log messages across the ABI

`ig_string_ref_from_str` points into the vector it returns, whose heap
address is the allocator's choice. `utf16_to_string` decodes lossily; every
path the plugin opens comes through it.
-/

set_option autoImplicit false

namespace IthmbPlugin.Strings
open IthmbPlugin.Types IthmbPlugin.Utf16

def encodeUtf16 (s : Str) : List UInt16 := encode s

def igStringRefFromStr (addr : Addr) (s : Str) : List UInt16 × IGStringRef :=
  let utf16 := encode s
  (utf16, { data := some ⟨addr,utf16⟩, length := Int32.ofNat utf16.length })

def igStringRefNull : IGStringRef := { data := none, length := 0 }

/-- `slice::from_raw_parts(data, length as usize)`. -/
def fromRawParts (ptr : Utf16Ptr) (length : Int32) : List UInt16 :=
  ptr.units.take length.toInt.toNat

def utf16ToString (s : IGStringRef) : Option Str :=
  match s.data with
  | none => none
  | some ptr =>
    if s.length ≤ 0 then none
    else some (decodeLossy (fromRawParts ptr s.length))

def Rejected (s : IGStringRef) : Prop := s.data = none ∨ s.length ≤ 0

theorem utf16ToString_none_iff (s : IGStringRef) : utf16ToString s = none ↔ Rejected s := by
  unfold utf16ToString Rejected
  cases s.data with
  | none => simp
  | some ptr => simp

theorem accepted_of_some {s : IGStringRef} {t : Str} (h : utf16ToString s = some t) :
    ¬ Rejected s := by
  rw [← utf16ToString_none_iff, h]
  exact Option.some_ne_none t

theorem i32_length_toInt (n : ℕ) (h : n ≤ 2^31-1) : (Int32.ofNat n).toInt = n :=
  Int32.toInt_ofNat_of_lt (by omega)

theorem i32_length_positive (n : ℕ) (hpos : n ≠ 0) (h : n ≤ 2^31-1) :
    ¬ Int32.ofNat n ≤ 0 := by
  rw [Int32.le_iff_toInt_le, i32_length_toInt n h]
  simp
  omega

theorem utf16ToString_slice (addr : Addr) (u beyond : List UInt16) (hu : u ≠ [])
    (hlen : u.length ≤ 2^31-1) :
    utf16ToString { data := some ⟨addr,u++beyond⟩, length := Int32.ofNat u.length } =
      some (decodeLossy u) := by
  have hpos := i32_length_positive u.length (by simpa using hu) hlen
  simp only [utf16ToString, if_neg hpos, fromRawParts, i32_length_toInt u.length hlen]
  simp

theorem encodeUtf16_ne_nil (s : Str) (hs : s ≠ []) : encodeUtf16 s ≠ [] := by
  intro h
  exact hs (by rw [← decodeLossy_encode s, show encode s = [] from h]; rfl)

theorem string_to_host_and_back (addr : Addr) (s : Str) (hs : s ≠ [])
    (hlen : (encodeUtf16 s).length ≤ 2^31-1) :
    utf16ToString (igStringRefFromStr addr s).2 = some s := by
  have h := utf16ToString_slice addr (encodeUtf16 s) [] (encodeUtf16_ne_nil s hs) hlen
  rw [List.append_nil, encodeUtf16, decodeLossy_encode] at h
  exact h

/-- Both directions of the conversion. A string sent out and read back is
unchanged. A sequence received from the host is decoded to a string whose
encoding differs from it only at the unpaired surrogates, each of which has
become one replacement unit. -/
theorem utf16_conversion_faithful :
    (∀ (addr : Addr) (s : Str), s ≠ [] → (encodeUtf16 s).length ≤ 2^31-1 →
      utf16ToString (igStringRefFromStr addr s).2 = some s) ∧
    ∀ (addr : Addr) (u beyond : List UInt16), u ≠ [] → u.length ≤ 2^31-1 →
      ∃ t, utf16ToString { data := some ⟨addr,u++beyond⟩, length := Int32.ofNat u.length } =
          some t ∧
        (encodeUtf16 t).length = u.length ∧
        (∀ i, (encodeUtf16 t)[i]? = if Unpaired u i then some 0xFFFD else u[i]?) ∧
        (encodeUtf16 t = u ↔ ∀ i, ¬ Unpaired u i) := by
  refine ⟨string_to_host_and_back, ?_⟩
  intro addr u beyond hu hlen
  exact ⟨decodeLossy u, utf16ToString_slice addr u beyond hu hlen, encode_decodeLossy_length u,
    encode_decodeLossy_getElem u, encode_decodeLossy_eq_iff u⟩

theorem utf16_conversion_faithful_mixed :
    utf16ToString (igStringRefFromStr 16 ['i', Char.ofNat 0x1F4F7]).2 =
        some ['i', Char.ofNat 0x1F4F7] ∧
      ∃ t, utf16ToString { data := some ⟨16,[0xD83D,0x69,0xDCF7]++[]⟩, length := 3 } = some t ∧
        encodeUtf16 t ≠ [0xD83D,0x69,0xDCF7] := by
  refine ⟨utf16_conversion_faithful.1 16 _ (by decide) (by decide), ?_⟩
  obtain ⟨t, ht, -, -, hiff⟩ :=
    utf16_conversion_faithful.2 16 [0xD83D,0x69,0xDCF7] [] (by decide) (by decide)
  exact ⟨t, ht, fun h => hiff.mp h 0 (by decide)⟩

inductive LogLevel where
  | info
  | warning
  | error
  deriving DecidableEq, Repr

structure LogRecord where
  level : LogLevel
  message : List UInt16
  deriving DecidableEq, Repr

/-- `Logger::log`: silent without a host table or without its log function. -/
def loggerLog (host : Option IGHostCoreApi) (level : LogLevel) (message : Str) : List LogRecord :=
  match host with
  | none => []
  | some core => if core.log then [{ level := level, message := encodeUtf16 message }] else []

end IthmbPlugin.Strings
