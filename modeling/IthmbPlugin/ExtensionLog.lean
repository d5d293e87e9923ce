import IthmbPlugin.Extension
import IthmbPlugin.Library.Utf8Text

/-!
# The text logged for an extension

The host chooses the code units, and the block takes the bytes it makes of
them for text without a check. A unit below two hundred and fifty-six becomes
its own low byte, so the bytes are ASCII only as long as no unit lies in the
upper half of that range.
-/

set_option autoImplicit false

namespace IthmbPlugin.ExtensionLog
open IthmbPlugin.Types IthmbPlugin.Strings IthmbPlugin.Extension IthmbPlugin.Utf8Text

/-- The argument of `from_utf8_unchecked`, or nothing when the loop writes past
the buffer. -/
def uncheckedBytes (slice : List UInt16) : Option (List UInt8) :=
  let n := min slice.length 32
  (fillExtBuf (slice.take n) 0 (List.replicate 32 0)).map fun extBuf => extBuf.take n

theorem extStr_eq {ext : IGStringRef} {ptr : Utf16Ptr} (hdata : ext.data = some ptr)
    (hlen : 0 < ext.length) :
    denoted ext = some (fromRawParts ptr ext.length) ∧
    extStr ext = fromUtf8Unchecked (((fromRawParts ptr ext.length).take 32).map extByte) := by
  have hpos : ¬ ext.length ≤ 0 := Int32.not_le.mpr hlen
  have hdenoted : denoted ext = some (fromRawParts ptr ext.length) := by
    simp only [denoted, hdata, if_neg hpos]
  exact ⟨hdenoted, extStr_denoted hdenoted⟩

theorem uncheckedBytes_eq (slice : List UInt16) :
    uncheckedBytes slice = some ((slice.take 32).map extByte) := by
  obtain ⟨extBuf, hfill, hbytes⟩ := fillExtBuf_slice slice
  rw [uncheckedBytes, hfill, Option.map_some, hbytes]

/-- What the comments promise for a unit. -/
def asciiByte (ch : UInt16) : UInt8 := if ch < 0x80 then ch.toUInt8 else 0x3F

theorem extByte_lt_iff (ch : UInt16) : extByte ch < 0x80 ↔ ch < 0x80 ∨ 0x100 ≤ ch := by
  unfold extByte
  split_ifs with h
  · have hlt : ch.toNat < 256 := UInt16.lt_iff_toNat_lt.mp h
    have hwide : ¬ 0x100 ≤ ch := UInt16.not_le.mpr h
    rw [or_iff_left hwide, UInt8.lt_iff_toNat_lt, UInt16.lt_iff_toNat_lt, UInt16.toNat_toUInt8,
      Nat.mod_eq_of_lt hlt]
    rfl
  · exact iff_of_true (by decide) (.inr (UInt16.not_lt.mp h))

theorem extByte_ascii {ch : UInt16} (h : ch < 0x80 ∨ 0x100 ≤ ch) : extByte ch = asciiByte ch := by
  rcases h with h | h
  · have hbyte : ch < 0x100 := UInt16.lt_trans h (by decide)
    rw [extByte, if_pos hbyte, asciiByte, if_pos h]
  · have hwide : ¬ ch < 0x80 := UInt16.not_lt.mpr (UInt16.le_trans (by decide) h)
    rw [extByte, if_neg (UInt16.not_lt.mpr h), asciiByte, if_neg hwide]

/-- The bytes taken for text exist and fit the buffer, stand for their units as
promised, and are the text that is logged. -/
def LogsAscii (ext : IGStringRef) (slice : List UInt16) : Prop :=
  ∃ bytes, uncheckedBytes slice = some bytes ∧ extStr ext = fromUtf8Unchecked bytes ∧
    bytes.length = min ext.length.toInt.toNat 32 ∧
    (∀ i ch, i < bytes.length → slice[i]? = some ch →
      bytes[i]? = some (if ch < 0x80 then ch.toUInt8 else 0x3F)) ∧
    (∀ b ∈ bytes, b < 0x80) ∧ ∃ s, encode s = bytes ∧ extStr ext = .value s

/-- The condition on the host's units. -/
def NoUpperHalf (slice : List UInt16) : Prop := ∀ ch ∈ slice.take 32, ch < 0x80 ∨ 0x100 ≤ ch

instance (slice : List UInt16) : Decidable (NoUpperHalf slice) :=
  List.decidableBAll (fun ch => ch < 0x80 ∨ 0x100 ≤ ch) (slice.take 32)

theorem noUpperHalf_iff (slice : List UInt16) :
    NoUpperHalf slice ↔ ∀ b ∈ (slice.take 32).map extByte, b < 0x80 := by
  rw [List.forall_mem_map]
  apply forall₂_congr
  intro ch _
  exact (extByte_lt_iff ch).symm

theorem map_extByte {slice : List UInt16} (h : NoUpperHalf slice) :
    (slice.take 32).map extByte = (slice.take 32).map asciiByte := by
  apply List.map_congr_left
  intro ch hch
  exact extByte_ascii (h ch hch)

theorem slice_length {ext : IGStringRef} {ptr : Utf16Ptr} (hdata : ext.data = some ptr)
    (hlen : 0 < ext.length) (hvalid : ext.Valid) :
    (fromRawParts ptr ext.length).length = ext.length.toInt.toNat := by
  have hlength := denoted_length hvalid (extStr_eq hdata hlen).1
  omega

/-- The logged text is ASCII, as documented, exactly when none of the units
that are logged lies between `0x80` and `0xFF`. -/
theorem logged_ascii_iff (ext : IGStringRef) (ptr : Utf16Ptr) (hdata : ext.data = some ptr)
    (hlen : 0 < ext.length) (hvalid : ext.Valid) :
    LogsAscii ext (fromRawParts ptr ext.length) ↔ NoUpperHalf (fromRawParts ptr ext.length) := by
  have hbytes := uncheckedBytes_eq (fromRawParts ptr ext.length)
  constructor
  · rintro ⟨bytes, hsome, -, -, -, hascii, -⟩
    rw [hbytes] at hsome
    obtain rfl := Option.some.inj hsome
    exact (noUpperHalf_iff _).mpr hascii
  · intro h
    have hascii := (noUpperHalf_iff _).mp h
    have htext := encode_ascii hascii
    have hstr := (extStr_eq hdata hlen).2
    refine ⟨_, hbytes, hstr, ?_, ?_, hascii, _, htext, ?_⟩
    · rw [List.length_map, List.length_take, slice_length hdata hlen hvalid, Nat.min_comm]
    · intro i ch hi hch
      rw [List.length_map, List.length_take] at hi
      rw [map_extByte h, List.getElem?_map, List.getElem?_take_of_lt (by omega), hch,
        Option.map_some, asciiByte]
    · rw [hstr, fromUtf8Unchecked, decode_eq_some_iff.mpr htext]

theorem logged_ascii_euro : LogsAscii (extRef [0x2E,0x20AC]) [0x2E,0x20AC] :=
  (logged_ascii_iff (extRef [0x2E,0x20AC]) ⟨64,[0x2E,0x20AC]⟩ rfl (by decide)
    (fun _ hptr => by cases hptr; decide)).mpr (by decide)

/-- An accented letter of Latin-1 is handed on as a byte that no text has. -/
theorem logged_ascii_accent :
    (¬ ∀ (ext : IGStringRef) ptr, ext.data = some ptr → 0 < ext.length → ext.Valid →
      LogsAscii ext (fromRawParts ptr ext.length)) ∧
    uncheckedBytes [0xE9] = some [0xE9] ∧ ¬ ∃ s, encode s = [0xE9] := by
  refine ⟨?_, by decide, ?_⟩
  · intro h
    obtain ⟨bytes, hsome, -, -, -, hascii, -⟩ := h (extRef [0xE9]) ⟨64,[0xE9]⟩ rfl (by decide)
      (fun _ hptr => by cases hptr; decide)
    have hbytes : uncheckedBytes [0xE9] = some [0xE9] := by decide
    obtain rfl := Option.some.inj (hbytes.symm.trans hsome)
    exact absurd (hascii 0xE9 List.mem_cons_self) (by decide)
  · rintro ⟨s, hs⟩
    exact absurd (ascii_of_encode hs) (by decide)

end IthmbPlugin.ExtensionLog
