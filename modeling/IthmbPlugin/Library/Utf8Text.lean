import Mathlib.Data.List.Basic

/-!
# Text addressed by bytes

A text is a list of characters, and its offsets count the bytes of their UTF-8
encodings. Not every list of bytes is the encoding of a text. A slice that would
cut a character, or that starts past the end, does not exist; a slice at the
offset of a character that was found does.
-/

set_option autoImplicit false

namespace IthmbPlugin.Utf8Text

def byteLen : List Char → ℕ
  | [] => 0
  | a::s => a.utf8Size+byteLen s

def find (c : Char) : List Char → Option ℕ
  | [] => none
  | a::s => if a = c then some 0 else (find c s).map (fun n => a.utf8Size+n)

def sliceTo : List Char → ℕ → Option (List Char)
  | _, 0 => some []
  | [], _+1 => none
  | a::s, n+1 =>
    if a.utf8Size ≤ n+1 then (sliceTo s (n+1-a.utf8Size)).map (fun t => a::t) else none

def sliceFrom : List Char → ℕ → Option (List Char)
  | s, 0 => some s
  | [], _+1 => none
  | a::s, n+1 => if a.utf8Size ≤ n+1 then sliceFrom s (n+1-a.utf8Size) else none

theorem byteLen_append (s t : List Char) : byteLen (s++t) = byteLen s+byteLen t := by
  induction s with
  | nil => exact (Nat.zero_add _).symm
  | cons a s ih => rw [List.cons_append, byteLen, byteLen, ih, Nat.add_assoc]

theorem find_split {c : Char} {s : List Char} {n : ℕ} (h : find c s = some n) :
    ∃ left right, s = left++c::right ∧ c ∉ left ∧ n = byteLen left := by
  induction s generalizing n with
  | nil => cases h
  | cons a s ih =>
    by_cases ha : a = c
    · rw [find, if_pos ha] at h
      cases h
      exact ⟨[], s, by rw [ha]; rfl, by simp, rfl⟩
    · rw [find, if_neg ha] at h
      obtain ⟨m, hm, rfl⟩ := Option.map_eq_some_iff.mp h
      obtain ⟨left, right, rfl, hleft, rfl⟩ := ih hm
      exact ⟨a::left, right, rfl, by simp [hleft, Ne.symm ha], rfl⟩

theorem find_append {c : Char} {left : List Char} (hleft : c ∉ left) (right : List Char) :
    find c (left++c::right) = some (byteLen left) := by
  induction left with
  | nil => exact if_pos rfl
  | cons a left ih =>
    have ha : a ≠ c := fun h => hleft (h ▸ List.mem_cons_self)
    have hrest : c ∉ left := fun h => hleft (List.mem_cons_of_mem a h)
    rw [List.cons_append, find, if_neg ha, ih hrest, Option.map_some, byteLen]

theorem sliceTo_cons (a : Char) (s : List Char) (n : ℕ) :
    sliceTo (a::s) (a.utf8Size+n) = (sliceTo s n).map (fun t => a::t) := by
  obtain ⟨k, hk⟩ := Nat.exists_eq_succ_of_ne_zero (Nat.ne_of_gt a.utf8Size_pos)
  have hsucc : a.utf8Size+n = (k+n)+1 := by omega
  rw [hsucc, sliceTo, if_pos (by omega), show k+n+1-a.utf8Size = n by omega]

theorem sliceFrom_cons (a : Char) (s : List Char) (n : ℕ) :
    sliceFrom (a::s) (a.utf8Size+n) = sliceFrom s n := by
  obtain ⟨k, hk⟩ := Nat.exists_eq_succ_of_ne_zero (Nat.ne_of_gt a.utf8Size_pos)
  have hsucc : a.utf8Size+n = (k+n)+1 := by omega
  rw [hsucc, sliceFrom, if_pos (by omega), show k+n+1-a.utf8Size = n by omega]

theorem sliceTo_append (left right : List Char) :
    sliceTo (left++right) (byteLen left) = some left := by
  induction left with
  | nil => cases right <;> rfl
  | cons a left ih => rw [List.cons_append, byteLen, sliceTo_cons, ih, Option.map_some]

theorem sliceFrom_append (left right : List Char) :
    sliceFrom (left++right) (byteLen left) = some right := by
  induction left with
  | nil => cases right <;> rfl
  | cons a left ih => rw [List.cons_append, byteLen, sliceFrom_cons, ih]

theorem sliceTo_found (left right : List Char) (c : Char) :
    sliceTo (left++c::right) (byteLen left) = some left := sliceTo_append left (c::right)

theorem sliceFrom_found (left right : List Char) (c : Char) :
    sliceFrom (left++c::right) (byteLen left+c.utf8Size) = some right := by
  have hlen : byteLen left+c.utf8Size = byteLen (left++[c]) := by
    simp [byteLen_append, byteLen]
  rw [hlen, List.append_cons, sliceFrom_append]

def encode (s : List Char) : List UInt8 := s.flatMap String.utf8EncodeChar

theorem encode_length (s : List Char) : (encode s).length = byteLen s := by
  induction s with
  | nil => rfl
  | cons a s ih =>
    rw [encode, List.flatMap_cons, List.length_append, String.length_utf8EncodeChar, byteLen, ← ih,
      encode]

def decode (bytes : List UInt8) : Option (List Char) :=
  bytes.toByteArray.utf8Decode?.map Array.toList

theorem encode_eq_iff {s : List Char} {bytes : List UInt8} :
    encode s = bytes ↔ s.utf8Encode = bytes.toByteArray := by
  rw [List.utf8Encode, encode, List.toByteArray_inj]

theorem decode_eq_some_iff {bytes : List UInt8} {s : List Char} :
    decode bytes = some s ↔ encode s = bytes := by
  constructor
  · intro h
    obtain ⟨a, ha, rfl⟩ := Option.map_eq_some_iff.mp h
    have hsome : bytes.toByteArray.utf8Decode?.isSome = true := by rw [ha]; rfl
    have hback := @ByteArray.utf8Encode_get_utf8Decode? bytes.toByteArray hsome
    simp only [ha, Option.get_some] at hback
    exact encode_eq_iff.mpr hback
  · rintro rfl
    have hbytes : (encode s).toByteArray = s.utf8Encode := (encode_eq_iff.mp rfl).symm
    rw [decode, hbytes, List.utf8Decode?_utf8Encode, Option.map_some]

theorem decode_isSome_iff {bytes : List UInt8} :
    (decode bytes).isSome = true ↔ ∃ s, encode s = bytes := by
  rw [Option.isSome_iff_exists]
  exact exists_congr fun s => decode_eq_some_iff

def IsText (bytes : List UInt8) : Prop := ∃ s, encode s = bytes

instance (bytes : List UInt8) : Decidable (IsText bytes) :=
  decidable_of_iff _ decode_isSome_iff

example : ¬ IsText [0x2E,0xE9] ∧ IsText [0xC3,0xA9] := by decide +kernel

theorem char_of_ascii {b : UInt8} (hb : b < 0x80) :
    String.utf8EncodeChar (Char.ofNat b.toNat) = [b] := by
  have hlt : b.toNat < 128 := UInt8.lt_iff_toNat_lt.mp hb
  have hval : (Char.ofNat b.toNat).val.toNat = b.toNat := by
    rw [Char.ofNat, dif_pos (.inl (by omega))]
    rfl
  have hsize : (Char.ofNat b.toNat).utf8Size = 1 := by
    rw [Char.utf8Size_eq_one_iff, UInt32.le_iff_toNat_le, hval]
    exact Nat.le_of_lt_succ hlt
  rw [String.utf8EncodeChar_eq_singleton hsize]
  congr 1
  apply UInt8.toNat_inj.mp
  rw [UInt32.toNat_toUInt8, hval]
  omega

theorem encode_ascii {bytes : List UInt8} (h : ∀ b ∈ bytes, b < 0x80) :
    encode (bytes.map fun b => Char.ofNat b.toNat) = bytes := by
  induction bytes with
  | nil => rfl
  | cons b bytes ih =>
    obtain ⟨hb, hrest⟩ := List.forall_mem_cons.mp h
    rw [List.map_cons, encode, List.flatMap_cons, char_of_ascii hb, ← encode, ih hrest]
    rfl

theorem ascii_of_encode {s : List Char} {b : UInt8} (h : encode s = [b]) : b < 0x80 := by
  have hlen : byteLen s = 1 := by rw [← encode_length, h, List.length_singleton]
  cases s with
  | nil => cases hlen
  | cons a s =>
    have hpos := a.utf8Size_pos
    rw [byteLen] at hlen
    have hsize : a.utf8Size = 1 := by omega
    have hval := Char.utf8Size_eq_one_iff.mp hsize
    rw [encode, List.flatMap_cons, String.utf8EncodeChar_eq_singleton hsize] at h
    obtain ⟨rfl, -⟩ := List.cons.inj h
    rw [UInt8.lt_iff_toNat_lt, UInt32.toNat_toUInt8]
    have hle := UInt32.le_iff_toNat_le.mp hval
    have hnat : a.val.toNat ≤ 127 := hle
    calc a.val.toNat % 2^8 ≤ a.val.toNat := Nat.mod_le _ _
      _ < 128 := by omega

end IthmbPlugin.Utf8Text
