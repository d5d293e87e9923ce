import Mathlib.Data.List.Basic
import Mathlib.Tactic.Tauto

/-!
# UTF-16

A string is a list of Unicode scalar values. Encoding gives one code unit
inside the basic plane and a surrogate pair outside it. Lossy decoding reads
pairs greedily from the left and answers an unpaired surrogate with the
replacement character.
-/

set_option autoImplicit false

namespace IthmbPlugin.Utf16

def replacement : Char := Char.ofNat 0xFFFD

def encodeChar (c : Char) : List UInt16 :=
  if c.toNat < 0x10000 then [UInt16.ofNat c.toNat]
  else [UInt16.ofNat (0xD800+(c.toNat-0x10000)/0x400),
    UInt16.ofNat (0xDC00+(c.toNat-0x10000)%0x400)]

def encode (s : List Char) : List UInt16 := s.flatMap encodeChar

def IsHigh (u : UInt16) : Prop := 0xD800 ≤ u.toNat ∧ u.toNat < 0xDC00

def IsLow (u : UInt16) : Prop := 0xDC00 ≤ u.toNat ∧ u.toNat < 0xE000

instance (u : UInt16) : Decidable (IsHigh u) := inferInstanceAs (Decidable (_ ∧ _))

instance (u : UInt16) : Decidable (IsLow u) := inferInstanceAs (Decidable (_ ∧ _))

def decodeUnit (u : UInt16) : Char :=
  if IsHigh u ∨ IsLow u then replacement else Char.ofNat u.toNat

def decodePair (h l : UInt16) : Char :=
  Char.ofNat (0x10000+(h.toNat-0xD800)*0x400+(l.toNat-0xDC00))

def decodeLossy : List UInt16 → List Char
  | [] => []
  | [u] => [decodeUnit u]
  | u::v::rest =>
    if IsHigh u ∧ IsLow v then decodePair u v::decodeLossy rest
    else decodeUnit u::decodeLossy (v::rest)

theorem not_high_and_low (u : UInt16) (h : IsHigh u) : ¬ IsLow u :=
  fun hl => Nat.not_lt.mpr hl.1 h.2

theorem char_range (c : Char) :
    c.toNat < 0xD800 ∨ (0xDFFF < c.toNat ∧ c.toNat < 0x110000) := c.valid

theorem toNat_ofNat_of_valid (n : ℕ) (h : n < 0xD800 ∨ (0xDFFF < n ∧ n < 0x110000)) :
    (Char.ofNat n).toNat = n := by
  rw [Char.ofNat, dif_pos h]
  rfl

theorem char_eq_of_toNat {c d : Char} (h : c.toNat = d.toNat) : c = d := Char.toNat_inj.mp h

theorem decodeLossy_cons (u : UInt16) (rest : List UInt16) (hu : ¬ IsHigh u) :
    decodeLossy (u::rest) = decodeUnit u::decodeLossy rest := by
  cases rest with
  | nil => rfl
  | cons v rest => rw [decodeLossy, if_neg (fun h => hu h.1)]

theorem decodeLossy_pair (h l : UInt16) (rest : List UInt16) (hh : IsHigh h) (hl : IsLow l) :
    decodeLossy (h::l::rest) = decodePair h l::decodeLossy rest := by
  rw [decodeLossy, if_pos ⟨hh, hl⟩]

theorem decodeLossy_encodeChar (c : Char) (rest : List UInt16) :
    decodeLossy (encodeChar c++rest) = c::decodeLossy rest := by
  have hc := char_range c
  by_cases hbmp : c.toNat < 0x10000
  · have hu : (UInt16.ofNat c.toNat).toNat = c.toNat := UInt16.toNat_ofNat_of_lt' hbmp
    have hhigh : ¬ IsHigh (UInt16.ofNat c.toNat) := by unfold IsHigh; omega
    have hlow : ¬ IsLow (UInt16.ofNat c.toNat) := by unfold IsLow; omega
    have hunit : decodeUnit (UInt16.ofNat c.toNat) = c := by
      rw [decodeUnit, if_neg (by tauto), hu]
      exact char_eq_of_toNat (toNat_ofNat_of_valid _ c.valid)
    rw [encodeChar, if_pos hbmp, List.singleton_append, decodeLossy_cons _ _ hhigh, hunit]
  · have hh : (UInt16.ofNat (0xD800+(c.toNat-0x10000)/0x400)).toNat =
        0xD800+(c.toNat-0x10000)/0x400 := UInt16.toNat_ofNat_of_lt' (by unfold UInt16.size; omega)
    have hl : (UInt16.ofNat (0xDC00+(c.toNat-0x10000)%0x400)).toNat =
        0xDC00+(c.toNat-0x10000)%0x400 := UInt16.toNat_ofNat_of_lt' (by unfold UInt16.size; omega)
    rw [encodeChar, if_neg hbmp, List.cons_append, List.singleton_append]
    have hpair : decodePair (UInt16.ofNat (0xD800+(c.toNat-0x10000)/0x400))
        (UInt16.ofNat (0xDC00+(c.toNat-0x10000)%0x400)) = c := by
      apply char_eq_of_toNat
      rw [decodePair, hh, hl, toNat_ofNat_of_valid _ (by omega)]
      omega
    rw [decodeLossy_pair _ _ _ (by unfold IsHigh; omega) (by unfold IsLow; omega), hpair]

theorem decodeLossy_encode (s : List Char) : decodeLossy (encode s) = s := by
  induction s with
  | nil => rfl
  | cons c s ih => rw [encode, List.flatMap_cons, decodeLossy_encodeChar]; exact congrArg _ ih

def AnyHigh : Option UInt16 → Prop
  | none => False
  | some u => IsHigh u

def AnyLow : Option UInt16 → Prop
  | none => False
  | some u => IsLow u

instance (o : Option UInt16) : Decidable (AnyHigh o) := by
  cases o <;> unfold AnyHigh <;> infer_instance

instance (o : Option UInt16) : Decidable (AnyLow o) := by
  cases o <;> unfold AnyLow <;> infer_instance

/-- A surrogate without its partner: a high one that no low one follows, or a
low one that no high one precedes. -/
def Lone (before after : Option UInt16) (u : UInt16) : Prop :=
  (IsHigh u ∧ ¬ AnyLow after) ∨ (IsLow u ∧ ¬ AnyHigh before)

instance (b a : Option UInt16) (u : UInt16) : Decidable (Lone b a u) :=
  inferInstanceAs (Decidable (_ ∨ _))

def unitBefore (b : Option UInt16) (u : List UInt16) : ℕ → Option UInt16
  | 0 => b
  | i+1 => u[i]?

/-- Position `i` of the sequence holds an unpaired surrogate. -/
def Unpaired (u : List UInt16) (i : ℕ) : Prop :=
  ∃ x, u[i]? = some x ∧ Lone (unitBefore none u i) u[i+1]? x

instance (u : List UInt16) (i : ℕ) : Decidable (Unpaired u i) :=
  match h : u[i]? with
  | none => isFalse (by simp [Unpaired, h])
  | some x => decidable_of_iff (Lone (unitBefore none u i) u[i+1]? x) (by simp [Unpaired, h])

/-- Unpaired surrogates replaced, all other units kept. -/
def repair : Option UInt16 → List UInt16 → List UInt16
  | _, [] => []
  | before, u::rest =>
    (if Lone before rest.head? u then 0xFFFD else u)::repair (some u) rest

theorem encode_cons (c : Char) (s : List Char) : encode (c::s) = encodeChar c++encode s :=
  List.flatMap_cons

theorem encodeChar_replacement : encodeChar replacement = [0xFFFD] := by decide

theorem encodeChar_decodeUnit (u : UInt16) :
    encodeChar (decodeUnit u) = [if IsHigh u ∨ IsLow u then 0xFFFD else u] := by
  unfold decodeUnit
  split_ifs with h
  · exact encodeChar_replacement
  · have hu := u.toNat_lt
    have hs : u.toNat < 0xD800 ∨ (0xDFFF < u.toNat ∧ u.toNat < 0x110000) := by
      unfold IsHigh IsLow at h
      omega
    have hn := toNat_ofNat_of_valid u.toNat hs
    rw [encodeChar, hn, if_pos (by omega), UInt16.ofNat_toNat]

theorem encodeChar_decodePair (h l : UInt16) (hh : IsHigh h) (hl : IsLow l) :
    encodeChar (decodePair h l) = [h, l] := by
  unfold IsHigh at hh
  unfold IsLow at hl
  have hn : (decodePair h l).toNat =
      0x10000+(h.toNat-0xD800)*0x400+(l.toNat-0xDC00) := toNat_ofNat_of_valid _ (by omega)
  have h1 : 0xD800+((decodePair h l).toNat-0x10000)/0x400 = h.toNat := by omega
  have h2 : 0xDC00+((decodePair h l).toNat-0x10000)%0x400 = l.toNat := by omega
  rw [encodeChar, if_neg (by omega), h1, h2, UInt16.ofNat_toNat, UInt16.ofNat_toNat]

theorem repair_start (b : Option UInt16) (u : List UInt16) (h : ¬ (AnyHigh b ∧ AnyLow u.head?)) :
    repair b u = repair none u := by
  cases u with
  | nil => rfl
  | cons x rest =>
    have hx : Lone b rest.head? x ↔ Lone none rest.head? x := by
      simp only [List.head?_cons, AnyLow] at h
      simp only [Lone, AnyHigh]
      tauto
    simp only [repair, hx]

theorem encode_decodeLossy (u : List UInt16) : encode (decodeLossy u) = repair none u := by
  induction u using decodeLossy.induct with
  | case1 => rfl
  | case2 u =>
    rw [decodeLossy, encode_cons, encodeChar_decodeUnit]
    simp [encode, repair, Lone, AnyLow, AnyHigh]
  | case3 u v rest hpair ih =>
    have hu : ¬ IsLow u := not_high_and_low u hpair.1
    have hv : ¬ IsHigh v := fun h => not_high_and_low v h hpair.2
    rw [decodeLossy, if_pos hpair, encode_cons, encodeChar_decodePair u v hpair.1 hpair.2, ih,
      ← repair_start (some v) rest (fun h => hv h.1)]
    simp [repair, Lone, AnyLow, AnyHigh, hpair.1, hpair.2, hu, hv]
  | case4 u v rest hpair ih =>
    rw [decodeLossy, if_neg hpair, encode_cons, encodeChar_decodeUnit, ih, List.singleton_append,
      ← repair_start (some u) (v::rest) hpair, repair.eq_def none]
    have hlone : Lone none (some v) u ↔ IsHigh u ∨ IsLow u := by
      simp only [Lone, AnyLow, AnyHigh]
      tauto
    simp only [List.head?_cons, hlone]

theorem repair_length (b : Option UInt16) (u : List UInt16) :
    (repair b u).length = u.length := by
  induction u generalizing b with
  | nil => rfl
  | cons x u ih => simp [repair, ih]

theorem repair_getElem (b : Option UInt16) (u : List UInt16) (i : ℕ) :
    (repair b u)[i]? =
      u[i]?.map (fun x => if Lone (unitBefore b u i) u[i+1]? x then 0xFFFD else x) := by
  induction u generalizing b i with
  | nil => rfl
  | cons x u ih =>
    cases i with
    | zero => simp [repair, unitBefore, List.head?_eq_getElem?]
    | succ i =>
      have hb : unitBefore (some x) u i = unitBefore b (x::u) (i+1) := by
        cases i <;> rfl
      simp only [repair, List.getElem?_cons_succ, ih, hb]

/-- Encoding what was decoded lossily replaces each unpaired surrogate by one
replacement unit and keeps every other unit in its place. -/
theorem encode_decodeLossy_getElem (u : List UInt16) (i : ℕ) :
    (encode (decodeLossy u))[i]? = if Unpaired u i then some 0xFFFD else u[i]? := by
  rw [encode_decodeLossy, repair_getElem]
  cases hx : u[i]? with
  | none => simp [Unpaired, hx]
  | some x =>
    have hiff : Unpaired u i ↔ Lone (unitBefore none u i) u[i+1]? x := by
      simp [Unpaired, hx]
    simp only [hiff, Option.map_some]
    split_ifs <;> rfl

theorem encode_decodeLossy_length (u : List UInt16) :
    (encode (decodeLossy u)).length = u.length := by
  rw [encode_decodeLossy, repair_length]

theorem replacement_not_surrogate : ¬ IsHigh 0xFFFD ∧ ¬ IsLow 0xFFFD := by decide

theorem encode_decodeLossy_eq_iff (u : List UInt16) :
    encode (decodeLossy u) = u ↔ ∀ i, ¬ Unpaired u i := by
  constructor
  · rintro h i ⟨x, hx, hl⟩
    have hi := encode_decodeLossy_getElem u i
    rw [h, if_pos ⟨x, hx, hl⟩, hx] at hi
    cases hi
    rcases hl with hh | hl
    · exact replacement_not_surrogate.1 hh.1
    · exact replacement_not_surrogate.2 hl.1
  · intro h
    apply List.ext_getElem?
    intro i
    rw [encode_decodeLossy_getElem, if_neg (h i)]

def Basic (s : List Char) : Prop := ∀ c ∈ s, c.toNat < 0x10000

instance (s : List Char) : Decidable (Basic s) :=
  List.decidableBAll (fun c : Char => c.toNat < 0x10000) s

theorem encode_of_basic {s : List Char} (h : Basic s) :
    encode s = s.map fun c => UInt16.ofNat c.toNat := by
  induction s with
  | nil => rfl
  | cons c s ih =>
    rw [encode_cons, encodeChar, if_pos (h c (by simp)), ih (fun d hd => h d (by simp [hd]))]
    rfl

theorem length_le_encode (s : List Char) : s.length ≤ (encode s).length := by
  induction s with
  | nil => exact Nat.zero_le _
  | cons c s ih =>
    have hc : 1 ≤ (encodeChar c).length := by unfold encodeChar; split_ifs <;> simp
    rw [encode_cons, List.length_append, List.length_cons]
    omega

theorem encode_length_eq_iff (s : List Char) : (encode s).length = s.length ↔ Basic s := by
  constructor
  · intro h
    induction s with
    | nil => simp [Basic]
    | cons c s ih =>
      have hs := length_le_encode s
      rw [encode_cons, List.length_append, List.length_cons] at h
      have hc : c.toNat < 0x10000 := by
        by_contra hge
        rw [encodeChar, if_neg hge] at h
        simp at h
        omega
      rw [encodeChar, if_pos hc] at h
      simp only [List.length_cons, List.length_nil] at h
      have hrest := ih (by omega)
      intro d hd
      rcases List.mem_cons.mp hd with rfl | hd
      · exact hc
      · exact hrest d hd
  · intro h
    rw [encode_of_basic h, List.length_map]

def BasicPoint (n : ℕ) : Prop := n < 0xD800 ∨ (0xDFFF < n ∧ n < 0x10000)

instance (n : ℕ) : Decidable (BasicPoint n) := inferInstanceAs (Decidable (_ ∨ _))

theorem basicPoint_of_basic {s : List Char} (h : Basic s) :
    ∀ n ∈ s.map Char.toNat, BasicPoint n := by
  intro n hn
  obtain ⟨c, hc, rfl⟩ := List.mem_map.mp hn
  have hbasic := h c hc
  have hrange := char_range c
  unfold BasicPoint
  omega

theorem basic_of_points {points : List ℕ} (h : ∀ n ∈ points, BasicPoint n) :
    ∃ s, Basic s ∧ s.map Char.toNat = points := by
  have hvalid : ∀ n ∈ points, (Char.ofNat n).toNat = n := by
    intro n hn
    have hpoint := h n hn
    unfold BasicPoint at hpoint
    exact toNat_ofNat_of_valid n (by omega)
  refine ⟨points.map Char.ofNat, ?_, ?_⟩
  · intro c hc
    obtain ⟨n, hn, rfl⟩ := List.mem_map.mp hc
    have hpoint := h n hn
    rw [hvalid n hn]
    unfold BasicPoint at hpoint
    omega
  · rw [List.map_map]
    calc points.map (Char.toNat ∘ Char.ofNat) = points.map id := List.map_congr_left hvalid
      _ = points := List.map_id points

/-- Units cut from single code points are read back as these exactly when each
has a unit of its own. -/
theorem decodeLossy_points_iff (points : List ℕ) :
    (decodeLossy (points.map UInt16.ofNat)).map Char.toNat = points ↔
      ∀ n ∈ points, BasicPoint n := by
  constructor
  · intro h
    have hlen := encode_decodeLossy_length (points.map UInt16.ofNat)
    have hsame := congrArg List.length h
    rw [List.length_map] at hlen hsame
    rw [← h]
    exact basicPoint_of_basic ((encode_length_eq_iff _).mp (hlen.trans hsame.symm))
  · intro h
    obtain ⟨s, hs, rfl⟩ := basic_of_points h
    have hunits : (s.map Char.toNat).map UInt16.ofNat = encode s := by
      rw [List.map_map, encode_of_basic hs]
      rfl
    rw [hunits, decodeLossy_encode]

end IthmbPlugin.Utf16
