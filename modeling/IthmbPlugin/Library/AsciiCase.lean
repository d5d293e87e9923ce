import Mathlib.Data.List.Basic
import Mathlib.Tactic.Basic

/-!
# ASCII case on bytes and on 16-bit units

Folding maps the letters A to Z to a to z and nothing else. On units below 256
it commutes with narrowing to a byte; a unit from 256 on is narrowed to a byte
that says nothing about it.
-/

set_option autoImplicit false

namespace IthmbPlugin.AsciiCase

def toAsciiLowercase (b : UInt8) : UInt8 := if 0x41 ≤ b ∧ b ≤ 0x5A then b+0x20 else b

def eqIgnoreAsciiCase (a b : UInt8) : Bool := toAsciiLowercase a == toAsciiLowercase b

def foldUnit (u : UInt16) : UInt16 := if 0x41 ≤ u ∧ u ≤ 0x5A then u+0x20 else u

def lowUnit (u : UInt16) : UInt16 := u.toUInt8.toUInt16

theorem toUInt16_injective {a b : UInt8} (h : a.toUInt16 = b.toUInt16) : a = b := by
  simpa using congrArg UInt16.toUInt8 h

theorem foldUnit_toUInt16 (b : UInt8) : foldUnit b.toUInt16 = (toAsciiLowercase b).toUInt16 := by
  have hlo : (0x41 ≤ b.toUInt16) ↔ 0x41 ≤ b := by
    simp [UInt16.le_iff_toNat_le, UInt8.le_iff_toNat_le]
  have hhi : (b.toUInt16 ≤ 0x5A) ↔ b ≤ 0x5A := by
    simp [UInt16.le_iff_toNat_le, UInt8.le_iff_toNat_le]
  unfold foldUnit toAsciiLowercase
  simp only [hlo, hhi]
  split_ifs with h
  · have hle : b.toNat ≤ 90 := UInt8.le_iff_toNat_le.mp h.2
    apply UInt16.toNat_inj.mp
    simp
    omega
  · rfl

theorem lowUnit_of_lt {u : UInt16} (h : u < 0x100) : lowUnit u = u := by
  have hlt := UInt16.lt_iff_toNat_lt.mp h
  apply UInt16.toNat_inj.mp
  simp [lowUnit] at hlt ⊢
  omega

theorem lt_of_foldUnit_lt {u : UInt16} (h : foldUnit u < 0x80) : u < 0x100 := by
  unfold foldUnit at h
  apply UInt16.lt_iff_toNat_lt.mpr
  split_ifs at h with hc
  · have hle := UInt16.le_iff_toNat_le.mp hc.2
    simp at hle ⊢
    omega
  · have hlt := UInt16.lt_iff_toNat_lt.mp h
    simp at hlt ⊢
    omega

theorem eqIgnoreAsciiCase_iff (a : UInt16) {b : UInt16} (hb : foldUnit (lowUnit b) = b) :
    eqIgnoreAsciiCase a.toUInt8 b.toUInt8 = true ↔ foldUnit (lowUnit a) = b := by
  have hfold : foldUnit (lowUnit a) = (toAsciiLowercase a.toUInt8).toUInt16 := foldUnit_toUInt16 _
  have hfold' : b = (toAsciiLowercase b.toUInt8).toUInt16 :=
    hb.symm.trans (foldUnit_toUInt16 b.toUInt8)
  rw [eqIgnoreAsciiCase, beq_iff_eq]
  constructor
  · intro h
    rw [hfold, h, ← hfold']
  · intro h
    rw [hfold] at h
    exact toUInt16_injective (h.trans hfold')

theorem zip_eqIgnoreAsciiCase_iff (known : List UInt16)
    (hknown : ∀ b ∈ known, foldUnit (lowUnit b) = b)
    (input : List UInt16) (hlen : input.length = known.length) :
    ((input.zip known).all fun x => eqIgnoreAsciiCase x.1.toUInt8 x.2.toUInt8) = true ↔
      input.map (fun u => foldUnit (lowUnit u)) = known := by
  induction known generalizing input with
  | nil =>
    cases input with
    | nil => simp
    | cons u input => cases hlen
  | cons b known ih =>
    cases input with
    | nil => cases hlen
    | cons u input =>
      have hrest :=
        ih (fun c hc => hknown c (List.mem_cons_of_mem b hc)) input (by simpa using hlen)
      rw [List.zip_cons_cons, List.all_cons, Bool.and_eq_true, hrest, List.map_cons,
        List.cons.injEq, eqIgnoreAsciiCase_iff u (hknown b List.mem_cons_self)]

end IthmbPlugin.AsciiCase
