import Mathlib.Data.List.Forall2
import Mathlib.Algebra.Order.Group.Nat

/-!
# Structs in memory

A struct is laid out field after field, each at the next multiple of its
alignment, and its size is rounded up to the largest of them. The offsets of
the fields depend on the fields before them and on nothing behind, so two
declarations of which one goes on where the other ends agree on what they
share, and the size of the longer one is not smaller.
-/

set_option autoImplicit false

namespace IthmbPlugin.ReprC

/-- Alignments are powers of two. -/
structure Field where
  size : ℕ
  logAlign : ℕ
  deriving DecidableEq, Repr

def Field.align (f : Field) : ℕ := 2^f.logAlign

theorem Field.align_pos (f : Field) : 0 < f.align := Nat.two_pow_pos f.logAlign

def roundUp (n align : ℕ) : ℕ := (n+align-1)/align*align

theorem dvd_roundUp (n align : ℕ) : align ∣ roundUp n align := Nat.dvd_mul_left ..

theorem le_roundUp (n : ℕ) {align : ℕ} (ha : 0 < align) : n ≤ roundUp n align := by
  have hdiv := Nat.div_add_mod (n+align-1) align
  have hmod := Nat.mod_lt (n+align-1) ha
  rw [roundUp, Nat.mul_comm]
  omega

theorem roundUp_le {n m align : ℕ} (hnm : n ≤ m) (hm : align ∣ m) : roundUp n align ≤ m := by
  obtain ⟨k, rfl⟩ := hm
  rcases Nat.eq_zero_or_pos align with rfl | ha
  · simp [roundUp]
  · rw [roundUp, Nat.mul_comm align k]
    apply Nat.mul_le_mul_right
    rw [Nat.div_le_iff_le_mul_add_pred ha]
    omega

def offsets : ℕ → List Field → List ℕ
  | _, [] => []
  | n, f::fs => roundUp n f.align::offsets (roundUp n f.align+f.size) fs

def ending : ℕ → List Field → ℕ
  | n, [] => n
  | n, f::fs => ending (roundUp n f.align+f.size) fs

def maxLogAlign (fs : List Field) : ℕ := fs.foldl (fun k f => max k f.logAlign) 0

def sizeOf (fs : List Field) : ℕ := roundUp (ending 0 fs) (2^maxLogAlign fs)

theorem ending_append (n : ℕ) (fs gs : List Field) :
    ending n (fs++gs) = ending (ending n fs) gs := by
  induction fs generalizing n with
  | nil => rfl
  | cons f fs ih => exact ih _

theorem offsets_append (n : ℕ) (fs gs : List Field) :
    offsets n (fs++gs) = offsets n fs++offsets (ending n fs) gs := by
  induction fs generalizing n with
  | nil => rfl
  | cons f fs ih => simp only [List.cons_append, offsets, ending, ih]

theorem le_field_end (n : ℕ) (f : Field) : n ≤ roundUp n f.align+f.size :=
  (le_roundUp n f.align_pos).trans (Nat.le_add_right ..)

theorem le_ending (n : ℕ) (fs : List Field) : n ≤ ending n fs := by
  induction fs generalizing n with
  | nil => exact le_refl n
  | cons f fs ih => exact (le_field_end n f).trans (ih _)

theorem field_le_ending (n : ℕ) {f : Field} {fs : List Field} (h : f ∈ fs) :
    n+f.size ≤ ending n fs := by
  induction fs generalizing n with
  | nil => cases h
  | cons g fs ih =>
    rcases List.mem_cons.mp h with rfl | h
    · have hend := le_ending (roundUp n f.align+f.size) fs
      exact (Nat.add_le_add_right (le_roundUp n f.align_pos) f.size).trans hend
    · exact (Nat.add_le_add_right (le_field_end n g) f.size).trans (ih _ h)

theorem le_offsets {n o : ℕ} {fs : List Field} (h : o ∈ offsets n fs) : n ≤ o := by
  induction fs generalizing n with
  | nil => cases h
  | cons f fs ih =>
    rcases List.mem_cons.mp h with rfl | h
    · exact le_roundUp n f.align_pos
    · exact (le_field_end n f).trans (ih h)

theorem le_foldl_max (k : ℕ) (fs : List Field) :
    k ≤ fs.foldl (fun k f => max k f.logAlign) k := by
  induction fs generalizing k with
  | nil => exact le_refl k
  | cons f fs ih => exact (Nat.le_max_left k f.logAlign).trans (ih _)

theorem maxLogAlign_le_append (fs gs : List Field) : maxLogAlign fs ≤ maxLogAlign (fs++gs) := by
  rw [maxLogAlign, maxLogAlign, List.foldl_append]
  exact le_foldl_max ..

theorem ending_le_sizeOf (fs : List Field) : ending 0 fs ≤ sizeOf fs :=
  le_roundUp _ (Nat.two_pow_pos _)

theorem sizeOf_le_append (fs gs : List Field) : sizeOf fs ≤ sizeOf (fs++gs) := by
  apply roundUp_le
  · refine le_trans ?_ (ending_le_sizeOf (fs++gs))
    rw [ending_append]
    exact le_ending ..
  · exact Nat.dvd_trans (Nat.pow_dvd_pow 2 (maxLogAlign_le_append fs gs)) (dvd_roundUp ..)

section Memory
variable {B : Type*}

def read (mem : List B) (offset count : ℕ) : List B := (mem.drop offset).take count

def write (mem : List B) (offset : ℕ) (value : List B) : List B :=
  mem.take offset++value++mem.drop (offset+value.length)

theorem write_length {mem value : List B} {offset : ℕ}
    (h : offset+value.length ≤ mem.length) : (write mem offset value).length = mem.length := by
  simp only [write, List.length_append, List.length_take, List.length_drop]
  omega

theorem read_write {mem value : List B} {offset : ℕ} (h : offset ≤ mem.length) :
    read (write mem offset value) offset value.length = value := by
  have hlen : (mem.take offset).length = offset := List.length_take_of_le h
  rw [read, write, List.append_assoc, List.drop_left' hlen, List.take_left' rfl]

theorem read_write_before {mem value : List B} {offset o count : ℕ}
    (ho : o+count ≤ offset) (h : offset ≤ mem.length) :
    read (write mem offset value) o count = read mem o count := by
  have hlen : (mem.take offset).length = offset := List.length_take_of_le h
  rw [read, write, List.append_assoc, List.drop_append_of_le_length (by omega),
    List.take_append_of_le_length (by simp only [List.length_drop, hlen]; omega), List.drop_take,
    List.take_take, Nat.min_eq_left (by omega), read]

def fill : List B → ℕ → List Field → List (List B) → List B
  | mem, n, f::fs, v::vs => fill (write mem (roundUp n f.align) v) (roundUp n f.align+f.size) fs vs
  | mem, _, _, _ => mem

def load (mem : List B) : ℕ → List Field → List (List B)
  | _, [] => []
  | n, f::fs => read mem (roundUp n f.align) f.size::load mem (roundUp n f.align+f.size) fs

def Fits : List Field → List (List B) → Prop := List.Forall₂ fun f v => v.length = f.size

theorem load_length (mem : List B) (n : ℕ) (fs : List Field) :
    (load mem n fs).length = fs.length := by
  induction fs generalizing n with
  | nil => rfl
  | cons f fs ih => simp only [load, List.length_cons, ih]

theorem load_append (mem : List B) (n : ℕ) (fs gs : List Field) :
    load mem n (fs++gs) = load mem n fs++load mem (ending n fs) gs := by
  induction fs generalizing n with
  | nil => rfl
  | cons f fs ih => simp only [List.cons_append, load, ending, ih]

theorem fill_length {mem : List B} {n : ℕ} {fs : List Field} {vs : List (List B)}
    (hfits : Fits fs vs) (hroom : ending n fs ≤ mem.length) :
    (fill mem n fs vs).length = mem.length := by
  induction hfits generalizing mem n with
  | nil => rfl
  | @cons f v fs vs hv hvs ih =>
    have hend := (le_ending (roundUp n f.align+f.size) fs).trans hroom
    have hwrite : (write mem (roundUp n f.align) v).length = mem.length :=
      write_length (hv ▸ hend)
    exact (ih (hwrite.symm ▸ hroom)).trans hwrite

theorem read_fill_before {mem : List B} {n o count : ℕ} {fs : List Field} {vs : List (List B)}
    (hfits : Fits fs vs) (hroom : ending n fs ≤ mem.length) (ho : o+count ≤ n) :
    read (fill mem n fs vs) o count = read mem o count := by
  induction hfits generalizing mem n with
  | nil => rfl
  | @cons f v fs vs hv hvs ih =>
    have hend := (le_ending (roundUp n f.align+f.size) fs).trans hroom
    have hwrite : (write mem (roundUp n f.align) v).length = mem.length :=
      write_length (hv ▸ hend)
    have hstart := le_roundUp n f.align_pos
    rw [fill, ih (hwrite.symm ▸ hroom) (ho.trans (le_field_end n f))]
    exact read_write_before (ho.trans hstart) (by omega)

theorem load_fill {mem : List B} {n : ℕ} {fs : List Field} {vs : List (List B)}
    (hfits : Fits fs vs) (hroom : ending n fs ≤ mem.length) :
    load (fill mem n fs vs) n fs = vs := by
  induction hfits generalizing mem n with
  | nil => rfl
  | @cons f v fs vs hv hvs ih =>
    have hend := (le_ending (roundUp n f.align+f.size) fs).trans hroom
    have hwrite : (write mem (roundUp n f.align) v).length = mem.length :=
      write_length (hv ▸ hend)
    have hrest : ending (roundUp n f.align+f.size) fs ≤
        (write mem (roundUp n f.align) v).length := hwrite.symm ▸ hroom
    rw [load, fill, ih hrest, read_fill_before hvs hrest (le_refl _), ← hv,
      read_write (by omega)]

/-- A reader that knows only the first fields reads these as they were written. -/
theorem load_fill_take {mem : List B} {n : ℕ} {fs gs : List Field} {vs : List (List B)}
    (hfits : Fits (fs++gs) vs) (hroom : ending n (fs++gs) ≤ mem.length) :
    load (fill mem n (fs++gs) vs) n fs = vs.take fs.length := by
  have hall := load_fill hfits hroom
  rw [load_append] at hall
  rw [← hall, List.take_left' (load_length ..), hall]

end Memory

def leBytes : ℕ → ℕ → List UInt8
  | 0, _ => []
  | k+1, n => UInt8.ofNat n::leBytes k (n/256)

def ofLeBytes : List UInt8 → ℕ
  | [] => 0
  | b::bs => b.toNat+256*ofLeBytes bs

theorem ofLeBytes_leBytes (k n : ℕ) : ofLeBytes (leBytes k n) = n%256^k := by
  induction k generalizing n with
  | zero => exact (Nat.mod_one n).symm
  | succ k ih =>
    rw [leBytes, ofLeBytes, ih, Nat.pow_succ', Nat.mod_mul]
    rfl

theorem ofLeBytes_zeros (k : ℕ) : ofLeBytes (List.replicate k 0) = 0 := by
  induction k with
  | zero => rfl
  | succ k ih =>
    rw [List.replicate_succ, ofLeBytes, ih]
    rfl

end IthmbPlugin.ReprC
