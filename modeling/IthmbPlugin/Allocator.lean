import IthmbPlugin.Types
import IthmbPlugin.Library.AllocTrace
import Mathlib.Data.Finmap

/-!
# Plugin-owned memory

The blocks malloc has handed to the plugin and the plugin has not given back,
with the trace of everything done to them. The trace and the blocks are tied
together inside the structure: an address is live exactly when the trace says
so, and every block carries the number of the allocation that made it.
-/

set_option autoImplicit false

namespace IthmbPlugin.Allocator
open IthmbPlugin.Types IthmbPlugin.AllocTrace

structure Block where
  size : ℕ
  bytes : List UInt8
  serial : ℕ
  deriving DecidableEq, Repr

structure Memory where
  live : Finmap (fun _ : Addr => Block)
  trace : List (Event Addr)
  tracked : ∀ p, p ∈ live ↔ p ∈ AllocTrace.live trace
  numbered : ∀ p b, live.lookup p = some b → b.serial < mallocs trace
  distinct : ∀ p q b c, live.lookup p = some b → live.lookup q = some c →
    b.serial = c.serial → p = q

def Memory.empty : Memory where
  live := ∅
  trace := []
  tracked := by
    intro p
    exact iff_of_false Finmap.notMem_empty (Set.notMem_empty p)
  numbered := by simp
  distinct := by simp

theorem lookup_insert_cases {β : Type*} {m : Finmap (fun _ : Addr => β)} {p q : Addr} {b c : β}
    (h : (m.insert p b).lookup q = some c) : (q = p ∧ c = b) ∨ (q ≠ p ∧ m.lookup q = some c) := by
  by_cases hq : q = p
  · subst hq
    rw [Finmap.lookup_insert] at h
    exact Or.inl ⟨rfl, (Option.some.inj h).symm⟩
  · rw [Finmap.lookup_insert_of_ne _ hq] at h
    exact Or.inr ⟨hq, h⟩

theorem lookup_erase_some {β : Type*} {m : Finmap (fun _ : Addr => β)} {p q : Addr} {c : β}
    (h : (m.erase p).lookup q = some c) : q ≠ p ∧ m.lookup q = some c := by
  by_cases hq : q = p
  · subst hq
    rw [Finmap.lookup_erase] at h
    cases h
  · rw [Finmap.lookup_erase_ne hq] at h
    exact ⟨hq, h⟩

def Memory.serialAt (m : Memory) (p : Addr) : Option ℕ := (m.live.lookup p).map Block.serial

/-- The block malloc answers with is taken over; a null answer changes nothing. -/
def pixelBufferAlloc (answer : Addr) (size : ℕ) (m : Memory) : Memory :=
  if answer = null then m else
  { live := m.live.insert answer { size := size, bytes := [], serial := mallocs m.trace }
    trace := .malloc answer size::m.trace
    tracked := by
      intro p
      rw [Finmap.mem_insert, m.tracked]
      rfl
    numbered := by
      intro p b hb
      rcases lookup_insert_cases hb with ⟨-, rfl⟩ | ⟨-, hb⟩
      · exact Nat.lt_succ_self _
      · exact Nat.lt_succ_of_lt (m.numbered p b hb)
    distinct := by
      intro p q b c hb hc he
      rcases lookup_insert_cases hb with ⟨rfl, rfl⟩ | ⟨-, hb'⟩ <;>
        rcases lookup_insert_cases hc with ⟨rfl, rfl⟩ | ⟨-, hc'⟩
      · rfl
      · exact absurd he.symm (Nat.ne_of_lt (m.numbered q c hc'))
      · exact absurd he (Nat.ne_of_lt (m.numbered p b hb'))
      · exact m.distinct p q b c hb' hc' he }

/-- The first `count` bytes of `src` written to the start of the block at
`dst`. Reading beyond `src` or writing beyond the block is undefined in the
source; the trace records the extents. -/
def copyNonoverlapping (src : List UInt8) (dst : Addr) (count : ℕ) (m : Memory) : Memory :=
  { live := match m.live.lookup dst with
      | none => m.live
      | some b => m.live.insert dst { b with bytes := src.take count++b.bytes.drop count }
    trace := .copy dst src.length count::m.trace
    tracked := by
      intro p
      rw [AllocTrace.live, ← m.tracked p]
      cases hb : m.live.lookup dst with
      | none => rfl
      | some b =>
        simp only [Finmap.mem_insert]
        constructor
        · rintro (rfl | hp)
          · exact Finmap.mem_of_lookup_eq_some hb
          · exact hp
        · exact Or.inr
    numbered := by
      intro p c hc
      cases hb : m.live.lookup dst with
      | none => rw [hb] at hc; exact m.numbered p c hc
      | some b =>
        rw [hb] at hc
        rcases lookup_insert_cases hc with ⟨rfl, rfl⟩ | ⟨-, hc⟩
        · exact m.numbered p b hb
        · exact m.numbered p c hc
    distinct := by
      intro p q c d hc hd he
      cases hb : m.live.lookup dst with
      | none =>
        rw [hb] at hc hd
        exact m.distinct p q c d hc hd he
      | some b =>
        rw [hb] at hc hd
        rcases lookup_insert_cases hc with ⟨rfl, rfl⟩ | ⟨-, hc'⟩ <;>
          rcases lookup_insert_cases hd with ⟨rfl, rfl⟩ | ⟨-, hd'⟩
        · rfl
        · exact m.distinct p q b d hb hd' he
        · exact m.distinct p q c b hc' hb he
        · exact m.distinct p q c d hc' hd' he }

def pixelBufferFree (ptr : Addr) (m : Memory) : Memory where
  live := m.live.erase ptr
  trace := .free ptr::m.trace
  tracked := by
    intro p
    rw [Finmap.mem_erase, m.tracked]
    exact and_comm
  numbered := by
    intro p b hb
    exact m.numbered p b (lookup_erase_some hb).2
  distinct := by
    intro p q b c hb hc
    exact m.distinct p q b c (lookup_erase_some hb).2 (lookup_erase_some hc).2

theorem alloc_null (size : ℕ) (m : Memory) : pixelBufferAlloc null size m = m := if_pos rfl

theorem alloc_live {answer : Addr} (h : answer ≠ null) (size : ℕ) (m : Memory) :
    (pixelBufferAlloc answer size m).live =
      m.live.insert answer { size := size, bytes := [], serial := mallocs m.trace } := by
  rw [pixelBufferAlloc, if_neg h]

theorem alloc_trace {answer : Addr} (h : answer ≠ null) (size : ℕ) (m : Memory) :
    (pixelBufferAlloc answer size m).trace = .malloc answer size::m.trace := by
  rw [pixelBufferAlloc, if_neg h]

theorem copy_mem (src : List UInt8) (dst p : Addr) (count : ℕ) (m : Memory) :
    p ∈ (copyNonoverlapping src dst count m).live ↔ p ∈ m.live := by
  rw [(copyNonoverlapping src dst count m).tracked, m.tracked]
  rfl

theorem copy_lookup_other {dst q : Addr} (hq : q ≠ dst) (src : List UInt8) (count : ℕ)
    (m : Memory) : (copyNonoverlapping src dst count m).live.lookup q = m.live.lookup q := by
  simp only [copyNonoverlapping]
  cases m.live.lookup dst with
  | none => rfl
  | some b => exact Finmap.lookup_insert_of_ne _ hq

theorem serialAt_live {m : Memory} {p : Addr} {k : ℕ} (h : m.serialAt p = some k) : p ∈ m.live := by
  obtain ⟨b, hb, -⟩ := Option.map_eq_some_iff.mp h
  exact Finmap.mem_of_lookup_eq_some hb

theorem serialAt_lt {m : Memory} {p : Addr} {k : ℕ} (h : m.serialAt p = some k) :
    k < mallocs m.trace := by
  obtain ⟨b, hb, rfl⟩ := Option.map_eq_some_iff.mp h
  exact m.numbered p b hb

theorem serialAt_injective {m : Memory} {p q : Addr} {k : ℕ} (hp : m.serialAt p = some k)
    (hq : m.serialAt q = some k) : p = q := by
  obtain ⟨b, hb, rfl⟩ := Option.map_eq_some_iff.mp hp
  obtain ⟨c, hc, he⟩ := Option.map_eq_some_iff.mp hq
  exact m.distinct p q b c hb hc he.symm

theorem alloc_serialAt {answer : Addr} (h : answer ≠ null) (size : ℕ) (m : Memory) :
    (pixelBufferAlloc answer size m).serialAt answer = some (mallocs m.trace) := by
  rw [Memory.serialAt, alloc_live h, Finmap.lookup_insert]
  rfl

theorem alloc_serialAt_other {answer q : Addr} (h : answer ≠ null) (hq : q ≠ answer) (size : ℕ)
    (m : Memory) : (pixelBufferAlloc answer size m).serialAt q = m.serialAt q := by
  rw [Memory.serialAt, alloc_live h, Finmap.lookup_insert_of_ne _ hq, Memory.serialAt]

theorem copy_serialAt (src : List UInt8) (dst q : Addr) (count : ℕ) (m : Memory) :
    (copyNonoverlapping src dst count m).serialAt q = m.serialAt q := by
  unfold Memory.serialAt
  by_cases hq : q = dst
  · subst hq
    simp only [copyNonoverlapping]
    cases hb : m.live.lookup q with
    | none => simp [hb]
    | some b => simp [Finmap.lookup_insert]
  · rw [copy_lookup_other hq]

theorem free_serialAt_other {p q : Addr} (hq : q ≠ p) (m : Memory) :
    (pixelBufferFree p m).serialAt q = m.serialAt q := by
  rw [Memory.serialAt, pixelBufferFree, Finmap.lookup_erase_ne hq, Memory.serialAt]

theorem filled_live {p : Addr} (hp : p ≠ null) (src : List UInt8) (count size : ℕ) (m : Memory) :
    (copyNonoverlapping src p count (pixelBufferAlloc p size m)).live =
      m.live.insert p { size := size, bytes := src.take count, serial := mallocs m.trace } := by
  have hl : (pixelBufferAlloc p size m).live.lookup p =
      some { size := size, bytes := [], serial := mallocs m.trace } := by
    rw [alloc_live hp, Finmap.lookup_insert]
  simp only [copyNonoverlapping, hl]
  rw [alloc_live hp, Finmap.insert_insert]
  simp

theorem filled_trace {p : Addr} (hp : p ≠ null) (src : List UInt8) (count size : ℕ) (m : Memory) :
    (copyNonoverlapping src p count (pixelBufferAlloc p size m)).trace =
      .copy p src.length count::.malloc p size::m.trace := by
  change .copy p src.length count::(pixelBufferAlloc p size m).trace = _
  rw [alloc_trace hp]

theorem filled_free_live {p : Addr} {m : Memory} (hp : p ≠ null) (hfresh : p ∉ m.live)
    (src : List UInt8) (count size : ℕ) :
    (pixelBufferFree p (copyNonoverlapping src p count (pixelBufferAlloc p size m))).live =
      m.live := by
  simp only [pixelBufferFree, filled_live hp]
  apply Finmap.ext_lookup
  intro q
  by_cases hq : q = p
  · subst hq
    rw [Finmap.lookup_erase, Finmap.lookup_eq_none.mpr hfresh]
  · rw [Finmap.lookup_erase_ne hq, Finmap.lookup_insert_of_ne _ hq]

end IthmbPlugin.Allocator
