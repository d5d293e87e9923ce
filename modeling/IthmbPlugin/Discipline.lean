import IthmbPlugin.Calls
import IthmbPlugin.DecodeContract
import IthmbPlugin.Library.Ownership

/-!
# The allocator discipline

A block is either registered or in the hands of exactly one call: one that has
not registered it yet, or one that has just taken it out of the registry to
release it. That is what the order of the steps buys, an allocation before its
registration and a removal before the release. Nothing is asked of the structs
the host passes to a free call, and malloc may reuse any address that is not
live.
-/

set_option autoImplicit false

namespace IthmbPlugin.Discipline
open IthmbPlugin.Types IthmbPlugin.Registry IthmbPlugin.Allocator IthmbPlugin.Decode
open IthmbPlugin.Ownership IthmbPlugin.Runs IthmbPlugin.Calls IthmbPlugin.AllocTrace
open IthmbPlugin.DecodeContract

/-- The block in the hands of a call. -/
def ownedPtr : Call → Option Addr
  | .allocated _ _ p => some p
  | .copied _ _ p => some p
  | .rejected _ p => some p
  | .unregistered _ p => some p
  | _ => none

def owned (w : World) : CallId → Option Addr := holder ownedPtr w.calls

def unregisteredBlocks (r : BufferRegistry) (m : Memory) : Set Addr :=
  {p | p ∈ m.live ∧ p ∉ r.entries}

structure Accounted (own : CallId → Option Addr) (r : BufferRegistry) (m : Memory) : Prop where
  healthy : r.poisoned = false
  nonnull : null ∉ m.live
  keys_live : ∀ p, p ∈ r.entries → p ∈ m.live
  holders : Tracks own (unregisteredBlocks r m)
  trace : AllocTrace.Disciplined m.trace

def Disciplined (w : World) : Prop := Accounted (owned w) w.registry w.memory

theorem initial_disciplined (slots : SlotId → IGPixelBuffer) : Disciplined (.initial slots) where
  healthy := rfl
  nonnull := Finmap.notMem_empty
  keys_live _ hp := absurd hp Finmap.notMem_empty
  holders := tracks_empty.congr (fun _ => rfl)
    (fun p => iff_of_false (fun hp => Finmap.notMem_empty hp.1) (Set.notMem_empty p))
  trace := trivial

section Steps
variable {own : CallId → Option Addr} {r : BufferRegistry} {m : Memory} {c : CallId} {p : Addr}

theorem Accounted.keep (h : Accounted own r m) {x : Option Addr} (ho : own c = x) :
    Accounted (Function.update own c x) r m :=
  { h with holders := h.holders.keep ho }

theorem Accounted.owned_live (h : Accounted own r m) (ho : own c = some p) :
    p ∈ m.live ∧ p ∉ r.entries := h.holders.mem ho

theorem Accounted.alloc (h : Accounted own r m) (ho : own c = none) (hp : p ≠ null)
    (hfresh : p ∉ m.live) (size : ℕ) :
    Accounted (Function.update own c (some p)) r (pixelBufferAlloc p size m) where
  healthy := h.healthy
  nonnull := by
    rw [alloc_live hp, Finmap.mem_insert]
    exact not_or.mpr ⟨hp.symm, h.nonnull⟩
  keys_live q hq := by
    rw [alloc_live hp, Finmap.mem_insert]
    exact Or.inr (h.keys_live q hq)
  holders := by
    apply (h.holders.acquire ho (fun hm => hfresh hm.1)).congr (fun _ => rfl)
    intro q
    change q ∈ (pixelBufferAlloc p size m).live ∧ q ∉ r.entries ↔ q = p ∨ q ∈ m.live ∧ q ∉ r.entries
    rw [alloc_live hp, Finmap.mem_insert]
    have hkey : q = p → q ∉ r.entries := fun he hq => hfresh (he ▸ h.keys_live q hq)
    tauto
  trace := by
    rw [alloc_trace hp]
    exact ⟨fun hm => hfresh ((m.tracked p).mpr hm), h.trace⟩

theorem Accounted.copy (h : Accounted own r m) (ho : own c = some p) (src : List UInt8)
    (count : ℕ) : Accounted own r (copyNonoverlapping src p count m) where
  healthy := h.healthy
  nonnull := by
    rw [copy_mem]
    exact h.nonnull
  keys_live q hq := (copy_mem ..).mpr (h.keys_live q hq)
  holders := h.holders.congr (fun _ => rfl) (fun q => and_congr_left' (copy_mem ..))
  trace := ⟨(m.tracked p).mp (h.owned_live ho).1, h.trace⟩

theorem Accounted.registers (h : Accounted own r m) (ho : own c = some p) (size : ℕ) :
    register r p size = (.ok (),r.track p size) := by
  rcases register_cases r p size with ⟨-, -, hreg⟩ | ⟨status, -, hpois | hmem⟩
  · exact hreg
  · exact absurd (h.healthy.symm.trans hpois) (by decide)
  · exact absurd hmem (h.owned_live ho).2

theorem Accounted.track (h : Accounted own r m) (ho : own c = some p) (size : ℕ) :
    Accounted (Function.update own c none) (r.track p size) m where
  healthy := h.healthy
  nonnull := h.nonnull
  keys_live q hq := by
    rcases Finmap.mem_insert.mp hq with rfl | hq
    · exact (h.owned_live ho).1
    · exact h.keys_live q hq
  holders := by
    apply (h.holders.release ho).congr (fun _ => rfl)
    intro q
    change q ∈ m.live ∧ q ∉ r.entries.insert p _ ↔ (q ∈ m.live ∧ q ∉ r.entries) ∧ ¬ q = p
    rw [Finmap.mem_insert]
    tauto
  trace := h.trace

theorem Accounted.untrack (h : Accounted own r m) (ho : own c = none) (hp : p ∈ r.entries) :
    Accounted (Function.update own c (some p)) (r.untrack p) m where
  healthy := h.healthy
  nonnull := h.nonnull
  keys_live q hq := h.keys_live q (Finmap.mem_erase.mp hq).2
  holders := by
    apply (h.holders.acquire ho (fun hm => hm.2 hp)).congr (fun _ => rfl)
    intro q
    change q ∈ m.live ∧ q ∉ r.entries.erase p ↔ q = p ∨ q ∈ m.live ∧ q ∉ r.entries
    rw [Finmap.mem_erase]
    have hlive : q = p → q ∈ m.live := fun he => he ▸ h.keys_live p hp
    tauto
  trace := h.trace

theorem Accounted.free (h : Accounted own r m) (ho : own c = some p) :
    Accounted (Function.update own c none) r (pixelBufferFree p m) where
  healthy := h.healthy
  nonnull hn := h.nonnull (Finmap.mem_erase.mp hn).2
  keys_live q hq := by
    have hne : q ≠ p := fun he => (h.owned_live ho).2 (he ▸ hq)
    exact Finmap.mem_erase.mpr ⟨hne, h.keys_live q hq⟩
  holders := by
    apply (h.holders.release ho).congr (fun _ => rfl)
    intro q
    change q ∈ m.live.erase p ∧ q ∉ r.entries ↔ (q ∈ m.live ∧ q ∉ r.entries) ∧ ¬ q = p
    rw [Finmap.mem_erase]
    tauto
  trace := ⟨(m.tracked p).mp (h.owned_live ho).1, h.trace⟩

end Steps

theorem owned_setCall (w : World) (c : CallId) (call : Call) :
    owned (w.setCall c call) = Function.update (owned w) c (ownedPtr call) := holder_insert c call

theorem owned_endCall (w : World) (c : CallId) (e : HostEvent) :
    owned (w.endCall c e) = Function.update (owned w) c none := holder_erase c

/-- Malloc answers null or an address that is not live. -/
def MallocFresh (w : World) : Action → Prop
  | .advance _ answer => answer = null ∨ answer ∉ w.memory.live
  | _ => True

instance (w : World) : (a : Action) → Decidable (MallocFresh w a)
  | .hostWrite .. => isTrue trivial
  | .hostCopy .. => isTrue trivial
  | .beginDecode .. => isTrue trivial
  | .beginFree .. => isTrue trivial
  | .advance _ answer => inferInstanceAs (Decidable (answer = null ∨ answer ∉ w.memory.live))

theorem advance_disciplined {w : World} (h : Disciplined w) {c : CallId} {call : Call}
    (hc : w.calls.lookup c = some call) {answer : Addr}
    (hfresh : answer = null ∨ answer ∉ w.memory.live) :
    Disciplined (w.advance c answer call) := by
  have ho : owned w c = ownedPtr call := holder_of_lookup hc
  unfold Disciplined
  cases call with
  | decoding s f =>
    by_cases hp : answer = null
    · simp only [World.advance, if_pos hp, owned_endCall]
      rw [hp, alloc_null]
      exact h.keep ho
    · simp only [World.advance, if_neg hp, owned_setCall]
      exact h.alloc ho hp (hfresh.resolve_left hp) f.bufSize
  | allocated s f p =>
    simp only [World.advance, owned_setCall]
    exact (h.copy ho f.data f.bufSize).keep ho
  | copied s f p =>
    simp only [World.advance, h.registers ho, owned_setCall]
    exact h.track ho f.bufSize
  | registered s f p =>
    simp only [World.advance, owned_endCall]
    exact h.keep ho
  | rejected s p =>
    simp only [World.advance, owned_endCall]
    exact h.free ho
  | freeing s =>
    simp only [World.advance]
    split_ifs with hnull
    · rw [owned_endCall]
      exact h.keep ho
    · rw [owned_setCall]
      exact h.keep ho
  | cleared s p origin =>
    rcases unregister_cases w.registry p with ⟨entry, -, hl, hreg⟩ | ⟨status, hreg, -⟩
    · simp only [World.advance, hreg, owned_setCall]
      exact h.untrack ho (Finmap.mem_of_lookup_eq_some hl)
    · simp only [World.advance, hreg, owned_endCall]
      exact h.keep ho
  | unregistered s p =>
    simp only [World.advance, owned_endCall]
    exact h.free ho

theorem step_disciplined (w : World) (a : Action) (w' : World) (h : Disciplined w)
    (hok : MallocFresh w a) (hs : step w a = some w') : Disciplined w' := by
  rcases step_cases hs with ⟨s, b, rfl, rfl⟩ | ⟨source, target, rfl, rfl⟩ |
    ⟨c, slot, env, path, frameIndex, rfl, hc, ⟨status, rfl, -⟩ | ⟨s, f, rfl, rfl⟩⟩ |
    ⟨c, rfl, rfl⟩ | ⟨c, s, rfl, hc, rfl⟩ | ⟨c, answer, call, rfl, hc, rfl⟩
  · exact h
  · exact h
  · exact h
  · rw [Disciplined, owned_setCall]
    exact h.keep (holder_none_of_lookup (Finmap.lookup_eq_none.mpr hc))
  · exact h
  · rw [Disciplined, owned_setCall]
    exact h.keep (holder_none_of_lookup (Finmap.lookup_eq_none.mpr hc))
  · exact advance_disciplined h hc hok

theorem reached_disciplined {slots : SlotId → IGPixelBuffer} {w : World}
    (h : Reached step MallocFresh (.initial slots) w) : Disciplined w :=
  reached_invariant (initial_disciplined slots) step_disciplined h

theorem quiet_live {w : World} (h : Disciplined w) (hquiet : w.calls = ∅) (p : Addr) :
    p ∈ w.memory.live ↔ p ∈ w.registry.entries := by
  refine ⟨fun hp => ?_, h.keys_live p⟩
  by_contra hkey
  obtain ⟨c, hc⟩ := (h.holders.covers p).mp ⟨hp, hkey⟩
  rw [owned, hquiet, holder_none_of_lookup (Finmap.lookup_empty c)] at hc
  cases hc

/-- In every state any interleaving can reach, with any structs passed to the
free calls and any reuse of addresses by malloc: registered addresses are live
and not null, a live block is registered or in the hands of one call, and every
release gives back an allocation not given back before. -/
theorem allocator_discipline (slots : SlotId → IGPixelBuffer) (w : World)
    (h : Reached step MallocFresh (.initial slots) w) :
    (∀ p, p ∈ w.registry.entries → p ≠ null ∧ p ∈ w.memory.live) ∧
    (∀ p, p ∈ w.memory.live → p ∉ w.registry.entries → ∃! c, owned w c = some p) ∧
    (∀ after p before, w.memory.trace = after++.free p::before →
      p ∈ AllocTrace.live before ∧
      ∃ since size early, before = since++.malloc p size::early ∧ .free p ∉ since) ∧
    (∀ p, mallocsOf p w.memory.trace =
      freesOf p w.memory.trace+if p ∈ w.memory.live then 1 else 0) := by
  have hd := reached_disciplined h
  refine ⟨?_, ?_, ?_, ?_⟩
  · intro p hp
    have hlive := hd.keys_live p hp
    exact ⟨fun hnull => hd.nonnull (hnull ▸ hlive), hlive⟩
  · intro p hlive hkey
    obtain ⟨c, hc⟩ := (hd.holders.covers p).mp ⟨hlive, hkey⟩
    exact ⟨c, hc, fun c' hc' => hd.holders.exclusive c' c p hc' hc⟩
  · intro after p before ht
    have htrace := hd.trace
    rw [ht] at htrace
    exact ⟨(disciplined_suffix after _ htrace).1, free_of_malloc after before p htrace⟩
  · intro p
    have hiff := w.memory.tracked p
    by_cases hp : p ∈ w.memory.live
    · simp [mallocs_balance w.memory.trace hd.trace p, hp, hiff.mp hp]
    · simp [mallocs_balance w.memory.trace hd.trace p, hp, mt hiff.mpr hp]

def pixel : DecodedImage := ⟨1, 1, [1,2,3,4]⟩

def decodeAt (c : CallId) (slot : SlotId) (dataPtr : Addr) : List Action :=
  [.beginDecode c (some slot) (servingEnv pixel) somePath 0, .advance c dataPtr,
    .advance c null, .advance c null, .advance c null]

def freeTwice : List Action :=
  decodeAt 0 0 8++[.hostCopy 0 1, .beginFree 1 (some 0), .beginFree 2 (some 1),
    .advance 1 null, .advance 2 null, .advance 1 null, .advance 2 null]

theorem allocator_discipline_pending :
    ∃ w, run step freeTwice (.initial fun _ => emptyBuffer) = some w ∧
      ∀ p, p ∈ w.memory.live → p ∉ w.registry.entries → ∃! c, owned w c = some p := by
  obtain ⟨w, hw⟩ : ∃ w, run step freeTwice (.initial fun _ => emptyBuffer) = some w :=
    Option.isSome_iff_exists.mp (by decide)
  exact ⟨w, hw, (allocator_discipline _ w ⟨freeTwice, hw, by decide⟩).2.1⟩

end IthmbPlugin.Discipline
