import IthmbPlugin.Discipline
import IthmbPlugin.Sequential

/-!
# Frees in any order

The structs of a host may share a data pointer, hold one the plugin never
issued, or none. However they are freed, in whatever order and however often,
the end is fixed by the set of structs that were: no call takes anything the
others would have left, and a repeated call finds the struct cleared.
-/

set_option autoImplicit false

namespace IthmbPlugin.FreeOrder
open IthmbPlugin.Types IthmbPlugin.Registry IthmbPlugin.Allocator IthmbPlugin.Decode
open IthmbPlugin.AllocTrace IthmbPlugin.Runs IthmbPlugin.Calls IthmbPlugin.Discipline

structure State (Slot : Type*) where
  slots : Slot → IGPixelBuffer
  registry : BufferRegistry
  memory : Memory

section Frees
variable {Slot : Type*}

/-- The registry works, and what it tracks are allocations of the plugin. -/
structure Sound (st : State Slot) : Prop where
  healthy : st.registry.poisoned = false
  keys : ∀ p, p ∈ st.registry.entries → p ≠ null ∧ p ∈ st.memory.live

def Held (st : State Slot) (calls : List Slot) (p : Addr) : Prop :=
  ∃ s ∈ calls, (st.slots s).data = p

theorem held_congr {st : State Slot} {calls calls' : List Slot}
    (hset : ∀ s, s ∈ calls' ↔ s ∈ calls) (p : Addr) : Held st calls' p ↔ Held st calls p := by
  apply exists_congr
  intro s
  rw [hset]

variable [DecidableEq Slot]

def State.free (st : State Slot) (s : Slot) : State Slot :=
  let result := codecFreePixelBuffer (some (st.slots s)) (some st.registry) st.memory
  { slots := Function.update st.slots s (result.buffer.getD (st.slots s))
    registry := result.registry.getD st.registry
    memory := result.memory }

def State.frees (st : State Slot) (calls : List Slot) : State Slot := calls.foldl State.free st

def State.cleared (st : State Slot) (s : Slot) : State Slot :=
  { st with slots := Function.update st.slots s (clearedBuffer (st.slots s)) }

def State.released (st : State Slot) (p : Addr) : State Slot :=
  { st with registry := st.registry.untrack p, memory := pixelBufferFree p st.memory }

theorem free_tracked {st : State Slot} {s : Slot} (h : Sound st)
    (hp : (st.slots s).data ∈ st.registry.entries) :
    st.free s = (st.cleared s).released (st.slots s).data := by
  obtain ⟨entry, hentry⟩ := Finmap.mem_iff.mp hp
  have hunreg := unregister_tracked h.healthy hentry
  have hnull := (h.keys _ hp).1
  simp [State.free, codecFreePixelBuffer, hnull, hunreg, State.cleared, State.released]

theorem free_untracked {st : State Slot} {s : Slot} (h : Sound st)
    (hp : (st.slots s).data ∉ st.registry.entries) : st.free s = st.cleared s := by
  have hunreg := unregister_untracked h.healthy (Finmap.lookup_eq_none.mpr hp)
  by_cases hnull : (st.slots s).data = null
  · simp [State.free, codecFreePixelBuffer, hnull, State.cleared]
  · simp [State.free, codecFreePixelBuffer, hnull, hunreg, State.cleared]

theorem free_slots {st : State Slot} (h : Sound st) (s : Slot) :
    (st.free s).slots = Function.update st.slots s (clearedBuffer (st.slots s)) := by
  by_cases hp : (st.slots s).data ∈ st.registry.entries
  · rw [free_tracked h hp, State.released, State.cleared]
  · rw [free_untracked h hp, State.cleared]

theorem free_sound {st : State Slot} (h : Sound st) (s : Slot) : Sound (st.free s) := by
  by_cases hp : (st.slots s).data ∈ st.registry.entries
  · rw [free_tracked h hp]
    refine ⟨h.healthy, fun q hq => ?_⟩
    obtain ⟨hne, hq⟩ := Finmap.mem_erase.mp hq
    obtain ⟨hnull, hlive⟩ := h.keys q hq
    exact ⟨hnull, Finmap.mem_erase.mpr ⟨hne, hlive⟩⟩
  · rw [free_untracked h hp]
    exact ⟨h.healthy, h.keys⟩

theorem free_data {st : State Slot} (h : Sound st) (s t : Slot) :
    ((st.free s).slots t).data = if t = s then null else (st.slots t).data := by
  rw [free_slots h, Function.update_apply]
  by_cases ht : t = s <;> simp [ht, clearedBuffer]

theorem free_lookup {st : State Slot} (h : Sound st) (s : Slot) (p : Addr) :
    (st.free s).registry.entries.lookup p =
      if (st.slots s).data = p then none else st.registry.entries.lookup p := by
  by_cases hp : (st.slots s).data ∈ st.registry.entries
  · rw [free_tracked h hp]
    by_cases hq : (st.slots s).data = p
    · rw [if_pos hq, ← hq]
      exact Finmap.lookup_erase ..
    · rw [if_neg hq]
      exact Finmap.lookup_erase_ne (Ne.symm hq)
  · rw [free_untracked h hp]
    by_cases hq : (st.slots s).data = p
    · rw [if_pos hq, ← hq]
      exact Finmap.lookup_eq_none.mpr hp
    · rw [if_neg hq, State.cleared]

theorem free_mem {st : State Slot} (h : Sound st) (s : Slot) (p : Addr) :
    p ∈ (st.free s).registry.entries ↔ (st.slots s).data ≠ p ∧ p ∈ st.registry.entries := by
  rw [← Finmap.lookup_isSome, free_lookup h, ← Finmap.lookup_isSome]
  by_cases hq : (st.slots s).data = p <;> simp [hq]

theorem free_live {st : State Slot} (h : Sound st) (s : Slot) (p : Addr) :
    (st.free s).memory.live.lookup p =
      if (st.slots s).data = p ∧ p ∈ st.registry.entries then none
      else st.memory.live.lookup p := by
  by_cases hp : (st.slots s).data ∈ st.registry.entries
  · rw [free_tracked h hp]
    by_cases hq : (st.slots s).data = p
    · rw [if_pos ⟨hq, hq ▸ hp⟩, ← hq]
      exact Finmap.lookup_erase ..
    · rw [if_neg (fun hc => hq hc.1)]
      exact Finmap.lookup_erase_ne (Ne.symm hq)
  · have hkept : ¬ ((st.slots s).data = p ∧ p ∈ st.registry.entries) := by
      rintro ⟨rfl, hmem⟩
      exact hp hmem
    rw [free_untracked h hp, if_neg hkept, State.cleared]

theorem free_trace {st : State Slot} (h : Sound st) (s : Slot) :
    (st.free s).memory.trace =
      if (st.slots s).data ∈ st.registry.entries then
        .free (st.slots s).data::st.memory.trace else st.memory.trace := by
  by_cases hp : (st.slots s).data ∈ st.registry.entries
  · rw [free_tracked h hp, if_pos hp]
    rfl
  · rw [free_untracked h hp, if_neg hp]
    rfl

instance decidableHeld (st : State Slot) (calls : List Slot) (p : Addr) :
    Decidable (Held st calls p) :=
  inferInstanceAs (Decidable (∃ s ∈ calls, (st.slots s).data = p))

theorem held_cons {st : State Slot} (h : Sound st) (s : Slot) (calls : List Slot) {p : Addr}
    (hp : p ≠ null) :
    Held st (s::calls) p ↔ (st.slots s).data = p ∨ Held (st.free s) calls p := by
  simp only [Held, List.mem_cons, exists_eq_or_imp, free_data h]
  apply or_congr_right'
  intro hs
  apply exists_congr
  intro t
  apply and_congr_right
  intro _
  by_cases ht : t = s
  · simp [ht, hs, Ne.symm hp]
  · rw [if_neg ht]

theorem frees_cons (st : State Slot) (s : Slot) (calls : List Slot) :
    st.frees (s::calls) = (st.free s).frees calls := rfl

theorem frees_sound {st : State Slot} (h : Sound st) (calls : List Slot) :
    Sound (st.frees calls) := by
  induction calls generalizing st with
  | nil => exact h
  | cons s calls ih => exact ih (free_sound h s)

theorem frees_slots {st : State Slot} (h : Sound st) (calls : List Slot) (t : Slot) :
    (st.frees calls).slots t =
      if t ∈ calls then clearedBuffer (st.slots t) else st.slots t := by
  induction calls generalizing st with
  | nil => rfl
  | cons s calls ih =>
    rw [frees_cons, ih (free_sound h s), free_slots h, Function.update_apply]
    by_cases ht : t = s
    · subst t
      by_cases hs : s ∈ calls <;> simp [hs, clearedBuffer]
    · simp [ht]

theorem frees_lookup {st : State Slot} (h : Sound st) (calls : List Slot) (p : Addr) :
    (st.frees calls).registry.entries.lookup p =
      if Held st calls p then none else st.registry.entries.lookup p := by
  induction calls generalizing st with
  | nil => simp [State.frees, Held]
  | cons s calls ih =>
    by_cases hp : p = null
    · have hnone : ∀ {st : State Slot}, Sound st → st.registry.entries.lookup p = none := by
        intro st h
        exact Finmap.lookup_eq_none.mpr (fun hmem => (h.keys p hmem).1 hp)
      rw [hnone h, hnone (frees_sound h (s::calls)), ite_self]
    · rw [frees_cons, ih (free_sound h s), free_lookup h, ← ite_or]
      simp only [held_cons h s calls hp, or_comm]

theorem taken_cons {st : State Slot} (h : Sound st) (s : Slot) (calls : List Slot) (p : Addr) :
    p ∈ st.registry.entries ∧ Held st (s::calls) p ↔
      ((st.slots s).data = p ∧ p ∈ st.registry.entries) ∨
      (p ∈ (st.free s).registry.entries ∧ Held (st.free s) calls p) := by
  rw [free_mem h]
  by_cases hmem : p ∈ st.registry.entries
  · rw [held_cons h s calls (h.keys p hmem).1]
    by_cases hs : (st.slots s).data = p <;> simp [hs, hmem]
  · simp [hmem]

theorem frees_live {st : State Slot} (h : Sound st) (calls : List Slot) (p : Addr) :
    (st.frees calls).memory.live.lookup p =
      if p ∈ st.registry.entries ∧ Held st calls p then none
      else st.memory.live.lookup p := by
  induction calls generalizing st with
  | nil => simp [State.frees, Held]
  | cons s calls ih =>
    rw [frees_cons, ih (free_sound h s), free_live h, ← ite_or]
    simp only [taken_cons h, or_comm]

theorem frees_trace {st : State Slot} (h : Sound st) (calls : List Slot) :
    ∃ released : List Addr, released.Nodup ∧
      (∀ p, p ∈ released ↔ p ∈ st.registry.entries ∧ Held st calls p) ∧
      (st.frees calls).memory.trace = released.map .free++st.memory.trace := by
  induction calls generalizing st with
  | nil => exact ⟨[], List.nodup_nil, by simp [Held], rfl⟩
  | cons s calls ih =>
    obtain ⟨later, hnodup, hlater, htrace⟩ := ih (free_sound h s)
    rw [frees_cons, htrace, free_trace h]
    by_cases hs : (st.slots s).data ∈ st.registry.entries
    · refine ⟨later++[(st.slots s).data], ?_, ?_, ?_⟩
      · have hnew : (st.slots s).data ∉ later := by
          rw [hlater, free_mem h]
          exact fun hmem => hmem.1.1 rfl
        exact List.nodup_append'.mpr ⟨hnodup, List.nodup_singleton _, by simpa using hnew⟩
      · intro p
        rw [List.mem_append, List.mem_singleton, hlater, taken_cons h, or_comm, eq_comm]
        apply or_congr_left
        exact ⟨fun hp => ⟨hp, hp ▸ hs⟩, fun hp => hp.1⟩
      · rw [if_pos hs]
        simp
    · refine ⟨later, hnodup, fun p => ?_, by rw [if_neg hs]⟩
      rw [hlater, taken_cons h, or_iff_right]
      rintro ⟨rfl, hmem⟩
      exact hs hmem

theorem registry_ext {r r' : BufferRegistry} (hp : r.poisoned = r'.poisoned)
    (h : ∀ p, r.entries.lookup p = r'.entries.lookup p) : r = r' := by
  cases r
  cases r'
  cases hp
  cases Finmap.ext_lookup h
  rfl

theorem frees_congr {st : State Slot} (h : Sound st) {calls calls' : List Slot}
    (hset : ∀ s, s ∈ calls' ↔ s ∈ calls) :
    (st.frees calls').slots = (st.frees calls).slots ∧
    (st.frees calls').registry = (st.frees calls).registry ∧
    (st.frees calls').memory.live = (st.frees calls).memory.live := by
  refine ⟨?_, ?_, ?_⟩
  · funext t
    simp only [frees_slots h, hset]
  · apply registry_ext
    · rw [(frees_sound h calls').healthy, (frees_sound h calls).healthy]
    · intro p
      simp only [frees_lookup h, held_congr hset]
  · apply Finmap.ext_lookup
    intro p
    simp only [frees_live h, held_congr hset]

/-- Frees are idempotent and their order does not matter: structs, registry
and heap after any sequence of calls are functions of the set of freed structs. -/
theorem frees_order_independent (st : State Slot) (h : Sound st) (calls : List Slot) :
    (∀ s, s ∈ calls → (st.frees calls).slots s =
      { st.slots s with data := null, width := 0, height := 0, stride := 0 }) ∧
    (∀ s, s ∉ calls → (st.frees calls).slots s = st.slots s) ∧
    (st.frees calls).registry.poisoned = false ∧
    (∀ p, (st.frees calls).registry.entries.lookup p =
      if ∃ s ∈ calls, (st.slots s).data = p then none else st.registry.entries.lookup p) ∧
    (∀ p, (st.frees calls).memory.live.lookup p =
      if p ∈ st.registry.entries ∧ ∃ s ∈ calls, (st.slots s).data = p then none
      else st.memory.live.lookup p) ∧
    (∃ released : List Addr, released.Nodup ∧
      (∀ p, p ∈ released ↔ p ∈ st.registry.entries ∧ ∃ s ∈ calls, (st.slots s).data = p) ∧
      (st.frees calls).memory.trace = released.map .free++st.memory.trace) ∧
    (∀ calls', (∀ s, s ∈ calls' ↔ s ∈ calls) →
      (st.frees calls').slots = (st.frees calls).slots ∧
      (st.frees calls').registry = (st.frees calls).registry ∧
      (st.frees calls').memory.live = (st.frees calls).memory.live) := by
  refine ⟨fun s hs => ?_, fun s hs => ?_, (frees_sound h calls).healthy, frees_lookup h calls,
    frees_live h calls, frees_trace h calls, fun calls' hset => frees_congr h hset⟩
  · rw [frees_slots h, if_pos hs, clearedBuffer]
  · rw [frees_slots h, if_neg hs]

end Frees

def aliased : State ℕ where
  slots s := ⟨if s < 2 then 8 else 16, 1, 1, 4, 1, null⟩
  registry := BufferRegistry.new.track 8 4
  memory := pixelBufferAlloc 8 4 .empty

theorem frees_order_independent_aliased :
    (aliased.frees [1,0,2,1]).registry = (aliased.frees [0,1,2]).registry ∧
    (∃ released : List Addr, released.Nodup ∧ (∀ p, p ∈ released ↔ p = 8) ∧
      (aliased.frees [1,0,2,1]).memory.trace = released.map .free++[.malloc 8 4]) := by
  have h : Sound aliased := by
    refine ⟨rfl, fun p hp => ?_⟩
    obtain rfl : p = 8 := by
      simpa [aliased, BufferRegistry.track, BufferRegistry.new, Finmap.notMem_empty] using hp
    exact ⟨by decide, by decide⟩
  obtain ⟨-, -, -, -, -, ⟨released, hnodup, hreleased, htrace⟩, -⟩ :=
    frees_order_independent aliased h [1,0,2,1]
  refine ⟨?_, released, hnodup, fun p => ?_, htrace⟩
  · exact ((frees_order_independent aliased h [0,1,2]).2.2.2.2.2.2 [1,0,2,1] (by simp; tauto)).2.1
  · rw [hreleased]
    constructor
    · rintro ⟨hp, -⟩
      simpa [aliased, BufferRegistry.track, BufferRegistry.new, Finmap.notMem_empty] using hp
    · rintro rfl
      exact ⟨by decide, by decide⟩

def ofWorld (w : World) : State SlotId :=
  { slots := w.slots, registry := w.registry, memory := w.memory }

theorem reached_sound {slots : SlotId → IGPixelBuffer} {w : World}
    (h : Reached step MallocFresh (.initial slots) w) : Sound (ofWorld w) := by
  have hd := reached_disciplined h
  refine ⟨hd.healthy, fun p hp => ?_⟩
  have hlive := hd.keys_live p hp
  exact ⟨fun hnull => hd.nonnull (hnull ▸ hlive), hlive⟩

theorem frees_run (c : CallId) (ss : List SlotId) (w : World) (hc : c ∉ w.calls) :
    ∃ as w', run step as w = some w' ∧ ofWorld w' = (ofWorld w).frees ss := by
  induction ss generalizing w with
  | nil => exact ⟨[], w, rfl, rfl⟩
  | cons s ss ih =>
    obtain ⟨as, w', -, hrun, hkept, hslot, hregistry, hmemory, -⟩ :=
      Sequential.free_alone w c hc s
    obtain ⟨bs, w'', hrest, hstate⟩ := ih w' (hkept.1 ▸ hc)
    have hfree : ofWorld w' = (ofWorld w).free s := by
      simp only [ofWorld, State.free, ← hslot, ← hregistry, hmemory, Option.getD_some]
      congr 1
      funext t
      by_cases ht : t = s
      · rw [ht, Function.update_self]
      · rw [Function.update_of_ne ht, hkept.2 t ht]
    refine ⟨(.beginFree c (some s)::as)++bs, w'', ?_, ?_⟩
    · rw [run_append, hrun]
      exact hrest
    · rw [hstate, hfree, frees_cons]

/-- From any state that interleaved calls can reach, freeing the same structs
in two orders ends with the same structs, registry and blocks. -/
theorem reached_frees {slots : SlotId → IGPixelBuffer} {w : World} {c : CallId}
    (h : Reached step MallocFresh (.initial slots) w) (hc : c ∉ w.calls)
    {ss ss' : List SlotId} (hset : ∀ s, s ∈ ss' ↔ s ∈ ss) :
    ∃ as as' v v', run step as w = some v ∧ run step as' w = some v' ∧
      ofWorld v = (ofWorld w).frees ss ∧ ofWorld v' = (ofWorld w).frees ss' ∧
      v'.slots = v.slots ∧ v'.registry = v.registry ∧ v'.memory.live = v.memory.live := by
  obtain ⟨as, v, hrun, hv⟩ := frees_run c ss w hc
  obtain ⟨as', v', hrun', hv'⟩ := frees_run c ss' w hc
  have hend := frees_congr (reached_sound h) hset
  rw [← hv, ← hv'] at hend
  exact ⟨as, as', v, v', hrun, hrun', hv, hv', hend⟩

end IthmbPlugin.FreeOrder
