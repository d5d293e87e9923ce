import IthmbPlugin.Calls

/-!
# Calls that run alone

The steps of one call with nothing in between are what the call computes as
one function of the struct, the registry and the heap. What holds of every
interleaving of the steps therefore holds of the entry points as they are
written.
-/

set_option autoImplicit false

namespace IthmbPlugin.Sequential
open IthmbPlugin.Types IthmbPlugin.Registry IthmbPlugin.Allocator IthmbPlugin.Decode
open IthmbPlugin.Runs IthmbPlugin.Calls

theorem setCall_setCall (w : World) (c : CallId) (a b : Call) :
    (w.setCall c a).setCall c b = w.setCall c b := by
  simp only [World.setCall, Finmap.insert_insert]

theorem endCall_setCall {w : World} {c : CallId} (hc : c ∉ w.calls) (a : Call) (e : HostEvent) :
    (w.setCall c a).endCall c e = w.record e := by
  have hback : (w.calls.insert c a).erase c = w.calls := by
    apply Finmap.ext_lookup
    intro d
    by_cases hd : d = c
    · subst hd
      rw [Finmap.lookup_erase, Finmap.lookup_eq_none.mpr hc]
    · rw [Finmap.lookup_erase_ne hd, Finmap.lookup_insert_of_ne _ hd]
  simp only [World.setCall, World.endCall, World.record, hback]

theorem run_advance (w : World) (c : CallId) (call : Call) (answer : Addr) (as : List Action) :
    run step (.advance c answer::as) (w.setCall c call) =
      run step as ((w.setCall c call).advance c answer call) := by
  simp [run, step, World.setCall, Finmap.lookup_insert]

section Phases
variable {w : World} {c : CallId} {p : Addr}

def filled (w : World) (f : Frame) (p : Addr) : World where
  slots := w.slots
  origins := w.origins
  registry := w.registry
  memory := copyNonoverlapping f.data p f.bufSize (pixelBufferAlloc p f.bufSize w.memory)
  calls := w.calls
  history := w.history

theorem run_fill (hp : p ≠ null) (s : SlotId) (f : Frame) (as : List Action) :
    run step (.advance c p::.advance c null::as) (w.setCall c (.decoding s f)) =
      run step as ((filled w f p).setCall c (.copied s f p)) := by
  let allocated : World := { w with memory := pixelBufferAlloc p f.bufSize w.memory }
  have halloc : (w.setCall c (.decoding s f)).advance c p (.decoding s f) =
      allocated.setCall c (.allocated s f p) := by
    simp only [World.advance, if_neg hp]
    exact setCall_setCall allocated c _ _
  rw [run_advance, halloc, run_advance]
  congr 1
  exact setCall_setCall (filled w f p) c _ _

theorem run_publish (hc : c ∉ w.calls) (s : SlotId) (f : Frame) {r : BufferRegistry}
    (hreg : register w.registry p f.bufSize = (.ok (),r)) :
    run step [.advance c null, .advance c null] (w.setCall c (.copied s f p)) =
      some ((World.writeSlot { w with registry := r } s (f.publish p)
        (w.memory.serialAt p)).record (.published s (w.memory.serialAt p) p)) := by
  let tracked : World := { w with registry := r }
  have hregister : (w.setCall c (.copied s f p)).advance c null (.copied s f p) =
      tracked.setCall c (.registered s f p) := by
    simp only [World.advance, World.setCall, hreg]
    exact setCall_setCall tracked c _ _
  rw [run_advance, hregister, run_advance]
  exact congrArg some
    (endCall_setCall (w := tracked.writeSlot s (f.publish p) (w.memory.serialAt p)) hc _ _)

theorem run_reject (hc : c ∉ w.calls) (s : SlotId) (f : Frame) {status : IGStatus}
    (hreg : register w.registry p f.bufSize = (.error status,w.registry)) :
    run step [.advance c null, .advance c null] (w.setCall c (.copied s f p)) =
      some (World.record { w with memory := pixelBufferFree p w.memory }
        (.refused (some s) .internal)) := by
  have hreject : (w.setCall c (.copied s f p)).advance c null (.copied s f p) =
      w.setCall c (.rejected s p) := by
    simp only [World.advance, World.setCall, hreg]
    exact setCall_setCall w c _ _
  rw [run_advance, hreject, run_advance]
  exact congrArg some
    (endCall_setCall (w := { w with memory := pixelBufferFree p w.memory }) hc _ _)

theorem run_clear_null (hc : c ∉ w.calls) {s : SlotId} (hnull : (w.slots s).data = null) :
    run step [.advance c null] (w.setCall c (.freeing s)) =
      some ((w.taken s).record (.freed (some s))) := by
  have hread : ((w.setCall c (.freeing s)).slots s).data = null := hnull
  rw [run_advance]
  simp only [World.advance, if_pos hread]
  exact congrArg some (endCall_setCall (w := w.taken s) hc (.freeing s) _)

theorem run_clear {s : SlotId} (hnull : (w.slots s).data ≠ null) (as : List Action) :
    run step (.advance c null::as) (w.setCall c (.freeing s)) =
      run step as ((w.taken s).setCall c (.cleared s (w.slots s).data (w.origins s))) := by
  have hread : ((w.setCall c (.freeing s)).slots s).data ≠ null := hnull
  rw [run_advance]
  simp only [World.advance, if_neg hread]
  exact congrArg (run step as) (setCall_setCall (w.taken s) c (.freeing s) _)

theorem run_unregister_refused (hc : c ∉ w.calls) (s : SlotId) (origin : Option ℕ)
    {status : IGStatus} (hreg : unregister w.registry p = (.error status,w.registry)) :
    run step [.advance c null] (w.setCall c (.cleared s p origin)) =
      some (w.record (.freed (some s))) := by
  rw [run_advance]
  simp only [World.advance, World.setCall, hreg]
  exact congrArg some (endCall_setCall (w := w) hc (.cleared s p origin) _)

theorem run_release (hc : c ∉ w.calls) (s : SlotId) (origin : Option ℕ) {entry : BufferEntry}
    {r : BufferRegistry} (hreg : unregister w.registry p = (.ok entry,r)) :
    run step [.advance c null, .advance c null] (w.setCall c (.cleared s p origin)) =
      some (World.record { w with registry := r, memory := pixelBufferFree p w.memory }
        (.freed (some s))) := by
  let untracked : World := { w with registry := r }
  have hunregister : (w.setCall c (.cleared s p origin)).advance c null (.cleared s p origin) =
      untracked.setCall c (.unregistered s p) := by
    simp only [World.advance, World.setCall, hreg]
    exact setCall_setCall untracked c _ _
  rw [run_advance, hunregister, run_advance]
  exact congrArg some
    (endCall_setCall (w := { untracked with memory := pixelBufferFree p w.memory }) hc _ _)

end Phases

def OthersKept (s : SlotId) (w w' : World) : Prop :=
  w'.calls = w.calls ∧ ∀ t, t ≠ s → w'.slots t = w.slots t

def Steps (c : CallId) (malloc : ℕ → Addr) (as : List Action) : Prop :=
  as = [] ∨ ∃ answer rest, as = .advance c answer::rest ∧
    (answer = null ∨ ∃ n, answer = malloc n) ∧ ∀ a ∈ rest, a = .advance c null

theorem decode_alone (w : World) (c : CallId) (hc : c ∉ w.calls) (s : SlotId) (env : DecodeEnv)
    (malloc : ℕ → Addr) (path : IGStringRef) (frameIndex : Int32) :
    let result := codecDecodeStaticRaster env malloc path frameIndex (some (w.slots s))
      (some w.registry) w.memory
    ∃ as w', Steps c malloc as ∧
      run step (.beginDecode c (some s) env path frameIndex::as) w = some w' ∧
      OthersKept s w w' ∧ some (w'.slots s) = result.buffer ∧
      some w'.registry = result.registry ∧ w'.memory = result.memory ∧
      (result.status = .ok → ∃ serial p, w'.history = .published s serial p::w.history) ∧
      (result.status ≠ .ok → w'.history = .refused (some s) result.status::w.history) := by
  intro result
  have hstart : ∀ as, run step (.beginDecode c (some s) env path frameIndex::as) w =
      run step as (w.startDecode c (some s) (decodeImage env path frameIndex false).1) := by
    intro as
    simp [run, step, hc]
  cases hd : decodeImage env path frameIndex false with
  | mk outcome logs =>
    have hresult : result = codecDecodeStaticRaster env malloc path frameIndex
      (some (w.slots s)) (some w.registry) w.memory := rfl
    simp only [codecDecodeStaticRaster, Option.isNone_some, hd] at hresult
    rw [hd] at hstart
    cases outcome with
    | error status =>
      rw [hresult]
      exact ⟨[], _, Or.inl rfl, hstart [], ⟨rfl, fun _ _ => rfl⟩, rfl, rfl, rfl,
        fun h => absurd h (decodeImage_not_ok hd), fun _ => rfl⟩
    | ok img =>
      cases hf : frameOf img with
      | none =>
        simp only [hf] at hresult
        simp only [World.startDecode, hf] at hstart
        rw [hresult]
        exact ⟨[], _, Or.inl rfl, hstart [], ⟨rfl, fun _ _ => rfl⟩, rfl, rfl, rfl,
          fun h => (by cases h), fun _ => rfl⟩
      | some f =>
        simp only [hf] at hresult
        simp only [World.startDecode, hf] at hstart
        by_cases hp : malloc f.bufSize = null
        · simp only [hp, if_true, alloc_null] at hresult
          rw [hresult]
          refine ⟨[.advance c null], w.record (.refused (some s) .outOfMemory),
            Or.inr ⟨null, [], rfl, Or.inl rfl, by simp⟩, ?_,
            ⟨rfl, fun _ _ => rfl⟩, rfl, rfl, rfl, fun h => (by cases h), fun _ => rfl⟩
          rw [hstart, run_advance]
          simp only [World.advance, if_true, alloc_null, run]
          exact congrArg some (endCall_setCall hc _ _)
        · simp only [hp, if_false] at hresult
          have hfill : ∀ as, run step (.beginDecode c (some s) env path frameIndex::
              .advance c (malloc f.bufSize)::.advance c null::as) w =
              run step as ((filled w f (malloc f.bufSize)).setCall c
                (.copied s f (malloc f.bufSize))) :=
            fun as => (hstart _).trans (run_fill hp s f as)
          rcases register_cases w.registry (malloc f.bufSize) f.bufSize with
            ⟨-, -, hreg⟩ | ⟨status, hreg, -⟩
          · rw [hreg] at hresult
            rw [hresult]
            refine ⟨[.advance c (malloc f.bufSize), .advance c null, .advance c null,
              .advance c null], _, Or.inr ⟨_, _, rfl, Or.inr ⟨_, rfl⟩, by simp⟩,
              (hfill _).trans (run_publish (w := filled w f _) hc s f hreg), ?_⟩
            exact ⟨⟨rfl, fun t ht => Function.update_of_ne ht ..⟩,
              congrArg some (Function.update_self ..), rfl, rfl, fun _ => ⟨_, _, rfl⟩,
              fun h => absurd rfl h⟩
          · rw [hreg] at hresult
            rw [hresult]
            refine ⟨[.advance c (malloc f.bufSize), .advance c null, .advance c null,
              .advance c null], _, Or.inr ⟨_, _, rfl, Or.inr ⟨_, rfl⟩, by simp⟩,
              (hfill _).trans (run_reject (w := filled w f _) hc s f hreg), ?_⟩
            exact ⟨⟨rfl, fun _ _ => rfl⟩, rfl, rfl, rfl, fun h => (by cases h), fun _ => rfl⟩

theorem free_alone (w : World) (c : CallId) (hc : c ∉ w.calls) (s : SlotId) :
    let result := codecFreePixelBuffer (some (w.slots s)) (some w.registry) w.memory
    ∃ as w', (∀ a ∈ as, a = .advance c null) ∧
      run step (.beginFree c (some s)::as) w = some w' ∧ OthersKept s w w' ∧
      some (w'.slots s) = result.buffer ∧ some w'.registry = result.registry ∧
      w'.memory = result.memory ∧
      w'.history = .freed (some s)::.surrendered s (w.origins s)::w.history := by
  intro result
  have hstart : ∀ as, run step (.beginFree c (some s)::as) w =
      run step as (w.setCall c (.freeing s)) := by
    intro as
    simp [run, step, hc]
  have hresult : result = codecFreePixelBuffer (some (w.slots s)) (some w.registry) w.memory := rfl
  simp only [codecFreePixelBuffer] at hresult
  by_cases hnull : (w.slots s).data = null
  · rw [if_pos hnull] at hresult
    rw [hresult]
    refine ⟨[.advance c null], _, by simp, (hstart _).trans (run_clear_null hc hnull), ?_⟩
    exact ⟨⟨rfl, fun t ht => Function.update_of_ne ht ..⟩,
      congrArg some (Function.update_self ..), rfl, rfl, rfl⟩
  · rw [if_neg hnull] at hresult
    have hclear := fun as => (hstart _).trans (run_clear (c := c) hnull as)
    rcases unregister_cases w.registry (w.slots s).data with ⟨entry, -, -, hreg⟩ | ⟨status, hreg, -⟩
    · rw [hreg] at hresult
      rw [hresult]
      refine ⟨[.advance c null, .advance c null, .advance c null], _, by simp,
        (hclear _).trans (run_release (w := w.taken s) hc s _ hreg), ?_⟩
      exact ⟨⟨rfl, fun t ht => Function.update_of_ne ht ..⟩,
        congrArg some (Function.update_self ..), rfl, rfl, rfl⟩
    · rw [hreg] at hresult
      rw [hresult]
      refine ⟨[.advance c null, .advance c null], _, by simp,
        (hclear _).trans (run_unregister_refused (w := w.taken s) hc s _ hreg), ?_⟩
      exact ⟨⟨rfl, fun t ht => Function.update_of_ne ht ..⟩,
        congrArg some (Function.update_self ..), rfl, rfl, rfl⟩

end IthmbPlugin.Sequential
