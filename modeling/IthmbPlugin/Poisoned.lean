import IthmbPlugin.Shown

/-!
# A panic under the registry's lock

A map operation that panics poisons the mutex, and the call it was made for is
ended by its `catch_unwind`. The registry is sealed from then on: no block
enters it and none leaves. What the host has been shown stays as it is, what is
in the hands of calls is given back, and of all blocks at most the one of the
panicked decode call is lost.
-/

set_option autoImplicit false

namespace IthmbPlugin.Poisoned
open IthmbPlugin.Types IthmbPlugin.Registry IthmbPlugin.Allocator
open IthmbPlugin.Ownership IthmbPlugin.Runs IthmbPlugin.Calls IthmbPlugin.Discipline
open IthmbPlugin.DecodeContract IthmbPlugin.Pixels IthmbPlugin.Phases
open IthmbPlugin.Shown (advance_content)

/-- A step of a call or the host, or a call whose map operation panics before
it has done anything. -/
inductive Move where
  | act (a : Action)
  | panicked (c : CallId)

def poison (w : World) : World := { w with registry := { w.registry with poisoned := true } }

/-- `catch_unwind` ends the call. The block of a decode call is not released. -/
def unwound (w : World) (c : CallId) : Call → Option World
  | .copied s _ _ => some ((poison w).endCall c (.refused (some s) .internal))
  | .cleared s _ _ => some ((poison w).endCall c (.freed (some s)))
  | _ => none

/-- Behind a poisoned lock no map operation is reached. -/
def step (w : World) : Move → Option World
  | .act a => Calls.step w a
  | .panicked c =>
    if w.registry.poisoned then none else (w.calls.lookup c).bind (unwound w c)

def Fresh (w : World) : Move → Prop
  | .act a => MallocFresh w a
  | .panicked _ => True

instance (w : World) : (m : Move) → Decidable (Fresh w m)
  | .act a => inferInstanceAs (Decidable (MallocFresh w a))
  | .panicked _ => isTrue trivial

def ahead (lost : Option Addr) (own : CallId → Option Addr) : ℕ → Option Addr
  | 0 => lost
  | c+1 => own c

theorem ahead_update (lost : Option Addr) (own : CallId → Option Addr) (c : CallId)
    (x : Option Addr) :
    ahead lost (Function.update own c x) = Function.update (ahead lost own) (c+1) x := by
  funext k
  cases k with
  | zero => exact (Function.update_of_ne (Nat.succ_ne_zero c).symm ..).symm
  | succ d =>
    by_cases hd : d = c
    · subst hd
      rw [Function.update_self]
      exact Function.update_self ..
    · rw [Function.update_of_ne (fun he => hd (Nat.succ.inj he))]
      exact Function.update_of_ne hd ..

theorem ahead_lose (lost x : Option Addr) (own : CallId → Option Addr) :
    Function.update (ahead lost own) 0 x = ahead x own := by
  funext k
  cases k with
  | zero => exact Function.update_self ..
  | succ d => exact Function.update_of_ne (Nat.succ_ne_zero d) ..

/-- The heap side of the invariant does not look at the poison flag. -/
def HeapKept (lost : Option Addr) (w : World) : Prop :=
  Accounted (ahead lost (owned w)) { w.registry with poisoned := false } w.memory

structure Kept (lost : Option Addr) (w : World) : Prop where
  heap : HeapKept lost w
  healthy : w.registry.poisoned = false → lost = none

theorem Accounted.lose {own : CallId → Option Addr} {r : BufferRegistry} {m : Memory} {c d : CallId}
    {p : Addr} (h : Accounted own r m) (hc : own c = some p) (hd : own d = none) :
    Accounted (Function.update (Function.update own c none) d (some p)) r m :=
  { h with holders := h.holders.move hc hd }

section Steps
variable {lost : Option Addr} {w : World} {c : CallId} {call : Call} {answer : Addr}

theorem HeapKept.setCall (w : World) (c : CallId) (call : Call) :
    HeapKept lost (w.setCall c call) ↔
      Accounted (Function.update (ahead lost (owned w)) (c+1) (ownedPtr call))
        { w.registry with poisoned := false } w.memory := by
  rw [HeapKept, owned_setCall, ahead_update]
  rfl

theorem HeapKept.endCall (w : World) (c : CallId) (e : HostEvent) :
    HeapKept lost (w.endCall c e) ↔
      Accounted (Function.update (ahead lost (owned w)) (c+1) none)
        { w.registry with poisoned := false } w.memory := by
  rw [HeapKept, owned_endCall, ahead_update]
  rfl

theorem advance_heap (h : HeapKept lost w) (hc : w.calls.lookup c = some call)
    (hfresh : answer = null ∨ answer ∉ w.memory.live) :
    HeapKept lost (w.advance c answer call) := by
  have ho : ahead lost (owned w) (c+1) = ownedPtr call := holder_of_lookup hc
  cases call with
  | decoding s f =>
    by_cases hp : answer = null
    · simp only [World.advance, if_pos hp, HeapKept.endCall]
      rw [hp, alloc_null]
      exact h.keep ho
    · simp only [World.advance, if_neg hp, HeapKept.setCall]
      exact h.alloc ho hp (hfresh.resolve_left hp) f.bufSize
  | allocated s f p =>
    simp only [World.advance, HeapKept.setCall]
    exact (h.copy ho f.data f.bufSize).keep ho
  | copied s f p =>
    rcases register_cases w.registry p f.bufSize with ⟨-, -, hreg⟩ | ⟨status, hreg, -⟩ <;>
      simp only [World.advance, hreg, HeapKept.setCall]
    · exact h.track ho f.bufSize
    · exact h.keep ho
  | registered s f p =>
    simp only [World.advance, HeapKept.endCall]
    exact h.keep ho
  | rejected s p =>
    simp only [World.advance, HeapKept.endCall]
    exact h.free ho
  | freeing s =>
    simp only [World.advance]
    split_ifs with hnull
    · rw [HeapKept.endCall]
      exact h.keep ho
    · rw [HeapKept.setCall]
      exact h.keep ho
  | cleared s p origin =>
    rcases unregister_cases w.registry p with ⟨entry, -, hl, hreg⟩ | ⟨status, hreg, -⟩
    · simp only [World.advance, hreg, HeapKept.setCall]
      exact h.untrack ho (Finmap.mem_of_lookup_eq_some hl)
    · simp only [World.advance, hreg, HeapKept.endCall]
      exact h.keep ho
  | unregistered s p =>
    simp only [World.advance, HeapKept.endCall]
    exact h.free ho

theorem advance_poisoned (w : World) (c : CallId) (answer : Addr) (call : Call) :
    (w.advance c answer call).registry.poisoned = w.registry.poisoned := by
  cases call with
  | decoding s f =>
    simp only [World.advance]
    split_ifs <;> rfl
  | copied s f p =>
    rcases register_cases w.registry p f.bufSize with ⟨-, -, hreg⟩ | ⟨status, hreg, -⟩ <;>
      simp only [World.advance, hreg] <;> rfl
  | freeing s =>
    simp only [World.advance]
    split_ifs <;> rfl
  | cleared s p origin =>
    rcases unregister_cases w.registry p with ⟨entry, -, -, hreg⟩ | ⟨status, hreg, -⟩ <;>
      simp only [World.advance, hreg] <;> rfl
  | _ => rfl

theorem act_poisoned {a : Action} {w' : World} (hs : Calls.step w a = some w') :
    w'.registry.poisoned = w.registry.poisoned := by
  rcases step_cases hs with ⟨s, b, rfl, rfl⟩ | ⟨source, target, rfl, rfl⟩ |
    ⟨c, slot, env, path, frameIndex, rfl, -, ⟨status, rfl, -⟩ | ⟨s, f, rfl, rfl⟩⟩ |
    ⟨c, rfl, rfl⟩ | ⟨c, s, rfl, -, rfl⟩ | ⟨c, answer, call, rfl, -, rfl⟩
  · rfl
  · rfl
  · rfl
  · rfl
  · rfl
  · rfl
  · exact advance_poisoned w c answer call

theorem Kept.begins (h : Kept lost w) (hc : c ∉ w.calls) (hnone : ownedPtr call = none) :
    Kept lost (w.setCall c call) where
  heap := by
    rw [HeapKept.setCall, hnone]
    apply h.heap.keep
    exact holder_none_of_lookup (Finmap.lookup_eq_none.mpr hc)
  healthy := h.healthy

theorem act_kept {a : Action} {w' : World} (h : Kept lost w) (hok : MallocFresh w a)
    (hs : Calls.step w a = some w') : Kept lost w' := by
  rcases step_cases hs with ⟨s, b, rfl, rfl⟩ | ⟨source, target, rfl, rfl⟩ |
    ⟨c, slot, env, path, frameIndex, rfl, hc, ⟨status, rfl, -⟩ | ⟨s, f, rfl, rfl⟩⟩ |
    ⟨c, rfl, rfl⟩ | ⟨c, s, rfl, hc, rfl⟩ | ⟨c, answer, call, rfl, hc, rfl⟩
  · exact ⟨h.heap, h.healthy⟩
  · exact ⟨h.heap, h.healthy⟩
  · exact ⟨h.heap, h.healthy⟩
  · exact h.begins hc rfl
  · exact ⟨h.heap, h.healthy⟩
  · exact h.begins hc rfl
  · exact ⟨advance_heap h.heap hc hok, fun hp => h.healthy (advance_poisoned w c answer call ▸ hp)⟩

/-- The first panic is the last, so it finds nothing lost before it. -/
theorem unwound_kept {w' : World} (h : Kept lost w) (hp : w.registry.poisoned = false)
    (hc : w.calls.lookup c = some call) (hw : unwound w c call = some w') :
    Kept (ownedPtr call) w' := by
  have ho : ahead lost (owned w) (c+1) = ownedPtr call := holder_of_lookup hc
  have hnone : lost = none := h.healthy hp
  have hheap := h.heap
  subst hnone
  cases call with
  | copied s f p =>
    cases hw
    refine ⟨?_, fun hq => by cases hq⟩
    have hlost := Accounted.lose (d := 0) hheap ho rfl
    rw [Function.update_comm (Nat.succ_ne_zero c), ahead_lose] at hlost
    rw [HeapKept.endCall]
    exact hlost
  | cleared s p origin =>
    cases hw
    refine ⟨?_, fun hq => by cases hq⟩
    rw [HeapKept.endCall]
    exact hheap.keep ho
  | _ => cases hw

end Steps

theorem step_kept (w : World) (m : Move) (w' : World) (h : ∃ lost, Kept lost w)
    (hok : Fresh w m) (hs : step w m = some w') : ∃ lost, Kept lost w' := by
  obtain ⟨lost, hkept⟩ := h
  cases m with
  | act a => exact ⟨lost, act_kept hkept hok hs⟩
  | panicked c =>
    obtain ⟨hp, hw⟩ := Option.ite_none_left_eq_some.mp hs
    obtain ⟨call, hc, hunwound⟩ := Option.bind_eq_some_iff.mp hw
    exact ⟨_, unwound_kept hkept (Bool.not_eq_true _ ▸ hp) hc hunwound⟩

theorem initial_kept (slots : SlotId → IGPixelBuffer) : Kept none (.initial slots) where
  heap := { initial_disciplined slots with
    holders := tracks_empty.congr (fun k => by cases k <;> rfl)
      (fun p => iff_of_false (fun hp => Finmap.notMem_empty hp.1) (Set.notMem_empty p)) }
  healthy _ := rfl

theorem reached_kept {slots : SlotId → IGPixelBuffer} {w : World}
    (h : Reached step Fresh (.initial slots) w) : ∃ lost, Kept lost w :=
  @reached_invariant _ _ step _ (fun w => ∃ lost, Kept lost w) _ _
    ⟨none, initial_kept slots⟩ step_kept h

/-- While no panic has struck, the steps are those of the calls and the host. -/
theorem healthy_reached {slots : SlotId → IGPixelBuffer} {w : World}
    (h : Reached step Fresh (.initial slots) w) (hp : w.registry.poisoned = false) :
    Reached Calls.step MallocFresh (.initial slots) w := by
  have hinv := @reached_invariant _ _ step Fresh
    (fun w => w.registry.poisoned = false → Reached Calls.step MallocFresh (.initial slots) w)
    _ _ (fun _ => .start _) ?_ h
  · exact hinv hp
  · intro w m w' ih hok hs hhealthy
    cases m with
    | act a =>
      refine (ih ?_).next hok hs
      rw [← act_poisoned hs]
      exact hhealthy
    | panicked c =>
      obtain ⟨-, hw⟩ := Option.ite_none_left_eq_some.mp hs
      obtain ⟨call, -, hunwound⟩ := Option.bind_eq_some_iff.mp hw
      cases call <;> cases hunwound <;> cases hhealthy

theorem quiet_lost {lost : Option Addr} {w : World} (h : Kept lost w) (hquiet : w.calls = ∅)
    (p : Addr) : p ∈ w.memory.live ↔ p ∈ w.registry.entries ∨ lost = some p := by
  have hcovers := h.heap.holders.covers p
  constructor
  · intro hlive
    by_contra hneither
    obtain ⟨hkey, hlost⟩ := not_or.mp hneither
    obtain ⟨k, hk⟩ := hcovers.mp ⟨hlive, hkey⟩
    cases k with
    | zero => exact hlost hk
    | succ c =>
      rw [ahead, owned, hquiet, holder_none_of_lookup (Finmap.lookup_empty c)] at hk
      cases hk
  · rintro (hkey | rfl)
    · exact h.heap.keys_live p hkey
    · exact (hcovers.mpr ⟨0, rfl⟩).1

/-- Safety does not hang on the lock staying healthy. In every state that any
interleaving with a panic can reach: registered addresses are live and not
null, every release gives back a live allocation, and a live block is
registered or in the hands of one call, save at most one, and none while no
panic has struck. -/
theorem poisoned_safe (slots : SlotId → IGPixelBuffer) (w : World)
    (h : Reached step Fresh (.initial slots) w) :
    (∀ p, p ∈ w.registry.entries → p ≠ null ∧ p ∈ w.memory.live) ∧
    (∀ after p before, w.memory.trace = after++.free p::before → p ∈ AllocTrace.live before) ∧
    ∃ lost : Option Addr, (w.registry.poisoned = false → lost = none) ∧
      ∀ p, p ∈ w.memory.live → p ∉ w.registry.entries → lost ≠ some p →
        ∃! c, owned w c = some p := by
  obtain ⟨lost, hheap, hhealthy⟩ := reached_kept h
  refine ⟨?_, ?_, lost, hhealthy, ?_⟩
  · intro p hp
    have hlive := hheap.keys_live p hp
    exact ⟨fun hnull => hheap.nonnull (hnull ▸ hlive), hlive⟩
  · intro after p before ht
    have htrace := hheap.trace
    rw [ht] at htrace
    exact (AllocTrace.disciplined_suffix after _ htrace).1
  · intro p hlive hkey hp
    obtain ⟨k, hk⟩ := (hheap.holders.covers p).mp ⟨hlive, hkey⟩
    cases k with
    | zero => exact absurd hk hp
    | succ c =>
      refine ⟨c, hk, fun d hd => ?_⟩
      exact Nat.succ.inj (hheap.holders.exclusive (d+1) (c+1) p hd hk)

def panicking : List Move :=
  (decodeAt 0 0 8++(decodeAt 1 1 16).take 3).map .act++[.panicked 1]

theorem poisoned_safe_lost :
    ∃ w, run step panicking (.initial fun _ => emptyBuffer) = some w ∧ (16:Addr) ∈ w.memory.live ∧
      ∃ lost : Option Addr, ∀ p, p ∈ w.memory.live → p ∉ w.registry.entries → lost ≠ some p →
        ∃! c, owned w c = some p := by
  obtain ⟨w, hw⟩ : ∃ w, run step panicking (.initial fun _ => emptyBuffer) = some w :=
    Option.isSome_iff_exists.mp (by decide)
  have hlive : (run step panicking (.initial fun _ => emptyBuffer)).map
      (fun w => decide ((16:Addr) ∈ w.memory.live)) = some true := by decide
  rw [hw] at hlive
  obtain ⟨-, -, lost, -, hlost⟩ := poisoned_safe _ w ⟨panicking, hw, by decide⟩
  exact ⟨w, hw, of_decide_eq_true (Option.some.inj hlive), lost, hlost⟩

def turnedDown : Call → Option Addr
  | .rejected _ p => some p
  | _ => none

structure Guarded (w : World) : Prop where
  kept : ∃ lost, Kept lost w
  refused : ∀ c p, holder turnedDown w.calls c = some p → w.registry.poisoned = true

theorem step_guarded (w : World) (m : Move) (w' : World) (h : Guarded w) (hok : Fresh w m)
    (hs : step w m = some w') : Guarded w' := by
  refine ⟨step_kept w m w' h.kept hok hs, fun d p hd => ?_⟩
  cases m with
  | panicked c =>
    obtain ⟨-, hw⟩ := Option.ite_none_left_eq_some.mp hs
    obtain ⟨call, -, hunwound⟩ := Option.bind_eq_some_iff.mp hw
    cases call <;> cases hunwound <;> rfl
  | act a =>
    have hnew : ∀ {c call}, turnedDown call = none →
        holder turnedDown (w.setCall c call).calls d = some p → w.registry.poisoned = true := by
      intro c call hnone hins
      rcases holder_insert_some hins with ⟨-, hself⟩ | ⟨-, hold⟩
      · cases hnone.symm.trans hself
      · exact h.refused d p hold
    rcases step_cases hs with ⟨s, b, rfl, rfl⟩ | ⟨source, target, rfl, rfl⟩ |
      ⟨c, slot, env, path, frameIndex, rfl, -, ⟨status, rfl, -⟩ | ⟨s, f, rfl, rfl⟩⟩ |
      ⟨c, rfl, rfl⟩ | ⟨c, s, rfl, -, rfl⟩ | ⟨c, answer, call, rfl, hc, rfl⟩
    · exact h.refused d p hd
    · exact h.refused d p hd
    · exact h.refused d p hd
    · exact hnew rfl hd
    · exact h.refused d p hd
    · exact hnew rfl hd
    · rw [advance_poisoned]
      rcases advance_holder hd with ⟨rfl, next, hnext, hself⟩ | hold
      · obtain ⟨lost, hkept⟩ := h.kept
        cases hnext with
        | rejects hwhy =>
          -- a block in hand is private, so only the poison flag can be the reason
          have hown : ahead lost (owned w) (d+1) = some _ := holder_of_lookup hc
          exact hwhy.resolve_right (hkept.heap.owned_live hown).2
        | _ => cases hself
      · exact h.refused d p hold

/-- The guard against a double registration never fires. Whatever the host and
malloc do, a decode call finds its registration refused, and releases its block
itself, only behind a poisoned lock. -/
theorem rollback_poisoned (slots : SlotId → IGPixelBuffer) (w : World)
    (h : Reached step Fresh (.initial slots) w) (c : CallId) (s : SlotId) (p : Addr)
    (hc : w.calls.lookup c = some (.rejected s p)) : w.registry.poisoned = true := by
  have hinit : Guarded (.initial slots) :=
    ⟨⟨none, initial_kept slots⟩, fun c p hp => by cases hp⟩
  exact (reached_invariant hinit step_guarded h).refused c p (holder_of_lookup hc)

def panicBefore : List Move :=
  ((decodeAt 0 0 8).take 3++(decodeAt 1 1 16).take 3).map .act++
    [.panicked 0, .act (.advance 1 null)]

theorem rollback_poisoned_second :
    ∃ w, run step panicBefore (.initial fun _ => emptyBuffer) = some w ∧
      w.registry.poisoned = true := by
  obtain ⟨w, hw⟩ : ∃ w, run step panicBefore (.initial fun _ => emptyBuffer) = some w :=
    Option.isSome_iff_exists.mp (by decide)
  have hdown : (run step panicBefore (.initial fun _ => emptyBuffer)).bind
      (fun w => (w.calls.lookup 1).bind turnedDown) = some 16 := by decide
  rw [hw, Option.bind_some] at hdown
  obtain ⟨call, hcall, hp⟩ := Option.bind_eq_some_iff.mp hdown
  cases call <;> cases hp
  exact ⟨w, hw, rollback_poisoned _ w ⟨panicBefore, hw, by decide⟩ 1 _ 16 hcall⟩

structure Sealed (v w : World) : Prop where
  kept : ∃ lost, Kept lost w
  registry : w.registry = v.registry
  contents : ∀ p, p ∈ v.registry.entries → contentAt w.memory p = contentAt v.memory p
  waits : ∀ c x, holder waiting w.calls c = some x → holder waiting v.calls c = some x
  shown : ∃ new, w.history = new++v.history ∧ ∀ s k p, .published s k p ∈ new →
    ∃ c, holder waiting v.calls c = some (s,p)

section Sealed
variable {v w : World} {c : CallId} {call : Call} {answer : Addr}

theorem advance_registry (hp : w.registry.poisoned = true) (c : CallId) (answer : Addr)
    (call : Call) : (w.advance c answer call).registry = w.registry := by
  cases call with
  | decoding s f =>
    simp only [World.advance]
    split_ifs <;> rfl
  | copied s f p => simp only [World.advance, register, hp]; rfl
  | freeing s =>
    simp only [World.advance]
    split_ifs <;> rfl
  | cleared s p origin => simp only [World.advance, unregister, hp]; rfl
  | _ => rfl

theorem advance_waits (hp : w.registry.poisoned = true) {d : CallId} {x : SlotId × Addr}
    (hx : holder waiting (w.advance c answer call).calls d = some x) :
    holder waiting w.calls d = some x := by
  rcases advance_holder hx with ⟨rfl, next, hnext, hself⟩ | hold
  · cases hnext with
    | registers hhealthy => exact absurd (hhealthy.symm.trans hp) (by decide)
    | _ => cases hself
  · exact hold

theorem advance_sealed (h : Sealed v w) (hp : v.registry.poisoned = true)
    (hc : w.calls.lookup c = some call) (hfresh : answer = null ∨ answer ∉ w.memory.live) :
    Sealed v (w.advance c answer call) := by
  have hpw : w.registry.poisoned = true := h.registry ▸ hp
  obtain ⟨lost, hkept⟩ := h.kept
  have hown : ahead lost (owned w) (c+1) = ownedPtr call := holder_of_lookup hc
  constructor
  · exact ⟨lost, advance_heap hkept.heap hc hfresh, fun hq =>
      hkept.healthy (advance_poisoned w c answer call ▸ hq)⟩
  · exact (advance_registry hpw c answer call).trans h.registry
  · intro q hq
    have hkey : q ∈ w.registry.entries := h.registry ▸ hq
    refine (advance_content (hkept.heap.keys_live q hkey) hfresh ?_).trans (h.contents q hq)
    rintro p hown' rfl
    exact (hkept.heap.owned_live (hown.trans hown')).2 hkey
  · exact fun d x hx => h.waits d x (advance_waits hpw hx)
  · obtain ⟨new, heq, hnew⟩ := h.shown
    obtain ⟨more, hmore, hpub⟩ := advance_history w c answer call
    refine ⟨more++new, by rw [hmore, heq, List.append_assoc], fun s k p hmem => ?_⟩
    rcases List.mem_append.mp hmem with hmem | hmem
    · exact ⟨c, h.waits c _ ((holder_of_lookup hc).trans (hpub s k p hmem))⟩
    · exact hnew s k p hmem

theorem Sealed.begins (h : Sealed v w) (hc : c ∉ w.calls) (hnone : ownedPtr call = none)
    (hwait : waiting call = none) : Sealed v (w.setCall c call) where
  kept := by
    obtain ⟨lost, hkept⟩ := h.kept
    exact ⟨lost, hkept.begins hc hnone⟩
  registry := h.registry
  contents := h.contents
  waits d x hx := by
    rcases holder_insert_some hx with ⟨-, hself⟩ | ⟨-, hold⟩
    · cases hwait.symm.trans hself
    · exact h.waits d x hold
  shown := h.shown

theorem Sealed.records (h : Sealed v w) {e : HostEvent} (he : ∀ s k p, e ≠ .published s k p) :
    Sealed v (w.record e) where
  kept := by
    obtain ⟨lost, hkept⟩ := h.kept
    exact ⟨lost, hkept.heap, hkept.healthy⟩
  registry := h.registry
  contents := h.contents
  waits := h.waits
  shown := by
    obtain ⟨new, heq, hnew⟩ := h.shown
    refine ⟨e::new, congrArg (e::·) heq, fun s k p hmem => ?_⟩
    rcases List.mem_cons.mp hmem with hmem | hmem
    · exact absurd hmem.symm (he s k p)
    · exact hnew s k p hmem

theorem step_sealed (hp : v.registry.poisoned = true) (w : World) (m : Move) (w' : World)
    (h : Sealed v w) (hok : Fresh w m) (hs : step w m = some w') : Sealed v w' := by
  have hpw : w.registry.poisoned = true := h.registry ▸ hp
  cases m with
  | panicked c =>
    rw [step, if_pos hpw] at hs
    cases hs
  | act a =>
    rcases step_cases hs with ⟨s, b, rfl, rfl⟩ | ⟨source, target, rfl, rfl⟩ |
      ⟨c, slot, env, path, frameIndex, rfl, hc, ⟨status, rfl, -⟩ | ⟨s, f, rfl, rfl⟩⟩ |
      ⟨c, rfl, rfl⟩ | ⟨c, s, rfl, hc, rfl⟩ | ⟨c, answer, call, rfl, hc, rfl⟩
    · obtain ⟨lost, hkept⟩ := h.kept
      exact ⟨⟨lost, hkept.heap, hkept.healthy⟩, h.registry, h.contents, h.waits, h.shown⟩
    · obtain ⟨lost, hkept⟩ := h.kept
      exact ⟨⟨lost, hkept.heap, hkept.healthy⟩, h.registry, h.contents, h.waits, h.shown⟩
    · exact h.records (by simp)
    · exact h.begins hc rfl rfl
    · exact h.records (by simp)
    · exact h.begins hc rfl rfl
    · exact advance_sealed h hp hc hok

end Sealed

/-- The registry is sealed by a panic. In every continuation its entries stay
and their blocks stay live with the bytes they have, for any free call of the
host; and a decode call publishes a block only if the panic found it with the
block registered. -/
theorem poisoned_sealed (slots : SlotId → IGPixelBuffer) (v : World)
    (h : Reached step Fresh (.initial slots) v) (hp : v.registry.poisoned = true)
    (ms : List Move) (w : World) (hrun : run step ms v = some w) (hok : Admits step Fresh ms v) :
    w.registry = v.registry ∧
    (∀ p, p ∈ v.registry.entries → p ∈ w.memory.live ∧
      contentAt w.memory p = contentAt v.memory p) ∧
    ∃ new, w.history = new++v.history ∧ ∀ s k p, .published s k p ∈ new →
      ∃ c f, v.calls.lookup c = some (.registered s f p) := by
  have hinit : Sealed v v :=
    ⟨reached_kept h, rfl, fun _ _ => rfl, fun _ _ hx => hx, [], rfl, fun _ _ _ hm => by cases hm⟩
  have hs := run_invariant (step_sealed hp) ms v w hinit hok hrun
  refine ⟨hs.registry, fun p hkey => ⟨?_, hs.contents p hkey⟩, ?_⟩
  · obtain ⟨lost, hkept⟩ := hs.kept
    exact hkept.heap.keys_live p (hs.registry ▸ hkey)
  · obtain ⟨new, heq, hnew⟩ := hs.shown
    refine ⟨new, heq, fun s k p hmem => ?_⟩
    obtain ⟨c, hc⟩ := hnew s k p hmem
    obtain ⟨call, hcall, hx⟩ := holder_some hc
    cases call <;> cases hx
    exact ⟨c, _, hcall⟩

theorem poisoned_sealed_freed :
    ∃ v w, run step panicking (.initial fun _ => emptyBuffer) = some v ∧
      run step [.act (.beginFree 2 (some 0)), .act (.advance 2 null), .act (.advance 2 null)] v =
        some w ∧ (w.slots 0).data = null ∧ (8:Addr) ∈ w.memory.live ∧
      contentAt w.memory 8 = contentAt v.memory 8 := by
  obtain ⟨v, hv⟩ : ∃ v, run step panicking (.initial fun _ => emptyBuffer) = some v :=
    Option.isSome_iff_exists.mp (by decide)
  let returning : List Move :=
    [.act (.beginFree 2 (some 0)), .act (.advance 2 null), .act (.advance 2 null)]
  have hpois : ((run step panicking (.initial fun _ => emptyBuffer)).map fun v =>
      decide (v.registry.poisoned = true ∧ 8 ∈ v.registry.entries ∧
        Admits step Fresh returning v)) = some true := by decide
  have hfreed : (run step panicking (.initial fun _ => emptyBuffer)).bind
      (fun v => (run step returning v).map fun w => (w.slots 0).data) = some null := by decide
  rw [hv] at hpois hfreed
  obtain ⟨hp, hkey, hok⟩ := of_decide_eq_true (Option.some.inj hpois)
  obtain ⟨w, hw, hdata⟩ := Option.map_eq_some_iff.mp hfreed
  obtain ⟨-, hblocks, -⟩ := poisoned_sealed _ v ⟨panicking, hv, by decide⟩ hp returning w hw hok
  exact ⟨v, w, hv, hw, hdata, hblocks 8 hkey⟩

end IthmbPlugin.Poisoned
