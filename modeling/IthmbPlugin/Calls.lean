import IthmbPlugin.Decode
import IthmbPlugin.Library.Runs

/-!
# Concurrent decode and free calls

The host owns numbered structs and runs any number of calls at once. A call is
the point it has reached in its code; one action takes one call over one
atomic step: an allocation, a copy into the private block, a critical section
of the registry mutex, a pass over the host's struct, a release. Between its
own steps a call sees whatever the others have done.

Two components are not in the plugin and decide nothing in it. `origins` says
for each struct which allocation its data pointer was handed out for, and
`history` lists what the host has seen of its calls, newest first.
-/

set_option autoImplicit false

namespace IthmbPlugin.Calls
open IthmbPlugin.Types IthmbPlugin.Registry IthmbPlugin.Allocator IthmbPlugin.Decode

abbrev SlotId := ℕ
abbrev CallId := ℕ

/-- A call in progress, named by the last step it has taken. -/
inductive Call where
  | decoding (slot : SlotId) (f : Frame)
  | allocated (slot : SlotId) (f : Frame) (dataPtr : Addr)
  | copied (slot : SlotId) (f : Frame) (dataPtr : Addr)
  | registered (slot : SlotId) (f : Frame) (dataPtr : Addr)
  | rejected (slot : SlotId) (dataPtr : Addr)
  | freeing (slot : SlotId)
  | cleared (slot : SlotId) (dataPtr : Addr) (origin : Option ℕ)
  | unregistered (slot : SlotId) (dataPtr : Addr)

def Call.slot : Call → SlotId
  | .decoding s _ => s
  | .allocated s _ _ => s
  | .copied s _ _ => s
  | .registered s _ _ => s
  | .rejected s _ => s
  | .freeing s => s
  | .cleared s _ _ => s
  | .unregistered s _ => s

/-- `published` and `refused` are the returns of a decode call, `freed` is the
return of a free call and `surrendered` the moment it took the handle. -/
inductive HostEvent where
  | published (slot : SlotId) (serial : Option ℕ) (dataPtr : Addr)
  | refused (slot : Option SlotId) (status : IGStatus)
  | surrendered (slot : SlotId) (origin : Option ℕ)
  | freed (slot : Option SlotId)
  deriving DecidableEq

structure World where
  slots : SlotId → IGPixelBuffer
  origins : SlotId → Option ℕ
  registry : BufferRegistry
  memory : Memory
  calls : Finmap (fun _ : CallId => Call)
  history : List HostEvent

/-- The plugin as its initialisation leaves it, with the host's structs in any
state. -/
def World.initial (slots : SlotId → IGPixelBuffer) : World where
  slots := slots
  origins := fun _ => none
  registry := .new
  memory := .empty
  calls := ∅
  history := []

namespace World

def record (w : World) (e : HostEvent) : World := { w with history := e::w.history }

def setCall (w : World) (c : CallId) (call : Call) : World :=
  { w with calls := w.calls.insert c call }

def endCall (w : World) (c : CallId) (e : HostEvent) : World :=
  { w with calls := w.calls.erase c, history := e::w.history }

def writeSlot (w : World) (s : SlotId) (b : IGPixelBuffer) (origin : Option ℕ) : World :=
  { w with slots := Function.update w.slots s b, origins := Function.update w.origins s origin }

def taken (w : World) (s : SlotId) : World :=
  (w.writeSlot s (clearedBuffer (w.slots s)) none).record (.surrendered s (w.origins s))

def startDecode (w : World) (c : CallId) (slot : Option SlotId)
    (decoded : Except IGStatus DecodedImage) : World :=
  match decoded, slot with
  | .error status, _ => w.record (.refused slot status)
  | .ok _, none => w
  | .ok img, some s =>
    match frameOf img with
    | none => w.record (.refused slot .outOfMemory)
    | some f => w.setCall c (.decoding s f)

/-- The next step of a call. Malloc's answer matters to a call that is about to
allocate and to no other. -/
def advance (w : World) (c : CallId) (answer : Addr) : Call → World
  | .decoding s f =>
    let w := { w with memory := pixelBufferAlloc answer f.bufSize w.memory }
    if answer = null then w.endCall c (.refused (some s) .outOfMemory)
    else w.setCall c (.allocated s f answer)
  | .allocated s f p =>
    let w := { w with memory := copyNonoverlapping f.data p f.bufSize w.memory }
    w.setCall c (.copied s f p)
  | .copied s f p =>
    match register w.registry p f.bufSize with
    | (.error _,r) => { w with registry := r }.setCall c (.rejected s p)
    | (.ok (),r) => { w with registry := r }.setCall c (.registered s f p)
  | .registered s f p =>
    (w.writeSlot s (f.publish p) (w.memory.serialAt p)).endCall c
      (.published s (w.memory.serialAt p) p)
  | .rejected s p =>
    { w with memory := pixelBufferFree p w.memory }.endCall c (.refused (some s) .internal)
  | .freeing s =>
    let dataPtr := (w.slots s).data
    if dataPtr = null then (w.taken s).endCall c (.freed (some s))
    else (w.taken s).setCall c (.cleared s dataPtr (w.origins s))
  | .cleared s p _ =>
    match unregister w.registry p with
    | (.error _,r) => { w with registry := r }.endCall c (.freed (some s))
    | (.ok _,r) => { w with registry := r }.setCall c (.unregistered s p)
  | .unregistered s p =>
    { w with memory := pixelBufferFree p w.memory }.endCall c (.freed (some s))

end World

/-- `hostWrite` and `hostCopy` are what the host may do to a struct by itself. -/
inductive Action where
  | hostWrite (slot : SlotId) (b : IGPixelBuffer)
  | hostCopy (source target : SlotId)
  | beginDecode (c : CallId) (slot : Option SlotId) (env : DecodeEnv) (path : IGStringRef)
      (frameIndex : Int32)
  | beginFree (c : CallId) (slot : Option SlotId)
  | advance (c : CallId) (answer : Addr)

def step (w : World) : Action → Option World
  | .hostWrite s b => some (w.writeSlot s b none)
  | .hostCopy source target => some (w.writeSlot target (w.slots source) (w.origins source))
  | .beginDecode c slot env path frameIndex =>
    if c ∈ w.calls then none
    else some (w.startDecode c slot (decodeImage env path frameIndex slot.isNone).1)
  | .beginFree c slot =>
    if c ∈ w.calls then none
    else match slot with
      | none => some (w.record (.freed none))
      | some s => some (w.setCall c (.freeing s))
  | .advance c answer => (w.calls.lookup c).map (w.advance c answer)

theorem startDecode_cases (w : World) (c : CallId) (slot : Option SlotId) (env : DecodeEnv)
    (path : IGStringRef) (frameIndex : Int32) :
    let w' := w.startDecode c slot (decodeImage env path frameIndex slot.isNone).1
    (∃ status, w' = w.record (.refused slot status) ∧ status ≠ .ok) ∨
    (∃ s f, slot = some s ∧ w' = w.setCall c (.decoding s f)) := by
  intro w'
  have hw : w' = w.startDecode c slot (decodeImage env path frameIndex slot.isNone).1 := rfl
  cases hd : decodeImage env path frameIndex slot.isNone with
  | mk outcome logs =>
    rw [hd] at hw
    cases outcome with
    | error status => exact Or.inl ⟨status, hw, decodeImage_not_ok hd⟩
    | ok img =>
      cases slot with
      | none => cases decodeImage_ok_buffer hd
      | some s =>
        cases hf : frameOf img with
        | none =>
          simp only [World.startDecode, hf] at hw
          exact Or.inl ⟨.outOfMemory, hw, by decide⟩
        | some f =>
          simp only [World.startDecode, hf] at hw
          exact Or.inr ⟨s, f, rfl, hw⟩

/-- Everything one action can do to the world. -/
theorem step_cases {w w' : World} {a : Action} (h : step w a = some w') :
    (∃ s b, a = .hostWrite s b ∧ w' = w.writeSlot s b none) ∨
    (∃ source target, a = .hostCopy source target ∧
      w' = w.writeSlot target (w.slots source) (w.origins source)) ∨
    (∃ c slot env path frameIndex, a = .beginDecode c slot env path frameIndex ∧
      c ∉ w.calls ∧ ((∃ status, w' = w.record (.refused slot status) ∧ status ≠ .ok) ∨
        ∃ s f, slot = some s ∧ w' = w.setCall c (.decoding s f))) ∨
    (∃ c, a = .beginFree c none ∧ w' = w.record (.freed none)) ∨
    (∃ c s, a = .beginFree c (some s) ∧ c ∉ w.calls ∧ w' = w.setCall c (.freeing s)) ∨
    (∃ c answer call, a = .advance c answer ∧ w.calls.lookup c = some call ∧
      w' = w.advance c answer call) := by
  cases a with
  | hostWrite s b => exact Or.inl ⟨s, b, rfl, (Option.some.inj h).symm⟩
  | hostCopy source target =>
    exact Or.inr (Or.inl ⟨source, target, rfl, (Option.some.inj h).symm⟩)
  | beginDecode c slot env path frameIndex =>
    by_cases hc : c ∈ w.calls
    · simp [step, hc] at h
    · simp only [step, if_neg hc, Option.some.injEq] at h
      have hcases := startDecode_cases w c slot env path frameIndex
      rw [h] at hcases
      exact Or.inr (Or.inr (Or.inl ⟨c, slot, env, path, frameIndex, rfl, hc, hcases⟩))
  | beginFree c slot =>
    by_cases hc : c ∈ w.calls
    · simp [step, hc] at h
    · simp only [step, if_neg hc] at h
      cases slot with
      | none => exact Or.inr (Or.inr (Or.inr (Or.inl ⟨c, rfl, (Option.some.inj h).symm⟩)))
      | some s =>
        exact Or.inr (Or.inr (Or.inr (Or.inr (Or.inl
          ⟨c, s, rfl, hc, (Option.some.inj h).symm⟩))))
  | advance c answer =>
    obtain ⟨call, hcall, rfl⟩ := Option.map_eq_some_iff.mp h
    exact Or.inr (Or.inr (Or.inr (Or.inr (Or.inr ⟨c, answer, call, rfl, hcall, rfl⟩))))

end IthmbPlugin.Calls
