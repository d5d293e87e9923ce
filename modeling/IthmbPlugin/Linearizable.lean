import IthmbPlugin.FreeOrder
import IthmbPlugin.Pixels
import IthmbPlugin.Tracking
import IthmbPlugin.Library.AtomicObject

/-!
# Overlapping calls as whole calls

A decode call takes effect when it registers its block and a free call when it
removes the block from the registry; a call that fails takes effect where it
fails. Told in that order, the overlapping calls of any run are whole calls of
the two entry points, each made at one instant between its beginning and its
return, with the same statuses, the same structs, the same registry and the
same pixels. The host has to keep a struct to one call at a time.
-/

set_option autoImplicit false

namespace IthmbPlugin.Linearizable
open IthmbPlugin.Types IthmbPlugin.Registry IthmbPlugin.Allocator IthmbPlugin.Decode
open IthmbPlugin.Ownership IthmbPlugin.Runs IthmbPlugin.Calls IthmbPlugin.Discipline
open IthmbPlugin.AtomicObject IthmbPlugin.Pixels IthmbPlugin.DecodeContract
open IthmbPlugin.Tracking (Idle)
open IthmbPlugin.FreeOrder (State Sound)

inductive Op where
  | decode (slot : Option SlotId) (env : DecodeEnv) (path : IGStringRef) (frameIndex : Int32)
  | free (slot : Option SlotId)

inductive HostMove where
  | write (slot : SlotId) (b : IGPixelBuffer)
  | copy (source target : SlotId)

abbrev Value := State SlotId

abbrev Answer := Option IGStatus

def decode (st : Value) (slot : Option SlotId) (env : DecodeEnv) (path : IGStringRef)
    (frameIndex : Int32) (answer : Addr) : IGStatus × Value :=
  let result := codecDecodeStaticRaster env (fun _ => answer) path frameIndex
    (slot.map st.slots) (some st.registry) st.memory
  (result.status,
    { slots := match slot, result.buffer with
        | some s, some b => Function.update st.slots s b
        | _, _ => st.slots
      registry := result.registry.getD st.registry
      memory := result.memory })

def free (st : Value) : Option SlotId → Value
  | none => st
  | some s => st.free s

def hostMove (st : Value) : HostMove → Value
  | .write s b => { st with slots := Function.update st.slots s b }
  | .copy source target => { st with slots := Function.update st.slots target (st.slots source) }

inductive Effect (st : Value) : Op → Value → Answer → Prop
  | decode (slot : Option SlotId) (env : DecodeEnv) (path : IGStringRef) (frameIndex : Int32)
      (answer : Addr) (hfresh : answer = null ∨ answer ∉ st.memory.live) :
      Effect st (.decode slot env path frameIndex)
        (Linearizable.decode st slot env path frameIndex answer).2
        (some (Linearizable.decode st slot env path frameIndex answer).1)
  | free (slot : Option SlotId) : Effect st (.free slot) (Linearizable.free st slot) none

def spec : Spec Value Op Answer HostMove where
  effect := Effect
  environment st m st' := st' = hostMove st m

def returned : HostEvent → Answer
  | .published _ _ _ => some .ok
  | .refused _ status => some status
  | .surrendered _ _ => none
  | .freed _ => none

def returns (c : CallId) (w : World) : List (Event CallId Op Answer HostMove) :=
  if c ∈ w.calls then [] else [.respond c (w.history.head?.bind returned)]

def observe (_ : World) (a : Action) (w' : World) : List (Event CallId Op Answer HostMove) :=
  match a with
  | .hostWrite s b => [.environment (.write s b)]
  | .hostCopy source target => [.environment (.copy source target)]
  | .beginDecode c slot env path frameIndex =>
    .invoke c (.decode slot env path frameIndex)::returns c w'
  | .beginFree c slot => .invoke c (.free slot)::returns c w'
  | .advance c _ => returns c w'

/-- No call is made on a struct that another call is using, and the host keeps
its hands off it. -/
def Exclusive (w : World) : Action → Prop
  | .hostWrite s _ => Idle w s
  | .hostCopy source target => Idle w source ∧ Idle w target
  | .beginDecode _ slot _ _ _ => ∀ s ∈ slot, Idle w s
  | .beginFree _ slot => ∀ s ∈ slot, Idle w s
  | .advance _ _ => True

instance (w : World) : (a : Action) → Decidable (Exclusive w a)
  | .hostWrite s _ => inferInstanceAs (Decidable (Idle w s))
  | .hostCopy source target => inferInstanceAs (Decidable (Idle w source ∧ Idle w target))
  | .beginDecode _ slot _ _ _ => inferInstanceAs (Decidable (∀ s ∈ slot, Idle w s))
  | .beginFree _ slot => inferInstanceAs (Decidable (∀ s ∈ slot, Idle w s))
  | .advance .. => isTrue trivial

def Decodes (env : DecodeEnv) (path : IGStringRef) (frameIndex : Int32) (f : Frame) : Prop :=
  ∃ img logs, decodeImage env path frameIndex false = (.ok img,logs) ∧ frameOf img = some f

def Awaits (o : Object Value CallId Op Answer) (c : CallId) (s : SlotId) (f : Frame) : Prop :=
  ∃ env path frameIndex, o.phases c = some (.pending (.decode (some s) env path frameIndex)) ∧
    Decodes env path frameIndex f

/-- The phase of a call at each of its points, and its struct there. -/
def Point (slots : SlotId → IGPixelBuffer) (o : Object Value CallId Op Answer) (c : CallId) :
    Call → Prop
  | .decoding s f => Awaits o c s f ∧ o.value.slots s = slots s
  | .allocated s f _ => Awaits o c s f ∧ o.value.slots s = slots s
  | .copied s f _ => Awaits o c s f ∧ o.value.slots s = slots s
  | .registered s f p => o.phases c = some (.done (some .ok)) ∧ o.value.slots s = f.publish p
  | .rejected _ _ => False
  | .freeing s => o.phases c = some (.pending (.free (some s))) ∧ o.value.slots s = slots s
  | .cleared s p _ => o.phases c = some (.pending (.free (some s))) ∧
    (o.value.slots s).data = p ∧ slots s = clearedBuffer (o.value.slots s)
  | .unregistered s _ => o.phases c = some (.done none) ∧ o.value.slots s = slots s

structure SameBlocks (w : World) (value : Value) : Prop where
  registry : value.registry = w.registry
  live : ∀ p, p ∈ value.memory.live ↔ p ∈ w.registry.entries
  contents : ∀ p, p ∈ w.registry.entries → contentAt value.memory p = contentAt w.memory p

structure Match (w : World) (o : Object Value CallId Op Answer) : Prop where
  disciplined : Disciplined w
  filled : Filled w
  blocks : SameBlocks w o.value
  idle : ∀ s, Idle w s → o.value.slots s = w.slots s
  quiet : ∀ c, c ∉ w.calls → o.phases c = none
  point : ∀ c call, w.calls.lookup c = some call → Point w.slots o c call
  apart : ∀ c d call call', w.calls.lookup c = some call → w.calls.lookup d = some call' →
    call.slot = call'.slot → c = d

section Whole
variable {env : DecodeEnv} {path : IGStringRef} {frameIndex : Int32} {f : Frame} {s : SlotId}

theorem slots_kept (st : Value) (slot : Option SlotId) :
    (match slot, slot.map st.slots with
      | some s, some b => Function.update st.slots s b
      | _, _ => st.slots) = st.slots := by
  cases slot with
  | none => rfl
  | some s => exact Function.update_eq_self ..

theorem decode_refused {slot : Option SlotId} {status : IGStatus} {logs : List Strings.LogRecord}
    (h : decodeImage env path frameIndex slot.isNone = (.error status,logs)) (st : Value) :
    decode st slot env path frameIndex null = (status,st) := by
  have hmap : (slot.map st.slots).isNone = slot.isNone := Option.isNone_map
  rw [← hmap] at h
  simp only [decode, Decode.decode_refused h, slots_kept, Option.getD_some]

theorem decode_oversized {img : DecodedImage} {logs : List Strings.LogRecord}
    (h : decodeImage env path frameIndex false = (.ok img,logs)) (hf : frameOf img = none)
    (st : Value) : decode st (some s) env path frameIndex null = (.outOfMemory,st) := by
  simp [decode, codecDecodeStaticRaster, h, hf]

theorem decode_unserved (h : Decodes env path frameIndex f) (st : Value) :
    decode st (some s) env path frameIndex null = (.outOfMemory,st) := by
  obtain ⟨img, logs, himg, hf⟩ := h
  simp [decode, codecDecodeStaticRaster, himg, hf, alloc_null]

theorem decode_published (h : Decodes env path frameIndex f) {st : Value} {p : Addr}
    (hp : p ≠ null) (hpois : st.registry.poisoned = false) (hkey : p ∉ st.registry.entries) :
    decode st (some s) env path frameIndex p = (.ok,
      { slots := Function.update st.slots s (f.publish p)
        registry := st.registry.track p f.bufSize
        memory := copyNonoverlapping f.data p f.bufSize
          (pixelBufferAlloc p f.bufSize st.memory) }) := by
  obtain ⟨img, logs, himg, hf⟩ := h
  have hreg := register_untracked hpois (Finmap.lookup_eq_none.mpr hkey) f.bufSize
  simp [decode, codecDecodeStaticRaster, himg, hf, hp, hreg]

theorem startDecode_outcome (w : World) (c : CallId) (slot : Option SlotId) (env : DecodeEnv)
    (path : IGStringRef) (frameIndex : Int32) :
    let w' := w.startDecode c slot (decodeImage env path frameIndex slot.isNone).1
    (∃ status, w' = w.record (.refused slot status) ∧
      ∀ st, decode st slot env path frameIndex null = (status,st)) ∨
    (∃ s f, slot = some s ∧ Decodes env path frameIndex f ∧ w' = w.setCall c (.decoding s f)) := by
  intro w'
  have hw : w' = w.startDecode c slot (decodeImage env path frameIndex slot.isNone).1 := rfl
  rcases hd : decodeImage env path frameIndex slot.isNone with ⟨status | img, logs⟩ <;>
    rw [hd] at hw
  · exact Or.inl ⟨status, hw, decode_refused hd⟩
  · cases slot with
    | none => cases decodeImage_ok_buffer hd
    | some s =>
      cases hf : frameOf img with
      | none =>
        simp only [World.startDecode, hf] at hw
        exact Or.inl ⟨.outOfMemory, hw, decode_oversized hd hf⟩
      | some f =>
        simp only [World.startDecode, hf] at hw
        exact Or.inr ⟨s, f, rfl, ⟨img, logs, hd, hf⟩, hw⟩

end Whole

section Moving
variable {w w' : World} {o o' : Object Value CallId Op Answer} {c : CallId} {s : SlotId}
variable {call : Call}

theorem Point.congr {d : CallId} (h : Point w.slots o d call)
    (hphase : o'.phases d = o.phases d) (hw : w'.slots call.slot = w.slots call.slot)
    (ho : o'.value.slots call.slot = o.value.slots call.slot) : Point w'.slots o' d call := by
  cases call <;> simp only [Call.slot] at hw ho <;>
    first | exact h.elim | simpa only [Point, Awaits, hphase, hw, ho] using h

structure Alone (w : World) (c : CallId) (s : SlotId) : Prop where
  mine : ∀ call, w.calls.lookup c = some call → call.slot = s
  others : ∀ d call, d ≠ c → w.calls.lookup d = some call → call.slot ≠ s

structure Apart (w w' : World) (o o' : Object Value CallId Op Answer) (c : CallId)
    (s : SlotId) : Prop where
  phases : ∀ d, d ≠ c → o'.phases d = o.phases d
  slots : ∀ t, t ≠ s → w'.slots t = w.slots t
  values : ∀ t, t ≠ s → o'.value.slots t = o.value.slots t

theorem Match.alone (h : Match w o) (hc : w.calls.lookup c = some call) : Alone w c call.slot where
  mine call' hcall' := by
    rw [hc] at hcall'
    rw [Option.some.inj hcall']
  others d call' hd hcall' hslot := hd (h.apart d c call' call hcall' hc hslot)

theorem alone_of_idle (hc : c ∉ w.calls) (hs : Idle w s) : Alone w c s where
  mine _ hcall := absurd (Finmap.mem_of_lookup_eq_some hcall) hc
  others d call _ hcall := hs d call hcall

def Stands (w' : World) (o' : Object Value CallId Op Answer) (c : CallId) (s : SlotId) :
    Option Call → Prop
  | some call => call.slot = s ∧ Point w'.slots o' c call
  | none => o'.phases c = none ∧ o'.value.slots s = w'.slots s

theorem Match.moved (h : Match w o) (hs : Alone w c s) (ha : Apart w w' o o' c s)
    (hcalls : ∀ d, d ≠ c → w'.calls.lookup d = w.calls.lookup d) (hd : Disciplined w')
    (hf : Filled w') (hb : SameBlocks w' o'.value)
    (hself : Stands w' o' c s (w'.calls.lookup c)) : Match w' o' where
  disciplined := hd
  filled := hf
  blocks := hb
  idle t ht := by
    by_cases hts : t = s
    · subst hts
      cases hc : w'.calls.lookup c with
      | none =>
        rw [hc] at hself
        exact hself.2
      | some call =>
        rw [hc] at hself
        exact absurd hself.1 (ht c call hc)
    · rw [ha.values t hts, ha.slots t hts]
      apply h.idle
      intro d call hcall
      by_cases hdc : d = c
      · subst hdc
        rw [hs.mine call hcall]
        exact Ne.symm hts
      · exact ht d call ((hcalls d hdc).trans hcall)
  quiet d hd' := by
    by_cases hdc : d = c
    · subst hdc
      rw [Finmap.lookup_eq_none.mpr hd'] at hself
      exact hself.1
    · rw [ha.phases d hdc]
      apply h.quiet
      rw [← Finmap.lookup_eq_none, ← hcalls d hdc, Finmap.lookup_eq_none.mpr hd']
  point d call hcall := by
    by_cases hdc : d = c
    · subst hdc
      rw [hcall] at hself
      exact hself.2
    · rw [hcalls d hdc] at hcall
      have hslot := hs.others d call hdc hcall
      exact (h.point d call hcall).congr (ha.phases d hdc) (ha.slots _ hslot) (ha.values _ hslot)
  apart d e call call' hd' he hslot := by
    have hmine : ∀ {x}, w'.calls.lookup c = some x → x.slot = s := by
      intro x hx
      rw [hx] at hself
      exact hself.1
    by_cases hdc : d = c <;> by_cases hec : e = c
    · rw [hdc, hec]
    · rw [hdc] at hd'
      rw [hcalls e hec] at he
      exact absurd (hslot.symm.trans (hmine hd')) (hs.others e call' hec he)
    · rw [hec] at he
      rw [hcalls d hdc] at hd'
      exact absurd (hslot.trans (hmine he)) (hs.others d call hdc hd')
    · rw [hcalls d hdc] at hd'
      rw [hcalls e hec] at he
      exact h.apart d e call call' hd' he hslot

theorem Match.next (h : Match w o) (hs : Alone w c s) (ha : Apart w w' o o' c s) {call' : Call}
    (hcalls : w'.calls = w.calls.insert c call') (hd : Disciplined w') (hf : Filled w')
    (hb : SameBlocks w' o'.value) (hslot : call'.slot = s) (hpoint : Point w'.slots o' c call') :
    Match w' o' := by
  refine h.moved hs ha (fun d hdc => ?_) hd hf hb ?_ <;> rw [hcalls]
  · exact Finmap.lookup_insert_of_ne _ hdc
  · rw [Finmap.lookup_insert]
    exact ⟨hslot, hpoint⟩

theorem Match.finish (h : Match w o) (hs : Alone w c s) (ha : Apart w w' o o' c s)
    (hcalls : w'.calls = w.calls.erase c) (hd : Disciplined w') (hf : Filled w')
    (hb : SameBlocks w' o'.value) (hphase : o'.phases c = none)
    (hsame : o'.value.slots s = w'.slots s) : Match w' o' := by
  refine h.moved hs ha (fun d hdc => ?_) hd hf hb ?_ <;> rw [hcalls]
  · exact Finmap.lookup_erase_ne hdc
  · rw [Finmap.lookup_erase]
    exact ⟨hphase, hsame⟩

theorem returns_next {call' : Call} (hcalls : w'.calls = w.calls.insert c call') :
    [] = returns c w' := by
  rw [returns, hcalls, if_pos (Finmap.mem_insert.mpr (Or.inl rfl))]

theorem returns_finish (hcalls : w'.calls = w.calls.erase c) {r : Answer}
    (hr : w'.history.head?.bind returned = r) : [.respond c r] = returns c w' := by
  have hgone : c ∉ w'.calls := by
    rw [hcalls, Finmap.mem_erase]
    exact fun hc => hc.1 rfl
  rw [returns, if_neg hgone, hr]

theorem Match.sound (h : Match w o) : Sound o.value where
  healthy := by
    rw [h.blocks.registry]
    exact h.disciplined.healthy
  keys p hp := by
    rw [h.blocks.registry] at hp
    have hlive := h.disciplined.keys_live p hp
    exact ⟨fun hnull => h.disciplined.nonnull (hnull ▸ hlive), (h.blocks.live p).mpr hp⟩

theorem Match.advances (h : Match w o) (hc : w.calls.lookup c = some call) (answer : Addr)
    (hfresh : answer = null ∨ answer ∉ w.memory.live) :
    Disciplined (w.advance c answer call) ∧ Filled (w.advance c answer call) :=
  ⟨advance_disciplined h.disciplined hc hfresh, advance_filled h.disciplined h.filled hc hfresh⟩

def Followed (o : Object Value CallId Op Answer) (c : CallId) (w' : World) : Prop :=
  ∃ ls o', Moves spec ls o o' ∧ seen ls = returns c w' ∧ Match w' o'

theorem followed_next {call' : Call} (hcalls : w'.calls = w.calls.insert c call')
    (h : Match w' o) : Followed o c w' :=
  ⟨[], o, rfl, returns_next hcalls, h⟩

theorem effect_decode {env : DecodeEnv} {path : IGStringRef} {frameIndex : Int32} {answer : Addr}
    {slot : Option SlotId} {st st' : Value} {status : IGStatus}
    (h : decode st slot env path frameIndex answer = (status,st'))
    (hfresh : answer = null ∨ answer ∉ st.memory.live) :
    Effect st (.decode slot env path frameIndex) st' (some status) := by
  have heffect := Effect.decode slot env path frameIndex answer hfresh
  rwa [h] at heffect

section Calls
variable {f : Frame} {p answer : Addr}

theorem decoding_followed (h : Match w o) (hc : w.calls.lookup c = some (.decoding s f))
    (hfresh : answer = null ∨ answer ∉ w.memory.live) :
    Followed o c (w.advance c answer (.decoding s f)) := by
  obtain ⟨hd, hf⟩ := h.advances hc answer hfresh
  obtain ⟨⟨env, path, frameIndex, hphase, hdecodes⟩, hslot⟩ := h.point c _ hc
  by_cases hnull : answer = null
  · simp only [World.advance, if_pos hnull] at hd hf ⊢
    rw [hnull, alloc_null] at hd hf ⊢
    have heffect := effect_decode (decode_unserved (s := s) hdecodes o.value) (Or.inl rfl)
    refine ⟨_, _, moves_answer hphase heffect, returns_finish (w := w) rfl rfl, ?_⟩
    exact h.finish (h.alone hc) ⟨fun d hdc => by simp [hdc], fun _ _ => rfl, fun _ _ => rfl⟩ rfl
      hd hf ⟨h.blocks.registry, h.blocks.live, h.blocks.contents⟩ (by simp) hslot
  · simp only [World.advance, if_neg hnull] at hd hf ⊢
    refine followed_next rfl (h.next (h.alone hc) ⟨fun _ _ => rfl, fun _ _ => rfl, fun _ _ => rfl⟩
      rfl hd hf ⟨h.blocks.registry, h.blocks.live, fun q hq => ?_⟩ rfl
      ⟨⟨env, path, frameIndex, hphase, hdecodes⟩, hslot⟩)
    rw [h.blocks.contents q hq]
    exact (contentAt_alloc_other (h.disciplined.keys_live q hq) hfresh f.bufSize).symm

theorem allocated_followed (h : Match w o) (hc : w.calls.lookup c = some (.allocated s f p)) :
    Followed o c (w.advance c answer (.allocated s f p)) := by
  obtain ⟨hd, hf⟩ := h.advances hc null (Or.inl rfl)
  have hkey : p ∉ w.registry.entries := (h.disciplined.owned_live (holder_of_lookup hc)).2
  obtain ⟨hawaits, hslot⟩ := h.point c _ hc
  refine followed_next rfl (h.next (h.alone hc) ⟨fun _ _ => rfl, fun _ _ => rfl, fun _ _ => rfl⟩
    rfl hd hf ⟨h.blocks.registry, h.blocks.live, fun q hq => ?_⟩ rfl ⟨hawaits, hslot⟩)
  have hne : q ≠ p := fun he => hkey (he ▸ hq)
  rw [h.blocks.contents q hq]
  exact (contentAt_copy_other hne ..).symm

theorem copied_followed (h : Match w o) (hc : w.calls.lookup c = some (.copied s f p)) :
    Followed o c (w.advance c answer (.copied s f p)) := by
  obtain ⟨hd, hf⟩ := h.advances hc null (Or.inl rfl)
  have hown : owned w c = some p := holder_of_lookup hc
  obtain ⟨hlive, hkey⟩ := h.disciplined.owned_live hown
  have hnull : p ≠ null := fun he => h.disciplined.nonnull (he ▸ hlive)
  have hreg := h.disciplined.registers hown f.bufSize
  obtain ⟨⟨env, path, frameIndex, hphase, hdecodes⟩, hslot⟩ := h.point c _ hc
  have hfresh : p ∉ o.value.memory.live := fun hp => hkey ((h.blocks.live p).mp hp)
  have heffect := effect_decode (decode_published (s := s) hdecodes hnull h.sound.healthy
    (h.blocks.registry.symm ▸ hkey)) (Or.inr hfresh)
  simp only [World.advance, hreg] at hd hf ⊢
  refine ⟨_, _, moves_one.mpr (.commit hphase heffect), returns_next (w := w) rfl, ?_⟩
  refine h.next (h.alone hc) ⟨fun d hdc => by simp [hdc], fun _ _ => rfl,
    fun t ht => Function.update_of_ne ht ..⟩ rfl hd hf ?_ rfl
    ⟨phase_self .., Function.update_self ..⟩
  refine ⟨congrArg (fun r => r.track p f.bufSize) h.blocks.registry, fun q => ?_, fun q hq => ?_⟩
  · change q ∈ (copyNonoverlapping f.data p f.bufSize _).live ↔ q ∈ w.registry.entries.insert p _
    rw [copy_mem, alloc_live hnull, Finmap.mem_insert, Finmap.mem_insert, h.blocks.live q]
  · by_cases hqp : q = p
    · have hfilled : contentAt w.memory p = some (pixels f) :=
        h.filled c (p,pixels f) (holder_of_lookup hc)
      have hempty := contentAt_alloc (m := o.value.memory) hnull f.bufSize
      rw [hqp]
      refine ((contentAt_copy hempty ..).trans ?_).trans hfilled.symm
      simp [pixels]
    · have hold : q ∈ w.registry.entries := (Finmap.mem_insert.mp hq).resolve_left hqp
      have holive : q ∈ o.value.memory.live := (h.blocks.live q).mpr hold
      refine ((contentAt_copy_other hqp ..).trans ?_).trans (h.blocks.contents q hold)
      exact contentAt_alloc_other holive (Or.inr hfresh) f.bufSize

theorem registered_followed (h : Match w o) (hc : w.calls.lookup c = some (.registered s f p)) :
    Followed o c (w.advance c answer (.registered s f p)) := by
  obtain ⟨hd, hf⟩ := h.advances hc null (Or.inl rfl)
  obtain ⟨hphase, hslot⟩ := h.point c _ hc
  refine ⟨_, _, moves_one.mpr (.respond hphase), returns_finish (w := w) rfl rfl, ?_⟩
  refine h.finish (h.alone hc) ⟨fun d hdc => by simp [hdc],
    fun t ht => Function.update_of_ne ht .., fun _ _ => rfl⟩ rfl hd hf
    ⟨h.blocks.registry, h.blocks.live, h.blocks.contents⟩ (phase_self ..) ?_
  have hwritten : (w.advance c answer (.registered s f p)).slots s = f.publish p :=
    Function.update_self ..
  exact hslot.trans hwritten.symm

theorem effect_cleared (h : Match w o) (hkey : (o.value.slots s).data ∉ w.registry.entries) :
    Effect o.value (.free (some s)) (o.value.cleared s) none := by
  have heffect := @Effect.free o.value (some s)
  have hfree := FreeOrder.free_untracked h.sound (s := s) (h.blocks.registry.symm ▸ hkey)
  rwa [Linearizable.free, hfree] at heffect

theorem effect_released (h : Match w o) (hkey : (o.value.slots s).data ∈ w.registry.entries) :
    Effect o.value (.free (some s))
      ((o.value.cleared s).released (o.value.slots s).data) none := by
  have heffect := @Effect.free o.value (some s)
  have hfree := FreeOrder.free_tracked h.sound (s := s) (h.blocks.registry.symm ▸ hkey)
  rwa [Linearizable.free, hfree] at heffect

theorem cleared_slot (st : Value) (s : SlotId) :
    (st.cleared s).slots s = clearedBuffer (st.slots s) := Function.update_self ..

theorem freeing_followed (h : Match w o) (hc : w.calls.lookup c = some (.freeing s)) :
    Followed o c (w.advance c answer (.freeing s)) := by
  obtain ⟨hd, hf⟩ := h.advances hc null (Or.inl rfl)
  obtain ⟨hphase, hslot⟩ := h.point c _ hc
  have htaken : (w.taken s).slots s = clearedBuffer (w.slots s) := Function.update_self ..
  have hother : ∀ t, t ≠ s → (w.taken s).slots t = w.slots t :=
    fun t ht => Function.update_of_ne ht ..
  by_cases hnull : (w.slots s).data = null
  · simp only [World.advance, if_pos hnull] at hd hf ⊢
    have hkey : (o.value.slots s).data ∉ w.registry.entries := by
      rw [hslot, hnull]
      exact fun hn => h.disciplined.nonnull (h.disciplined.keys_live null hn)
    refine ⟨_, _, moves_answer hphase (effect_cleared h hkey), returns_finish (w := w) rfl rfl, ?_⟩
    refine h.finish (h.alone hc) ⟨fun d hdc => by simp [hdc], hother,
      fun t ht => Function.update_of_ne ht ..⟩ rfl hd hf
      ⟨h.blocks.registry, h.blocks.live, h.blocks.contents⟩ (phase_self ..) ?_
    exact (cleared_slot o.value s).trans ((congrArg clearedBuffer hslot).trans htaken.symm)
  · simp only [World.advance, if_neg hnull] at hd hf ⊢
    exact followed_next (w := w) rfl (h.next (h.alone hc) ⟨fun _ _ => rfl, hother, fun _ _ => rfl⟩
      rfl hd hf ⟨h.blocks.registry, h.blocks.live, h.blocks.contents⟩ rfl
      ⟨hphase, congrArg IGPixelBuffer.data hslot, htaken.trans (congrArg clearedBuffer hslot.symm)⟩)

theorem cleared_followed {origin : Option ℕ} (h : Match w o)
    (hc : w.calls.lookup c = some (.cleared s p origin)) :
    Followed o c (w.advance c answer (.cleared s p origin)) := by
  obtain ⟨hd, hf⟩ := h.advances hc null (Or.inl rfl)
  obtain ⟨hphase, hdata, hslot⟩ := h.point c _ hc
  have hown : owned w c = none := holder_of_lookup hc
  have hvalues : ∀ t, t ≠ s → (o.value.cleared s).slots t = o.value.slots t :=
    fun t ht => Function.update_of_ne ht ..
  rcases unregister_cases w.registry p with ⟨entry, -, hl, hreg⟩ | ⟨status, hreg, hwhy⟩
  · have hkey : (o.value.slots s).data ∈ w.registry.entries :=
      hdata.symm ▸ Finmap.mem_of_lookup_eq_some hl
    simp only [World.advance, hreg] at hd hf ⊢
    refine ⟨_, _, moves_one.mpr (.commit hphase (effect_released h hkey)),
      returns_next (w := w) rfl, ?_⟩
    rw [hdata]
    refine h.next (h.alone hc) ⟨fun d hdc => by simp [hdc], fun _ _ => rfl, hvalues⟩ rfl hd hf
      ⟨congrArg (fun r => r.untrack p) h.blocks.registry, fun q => ?_, fun q hq => ?_⟩ rfl
      ⟨phase_self .., (cleared_slot o.value s).trans hslot.symm⟩
    · change q ∈ o.value.memory.live.erase p ↔ q ∈ w.registry.entries.erase p
      rw [Finmap.mem_erase, Finmap.mem_erase, h.blocks.live q]
    · obtain ⟨hne, hq⟩ := Finmap.mem_erase.mp hq
      exact (contentAt_free_other hne).trans (h.blocks.contents q hq)
  · have hkey : (o.value.slots s).data ∉ w.registry.entries := by
      rw [hdata]
      exact hwhy.resolve_left (fun hp => absurd (h.disciplined.healthy.symm.trans hp) (by decide))
    simp only [World.advance, hreg] at hd hf ⊢
    refine ⟨_, _, moves_answer hphase (effect_cleared h hkey), returns_finish (w := w) rfl rfl, ?_⟩
    exact h.finish (h.alone hc) ⟨fun d hdc => by simp [hdc], fun _ _ => rfl, hvalues⟩ rfl hd hf
      ⟨h.blocks.registry, h.blocks.live, h.blocks.contents⟩ (phase_self ..)
      ((cleared_slot o.value s).trans hslot.symm)

theorem unregistered_followed (h : Match w o) (hc : w.calls.lookup c = some (.unregistered s p)) :
    Followed o c (w.advance c answer (.unregistered s p)) := by
  obtain ⟨hd, hf⟩ := h.advances hc null (Or.inl rfl)
  have hkey : p ∉ w.registry.entries := (h.disciplined.owned_live (holder_of_lookup hc)).2
  obtain ⟨hphase, hslot⟩ := h.point c _ hc
  refine ⟨_, _, moves_one.mpr (.respond hphase), returns_finish (w := w) rfl rfl, ?_⟩
  refine h.finish (h.alone hc) ⟨fun d hdc => by simp [hdc], fun _ _ => rfl, fun _ _ => rfl⟩ rfl hd
    hf ⟨h.blocks.registry, h.blocks.live, fun q hq => ?_⟩ (phase_self ..) hslot
  have hne : q ≠ p := fun he => hkey (he ▸ hq)
  exact (h.blocks.contents q hq).trans (contentAt_free_other hne).symm

end Calls

theorem advance_followed {answer : Addr} (h : Match w o) (hc : w.calls.lookup c = some call)
    (hfresh : answer = null ∨ answer ∉ w.memory.live) : Followed o c (w.advance c answer call) := by
  cases call with
  | decoding s f => exact decoding_followed h hc hfresh
  | allocated s f p => exact allocated_followed h hc
  | copied s f p => exact copied_followed h hc
  | registered s f p => exact registered_followed h hc
  | rejected s p => exact (h.point c _ hc).elim
  | freeing s => exact freeing_followed h hc
  | cleared s p origin => exact cleared_followed h hc
  | unregistered s p => exact unregistered_followed h hc

end Moving

theorem returns_record {w : World} {c : CallId} (hc : c ∉ w.calls) (e : HostEvent) :
    returns c (w.record e) = [.respond c (returned e)] := if_neg hc

theorem begin_ended {w w' : World} {o : Object Value CallId Op Answer} {c : CallId} {op : Op}
    {e : HostEvent} (h : Match w o) (hc : c ∉ w.calls) (hw' : w' = w.record e)
    (he : Effect o.value op o.value (returned e)) :
    ∃ ls o', Moves spec ls o o' ∧ seen ls = .invoke c op::returns c w' ∧ Match w' o' := by
  have hphase := h.quiet c hc
  subst hw'
  refine ⟨[.invoke c op, .commit c op (returned e), .respond c (returned e)], _,
    ⟨_, .invoke op hphase, moves_answer (phase_self ..) he⟩, ?_, ?_⟩
  · rw [returns_record hc]
    rfl
  · have hback : (o.phase c (some (.pending op))).phase c none = o := by
      simp [Object.phase, ← hphase]
    exact hback.symm ▸ ⟨h.disciplined, h.filled,
      ⟨h.blocks.registry, h.blocks.live, h.blocks.contents⟩, h.idle, h.quiet, h.point, h.apart⟩

theorem begin_followed {w : World} {o : Object Value CallId Op Answer} {c : CallId} {s : SlotId}
    {op : Op} {call : Call} (h : Match w o) (hc : c ∉ w.calls) (hs : Idle w s)
    (hd : Disciplined (w.setCall c call)) (hf : Filled (w.setCall c call))
    (hslot : call.slot = s) (hpoint : Point w.slots (o.phase c (some (.pending op))) c call) :
    ∃ ls o', Moves spec ls o o' ∧ seen ls = .invoke c op::returns c (w.setCall c call) ∧
      Match (w.setCall c call) o' := by
  refine ⟨_, _, moves_one.mpr (.invoke op (h.quiet c hc)), ?_, ?_⟩
  · have hnext : (w.setCall c call).calls = w.calls.insert c call := rfl
    rw [← returns_next hnext]
    rfl
  · exact h.next (alone_of_idle hc hs) ⟨fun d hdc => by simp [hdc], fun _ _ => rfl,
      fun _ _ => rfl⟩ rfl hd hf ⟨h.blocks.registry, h.blocks.live, h.blocks.contents⟩ hslot hpoint

theorem write_followed {w : World} {o : Object Value CallId Op Answer} (h : Match w o)
    {s : SlotId} (hs : Idle w s) (b : IGPixelBuffer) (origin : Option ℕ) :
    Match (w.writeSlot s b origin)
      { o with value := { o.value with slots := Function.update o.value.slots s b } } where
  disciplined := h.disciplined
  filled := h.filled
  blocks := ⟨h.blocks.registry, h.blocks.live, h.blocks.contents⟩
  idle t ht := by
    change Function.update o.value.slots s b t = Function.update w.slots s b t
    rw [Function.update_apply, Function.update_apply, h.idle t ht]
  quiet := h.quiet
  point d call hcall := by
    have hne : call.slot ≠ s := hs d call hcall
    exact (h.point d call hcall).congr rfl (Function.update_of_ne hne ..)
      (Function.update_of_ne hne ..)
  apart := h.apart

theorem step_simulated (w : World) (a : Action) (w' : World)
    (hok : MallocFresh w a ∧ Exclusive w a) (hs : step w a = some w') :
    Simulated spec Match observe w a w' := by
  obtain ⟨hfresh, hexcl⟩ := hok
  intro o h
  have hd := step_disciplined w a w' h.disciplined hfresh hs
  have hf := (step_filled w a w' ⟨h.disciplined, h.filled⟩ hfresh hs).2
  cases a with
  | hostWrite s b =>
    cases hs
    exact ⟨[.environment (.write s b)], _, moves_one.mpr (.environment rfl), rfl,
      write_followed h hexcl b none⟩
  | hostCopy source target =>
    cases hs
    refine ⟨[.environment (.copy source target)], _, moves_one.mpr (.environment rfl), rfl, ?_⟩
    rw [hostMove, h.idle source hexcl.1]
    exact write_followed h hexcl.2 _ _
  | beginDecode c slot env path frameIndex =>
    by_cases hc : c ∈ w.calls
    · simp [step, hc] at hs
    · simp only [step, if_neg hc, Option.some.injEq] at hs
      have hcases := startDecode_outcome w c slot env path frameIndex
      rw [hs] at hcases
      rcases hcases with ⟨status, hw', hwhole⟩ | ⟨s, f, rfl, hdecodes, rfl⟩
      · exact begin_ended h hc hw' (effect_decode (hwhole o.value) (Or.inl rfl))
      · have hidle := hexcl s rfl
        exact begin_followed h hc hidle hd hf rfl
          ⟨⟨env, path, frameIndex, phase_self .., hdecodes⟩, h.idle s hidle⟩
  | beginFree c slot =>
    by_cases hc : c ∈ w.calls
    · simp [step, hc] at hs
    · cases slot with
      | none =>
        simp only [step, if_neg hc, Option.some.injEq] at hs
        exact begin_ended h hc hs.symm (.free none)
      | some s =>
        simp only [step, if_neg hc, Option.some.injEq] at hs
        subst hs
        have hidle := hexcl s rfl
        exact begin_followed h hc hidle hd hf rfl ⟨phase_self .., h.idle s hidle⟩
  | advance c answer =>
    obtain ⟨call, hcall, rfl⟩ := Option.map_eq_some_iff.mp hs
    exact advance_followed h hcall hfresh

def Value.start (slots : SlotId → IGPixelBuffer) : Value :=
  { slots := slots, registry := .new, memory := .empty }

theorem initial_match (slots : SlotId → IGPixelBuffer) :
    Match (.initial slots) (.initial (Value.start slots)) where
  disciplined := initial_disciplined slots
  filled c x hx := by cases hx
  blocks := ⟨rfl, fun _ => Iff.rfl, fun _ _ => rfl⟩
  idle _ _ := rfl
  quiet _ _ := rfl
  point c call hcall := by cases hcall
  apart c d call call' hcall := by cases hcall

/-- The entry points are atomic. Whatever any number of overlapping decode and
free calls do, step by step and in any order, there is one order of instants,
each inside its own call, in which whole calls of the two functions give every
call the answer it got. After any such run the structs no call is using, the
registry and the contents of the registered blocks are those of the whole
calls, whose heap holds nothing else. -/
theorem calls_linearizable (slots : SlotId → IGPixelBuffer) (as : List Action) (w : World)
    (hrun : run step as (.initial slots) = some w)
    (hok : Admits step (fun w a => MallocFresh w a ∧ Exclusive w a) as (.initial slots)) :
    ∃ ls value, Linearizes spec (observed step observe as (.initial slots))
        (Value.start slots) value ls ∧
      SameBlocks w value ∧ ∀ s, Idle w s → value.slots s = w.slots s := by
  obtain ⟨ls, o, hmoves, hseen, hmatch⟩ :=
    run_simulated step_simulated (initial_match slots) hrun hok
  have hlin := moves_linearizes hmoves
  rw [hseen] at hlin
  exact ⟨ls, o.value, hlin, hmatch.blocks, hmatch.idle⟩

theorem calls_linearizable_twice :
    ∃ w ls value, run step freeTwice (.initial fun _ => emptyBuffer) = some w ∧
      Linearizes spec (observed step observe freeTwice (.initial fun _ => emptyBuffer))
        (Value.start fun _ => emptyBuffer) value ls ∧ value.registry = w.registry := by
  obtain ⟨w, hw⟩ : ∃ w, run step freeTwice (.initial fun _ => emptyBuffer) = some w :=
    Option.isSome_iff_exists.mp (by decide)
  obtain ⟨ls, value, hlin, hblocks, -⟩ := calls_linearizable _ freeTwice w hw (by decide)
  exact ⟨w, ls, value, hw, hlin, hblocks.registry⟩

end IthmbPlugin.Linearizable
