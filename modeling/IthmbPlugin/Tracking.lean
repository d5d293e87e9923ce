import IthmbPlugin.Discipline
import Mathlib.Data.Sum.Basic

/-!
# No leak under a conforming host

A conforming host decodes only into an empty struct and frees a buffer through
the struct it was decoded into. Then every registered block has exactly one
holder: a struct the host can see, a decode call that has not written its
struct yet, or a free call that has read the pointer and not removed it yet.
With no call in progress the structs, the registry and the heap agree.
-/

set_option autoImplicit false

namespace IthmbPlugin.Tracking
open IthmbPlugin.Types IthmbPlugin.Registry IthmbPlugin.Allocator IthmbPlugin.Decode
open IthmbPlugin.Ownership IthmbPlugin.Runs IthmbPlugin.Calls IthmbPlugin.Discipline
open IthmbPlugin.MachineInt IthmbPlugin.DecodeContract IthmbPlugin.Strings

/-- The last decode into the slot returned success and no free of it has
returned since. -/
def filled : List HostEvent → SlotId → Bool
  | [], _ => false
  | .published t _ _::h, s => if t = s then true else filled h s
  | .refused t _::h, s => if t = some s then false else filled h s
  | .surrendered _ _::h, s => filled h s
  | .freed t::h, s => if t = some s then false else filled h s

def everFilled : List HostEvent → SlotId → Bool
  | [], _ => false
  | .published t _ _::h, s => if t = s then true else everFilled h s
  | .refused _ _::h, s => everFilled h s
  | .surrendered _ _::h, s => everFilled h s
  | .freed _::h, s => everFilled h s

def Idle (w : World) (s : SlotId) : Prop :=
  ∀ c call, w.calls.lookup c = some call → call.slot ≠ s

def requested : Call → Option ℕ
  | .decoding _ f => some f.bufSize
  | _ => none

/-- What malloc promises: null or an address that is not live, and null for a
request that no object can have. -/
def MallocServes (w : World) (c : CallId) (answer : Addr) : Prop :=
  (answer = null ∨ answer ∉ w.memory.live) ∧
  ∀ n ∈ holder requested w.calls c, isizeMax < n → answer = null

/-- The host writes no struct of its own accord, runs one call at a time on a
struct, decodes into empty ones only and frees those that were filled at some
time or hold a null pointer. -/
def Conforming (w : World) : Action → Prop
  | .hostWrite _ _ => False
  | .hostCopy _ _ => False
  | .beginDecode _ slot _ _ _ =>
    ∀ s ∈ slot, Idle w s ∧ filled w.history s = false
  | .beginFree _ slot =>
    ∀ s ∈ slot, Idle w s ∧ (everFilled w.history s = true ∨ (w.slots s).data = null)
  | .advance c answer => MallocServes w c answer

instance (w : World) (s : SlotId) : Decidable (Idle w s) :=
  decidable_of_iff (∀ c ∈ w.calls.keys, ∀ call ∈ w.calls.lookup c, call.slot ≠ s)
    ⟨fun h c call hc => h c (Finmap.mem_keys.mpr (Finmap.mem_of_lookup_eq_some hc)) call hc,
      fun h c _ call hc => h c call hc⟩

instance (w : World) : (a : Action) → Decidable (Conforming w a)
  | .hostWrite .. => isFalse id
  | .hostCopy .. => isFalse id
  | .beginDecode _ slot _ _ _ => inferInstanceAs (Decidable (∀ s ∈ slot, _ ∧ _))
  | .beginFree _ slot => inferInstanceAs (Decidable (∀ s ∈ slot, _ ∧ _))
  | .advance .. => inferInstanceAs (Decidable (_ ∧ _))

/-- The registered block a struct gives the host access to. A struct never
filled holds none, whatever its bits are. -/
def slotHolds (history : List HostEvent) (slots : SlotId → IGPixelBuffer) (s : SlotId) :
    Option Addr :=
  if everFilled history s = true ∧ (slots s).data ≠ null then some (slots s).data else none

def callHolds : Call → Option Addr
  | .registered _ _ p => some p
  | .cleared _ p _ => some p
  | _ => none

def holders (w : World) : SlotId ⊕ CallId → Option Addr :=
  Sum.elim (slotHolds w.history w.slots) (holder callHolds w.calls)

def keys (r : BufferRegistry) : Set Addr := {p | p ∈ r.entries}

def Stage (w : World) : Call → Prop
  | .decoding s _ => slotHolds w.history w.slots s = none
  | .allocated s f _ => slotHolds w.history w.slots s = none ∧ f.bufSize ≤ isizeMax
  | .copied s f _ => slotHolds w.history w.slots s = none ∧ f.bufSize ≤ isizeMax
  | .registered s f p => slotHolds w.history w.slots s = none ∧ f.bufSize ≤ isizeMax ∧
    ∃ entry, w.registry.entries.lookup p = some entry ∧ entry.size = f.bufSize
  | .rejected _ _ => False
  | .freeing s => everFilled w.history s = true ∨ (w.slots s).data = null
  | .cleared s _ _ => slotHolds w.history w.slots s = none
  | .unregistered s _ => slotHolds w.history w.slots s = none

def Sized (w : World) (s : SlotId) : Prop :=
  ∀ p, slotHolds w.history w.slots s = some p →
    ∃ entry, w.registry.entries.lookup p = some entry ∧
      (entry.size:ℤ) = (w.slots s).height.toInt*(w.slots s).stride.toInt

def Settled (w : World) (s : SlotId) : Prop :=
  filled w.history s = true ↔ slotHolds w.history w.slots s ≠ none

structure Tracked (w : World) : Prop where
  disciplined : Disciplined w
  holders : Tracks (holders w) (keys w.registry)
  apart : ∀ c c' call call', w.calls.lookup c = some call → w.calls.lookup c' = some call' →
    call.slot = call'.slot → c = c'
  stage : ∀ c call, w.calls.lookup c = some call → Stage w call
  sized : ∀ s, Sized w s
  settled : ∀ s, Idle w s → Settled w s

theorem slotHolds_some {history : List HostEvent} {slots : SlotId → IGPixelBuffer} {s : SlotId}
    {p : Addr} (h : slotHolds history slots s = some p) :
    everFilled history s = true ∧ (slots s).data = p ∧ p ≠ null := by
  unfold slotHolds at h
  split_ifs at h with hc
  cases h
  exact ⟨hc.1, rfl, hc.2⟩

theorem initial_tracked (slots : SlotId → IGPixelBuffer) : Tracked (.initial slots) where
  disciplined := initial_disciplined slots
  holders := by
    refine tracks_empty.congr ?_ (fun p => iff_of_false Finmap.notMem_empty (Set.notMem_empty p))
    intro o
    cases o with
    | inl s => rfl
    | inr c => rfl
  apart c c' call call' h := by cases h
  stage c call h := by cases h
  sized s p h := by cases h
  settled s _ := by simp [Settled, slotHolds, filled, everFilled, World.initial]

theorem holders_setCall (w : World) (c : CallId) (call : Call) :
    holders (w.setCall c call) = Function.update (holders w) (.inr c) (callHolds call) := by
  rw [holders, holders, Sum.update_elim_inr, ← holder_insert]
  rfl

theorem holders_endCall (w : World) (c : CallId) {e : HostEvent}
    (he : ∀ s, everFilled (e::w.history) s = everFilled w.history s) :
    holders (w.endCall c e) = Function.update (holders w) (.inr c) none := by
  have hslots : slotHolds (e::w.history) w.slots = slotHolds w.history w.slots := by
    funext s
    simp only [slotHolds, he]
  rw [holders, holders, Sum.update_elim_inr, ← holder_erase, ← hslots]
  rfl

theorem slotHolds_taken (w : World) (s : SlotId) :
    slotHolds (w.taken s).history (w.taken s).slots s = none := by
  have hself : (w.taken s).slots s = clearedBuffer (w.slots s) := Function.update_self ..
  rw [slotHolds, hself]
  exact if_neg (fun hcond => hcond.2 rfl)

theorem holders_taken (w : World) (s : SlotId) :
    holders (w.taken s) = Function.update (holders w) (.inl s) none := by
  have hslots : slotHolds (w.taken s).history (w.taken s).slots =
      Function.update (slotHolds w.history w.slots) s none := by
    funext t
    by_cases ht : t = s
    · rw [ht, slotHolds_taken, Function.update_self]
    · have hother : (w.taken s).slots t = w.slots t := Function.update_of_ne ht ..
      rw [Function.update_of_ne ht, slotHolds, slotHolds, hother]
      rfl
  rw [holders, holders, Sum.update_elim_inl, hslots]
  rfl

structure Framed (w w' : World) (c : CallId) (s : SlotId) : Prop where
  slots : ∀ t, t ≠ s → w'.slots t = w.slots t
  ever : ∀ t, t ≠ s → everFilled w'.history t = everFilled w.history t
  filled : ∀ t, t ≠ s → filled w'.history t = filled w.history t
  entries : ∀ o p, o ≠ .inl s → o ≠ .inr c → holders w o = some p →
    w'.registry.entries.lookup p = w.registry.entries.lookup p

section Framing
variable {w w' : World} {c : CallId} {s : SlotId}

theorem Framed.slotHolds (hf : Framed w w' c s) {t : SlotId} (ht : t ≠ s) :
    slotHolds w'.history w'.slots t = slotHolds w.history w.slots t := by
  simp only [Tracking.slotHolds, hf.slots t ht, hf.ever t ht]

theorem Framed.stage (hf : Framed w w' c s) {d : CallId} {call : Call} (hd : d ≠ c)
    (hcall : w.calls.lookup d = some call) (ht : call.slot ≠ s) (h : Stage w call) :
    Stage w' call := by
  have hholds := hf.slotHolds ht
  cases call with
  | decoding t f => exact hholds.trans h
  | allocated t f p => exact ⟨hholds.trans h.1, h.2⟩
  | copied t f p => exact ⟨hholds.trans h.1, h.2⟩
  | registered t f p =>
    obtain ⟨hslot, hsize, entry, hentry, hn⟩ := h
    have hlook := hf.entries (.inr d) p (by simp) (by simpa using hd) (holder_of_lookup hcall)
    exact ⟨hholds.trans hslot, hsize, entry, hlook.trans hentry, hn⟩
  | rejected t p => exact h
  | freeing t =>
    change everFilled w'.history t = true ∨ (w'.slots t).data = null
    rw [hf.ever t ht, hf.slots t ht]
    exact h
  | cleared t p origin => exact hholds.trans h
  | unregistered t p => exact hholds.trans h

theorem Framed.sized (hf : Framed w w' c s) {t : SlotId} (ht : t ≠ s) (h : Sized w t) :
    Sized w' t := by
  intro p hp
  rw [hf.slotHolds ht] at hp
  obtain ⟨entry, hentry, hsize⟩ := h p hp
  have hlook := hf.entries (.inl t) p (by simpa using ht) (by simp) hp
  rw [hf.slots t ht]
  exact ⟨entry, hlook.trans hentry, hsize⟩

theorem Framed.settled (hf : Framed w w' c s) {t : SlotId} (ht : t ≠ s) (h : Settled w t) :
    Settled w' t := by
  unfold Settled
  rw [hf.filled t ht, hf.slotHolds ht]
  exact h

/-- A step of one call keeps the invariant when it keeps the part of it that
speaks of the call, of its struct and of the registry. -/
theorem Tracked.moved (h : Tracked w) {call : Call} (hc : w.calls.lookup c = some call)
    (hf : Framed w w' c call.slot) (hd : Disciplined w')
    (hk : Tracks (Tracking.holders w') (keys w'.registry)) (hz : Sized w' call.slot)
    (hcalls : (∃ next, w'.calls = w.calls.insert c next ∧ next.slot = call.slot ∧ Stage w' next) ∨
      (w'.calls = w.calls.erase c ∧ Settled w' call.slot)) : Tracked w' := by
  have hother : ∀ d, d ≠ c → w'.calls.lookup d = w.calls.lookup d := by
    intro d hd
    rcases hcalls with ⟨next, heq, -⟩ | ⟨heq, -⟩
    · rw [heq, Finmap.lookup_insert_of_ne _ hd]
    · rw [heq, Finmap.lookup_erase_ne hd]
  have hself : ∀ next, w'.calls.lookup c = some next → next.slot = call.slot ∧ Stage w' next := by
    intro next hn
    rcases hcalls with ⟨next', heq, hslot, hstage⟩ | ⟨heq, -⟩
    · rw [heq, Finmap.lookup_insert] at hn
      cases hn
      exact ⟨hslot, hstage⟩
    · rw [heq, Finmap.lookup_erase] at hn
      cases hn
  have hapart : ∀ d next, d ≠ c → w'.calls.lookup d = some next → next.slot ≠ call.slot := by
    intro d next hne hn hslot
    exact hne (h.apart d c next call (hother d hne ▸ hn) hc hslot)
  constructor
  · exact hd
  · exact hk
  · intro d d' a b ha hb hslot
    by_cases hd : d = c <;> by_cases hd' : d' = c
    · rw [hd, hd']
    · subst hd
      exact absurd (hslot.symm.trans (hself a ha).1) (hapart d' b hd' hb)
    · subst hd'
      exact absurd (hslot.trans (hself b hb).1) (hapart d a hd ha)
    · exact h.apart d d' a b (hother d hd ▸ ha) (hother d' hd' ▸ hb) hslot
  · intro d next hn
    by_cases hd : d = c
    · subst hd
      exact (hself next hn).2
    · have hold : w.calls.lookup d = some next := hother d hd ▸ hn
      exact hf.stage hd hold (hapart d next hd hn) (h.stage d next hold)
  · intro t
    by_cases ht : t = call.slot
    · rw [ht]
      exact hz
    · exact hf.sized ht (h.sized t)
  · intro t hidle
    by_cases ht : t = call.slot
    · subst ht
      rcases hcalls with ⟨next, heq, hslot, -⟩ | ⟨-, hsettled⟩
      · have hn : w'.calls.lookup c = some next := by rw [heq, Finmap.lookup_insert]
        exact absurd hslot (hidle c next hn)
      · exact hsettled
    · refine hf.settled ht (h.settled t ?_)
      intro d a ha
      by_cases hd : d = c
      · subst hd
        cases hc.symm.trans ha
        exact Ne.symm ht
      · exact hidle d a ((hother d hd).trans ha)

end Framing

section Phases
variable {w : World} {c : CallId} {call : Call}

theorem sized_empty {w' : World} {s : SlotId} (h : slotHolds w'.history w'.slots s = none) :
    Sized w' s := by
  intro p hp
  rw [h] at hp
  cases hp

theorem settled_empty {w' : World} {s : SlotId} (hf : filled w'.history s = false)
    (h : slotHolds w'.history w'.slots s = none) : Settled w' s := by
  simp [Settled, hf, h]

theorem stage_congr {w' : World} (hs : w'.slots = w.slots) (hr : w'.registry = w.registry)
    (he : everFilled w'.history = everFilled w.history) (h : Stage w call) : Stage w' call := by
  have hholds : slotHolds w'.history w.slots = slotHolds w.history w.slots := by
    funext s
    simp only [slotHolds, he]
  cases call <;> simp only [Stage, hholds, hr, hs, he] at h ⊢ <;> exact h

theorem Tracked.quiet_next (h : Tracked w) (hc : w.calls.lookup c = some call) {m : Memory}
    {next : Call} (hd : Disciplined (World.setCall { w with memory := m } c next))
    (hnone : callHolds call = none) (hnext : callHolds next = none)
    (hslot : next.slot = call.slot) (hstage : Stage w next) :
    Tracked (World.setCall { w with memory := m } c next) := by
  refine h.moved hc ⟨fun _ _ => rfl, fun _ _ => rfl, fun _ _ => rfl, fun _ _ _ _ _ => rfl⟩ hd ?_
    (h.sized call.slot) (Or.inl ⟨next, rfl, hslot, stage_congr rfl rfl rfl hstage⟩)
  rw [holders_setCall, hnext]
  exact h.holders.keep ((holder_of_lookup hc).trans hnone)

theorem Tracked.quiet_end (h : Tracked w) (hc : w.calls.lookup c = some call) {m : Memory}
    {e : HostEvent} (hd : Disciplined (World.endCall { w with memory := m } c e))
    (hnone : callHolds call = none) (hempty : slotHolds w.history w.slots call.slot = none)
    (he : e = .freed (some call.slot) ∨ ∃ status, e = .refused (some call.slot) status) :
    Tracked (World.endCall { w with memory := m } c e) := by
  have hever : ∀ s, everFilled (e::w.history) s = everFilled w.history s := by
    intro s
    rcases he with rfl | ⟨status, rfl⟩ <;> rfl
  have hother : ∀ t, t ≠ call.slot → filled (e::w.history) t = filled w.history t := by
    intro t ht
    rcases he with rfl | ⟨status, rfl⟩ <;> simp [filled, Ne.symm ht]
  have hself : filled (e::w.history) call.slot = false := by
    rcases he with rfl | ⟨status, rfl⟩ <;> simp [filled]
  have hstill : slotHolds (e::w.history) w.slots call.slot = none := by
    simp only [slotHolds, hever]
    exact hempty
  refine h.moved hc ⟨fun _ _ => rfl, fun t _ => hever t, hother, fun _ _ _ _ _ => rfl⟩ hd ?_
    (sized_empty hstill) (Or.inr ⟨rfl, settled_empty hself hstill⟩)
  rw [holders_endCall { w with memory := m } c hever]
  exact h.holders.keep ((holder_of_lookup hc).trans hnone)

theorem Tracked.registers (h : Tracked w) {s : SlotId} {f : Frame} {p : Addr}
    (hc : w.calls.lookup c = some (.copied s f p))
    (hd : Disciplined (w.advance c null (.copied s f p))) :
    Tracked (w.advance c null (.copied s f p)) := by
  have hown : owned w c = some p := holder_of_lookup hc
  have hkey : p ∉ w.registry.entries := (h.disciplined.owned_live hown).2
  have hstage := h.stage c _ hc
  simp only [World.advance, h.disciplined.registers hown] at hd ⊢
  have hentry : (w.registry.track p f.bufSize).entries.lookup p =
      some { ptr := p, size := f.bufSize, freed := false } := Finmap.lookup_insert _
  have hlook : ∀ q, q ∈ keys w.registry →
      (w.registry.track p f.bufSize).entries.lookup q = w.registry.entries.lookup q :=
    fun q hq => Finmap.lookup_insert_of_ne _ (fun he => hkey (he ▸ hq))
  refine h.moved hc ⟨fun _ _ => rfl, fun _ _ => rfl, fun _ _ => rfl,
    fun o q _ _ ho => hlook q (h.holders.mem ho)⟩ hd ?_ (sized_empty hstage.1)
    (Or.inl ⟨_, rfl, rfl, hstage.1, hstage.2, _, hentry, rfl⟩)
  rw [holders_setCall]
  have hnone : Tracking.holders w (.inr c) = none :=
    show holder callHolds w.calls c = none from holder_of_lookup hc
  apply (h.holders.acquire hnone hkey).congr (fun _ => rfl)
  intro q
  exact Finmap.mem_insert

theorem Tracked.publishes (h : Tracked w) {s : SlotId} {f : Frame} {p : Addr}
    (hc : w.calls.lookup c = some (.registered s f p))
    (hd : Disciplined (w.advance c null (.registered s f p))) :
    Tracked (w.advance c null (.registered s f p)) := by
  obtain ⟨hempty, hsize, entry, hentry, hn⟩ := h.stage c _ hc
  have hhold : Tracking.holders w (.inr c) = some p :=
    show holder callHolds w.calls c = some p from holder_of_lookup hc
  have hp : p ≠ null := by
    intro hnull
    exact h.disciplined.nonnull (h.disciplined.keys_live null (hnull ▸ h.holders.mem hhold))
  simp only [World.advance] at hd ⊢
  set w' := (w.writeSlot s (f.publish p) (w.memory.serialAt p)).endCall c
    (.published s (w.memory.serialAt p) p)
  have hslot : w'.slots s = f.publish p := Function.update_self ..
  have hother : ∀ t, t ≠ s → w'.slots t = w.slots t := fun t ht => Function.update_of_ne ht ..
  have hever : ∀ t, t ≠ s → everFilled w'.history t = everFilled w.history t :=
    fun t ht => if_neg (Ne.symm ht)
  have hself : slotHolds w'.history w'.slots s = some p := by
    rw [slotHolds, hslot]
    exact if_pos ⟨if_pos rfl, hp⟩
  have hslots : slotHolds w'.history w'.slots =
      Function.update (slotHolds w.history w.slots) s (some p) := by
    funext t
    by_cases ht : t = s
    · rw [ht, hself, Function.update_self]
    · rw [Function.update_of_ne ht, slotHolds, slotHolds, hother t ht, hever t ht]
  have hsized : Sized w' s := by
    intro q hq
    cases hself.symm.trans hq
    refine ⟨entry, hentry, ?_⟩
    rw [hn, hslot]
    exact f.size_exact hsize
  refine h.moved hc ⟨hother, hever, fun t ht => if_neg (Ne.symm ht), fun _ _ _ _ _ => rfl⟩ hd ?_
    hsized (Or.inr ⟨rfl, ?_⟩)
  · have hmoved : Tracking.holders w' =
        Function.update (Function.update (Tracking.holders w) (.inr c) none) (.inl s) (some p) := by
      rw [Tracking.holders, Tracking.holders, Sum.update_elim_inr, Sum.update_elim_inl, hslots,
        ← holder_erase]
      rfl
    rw [hmoved]
    exact h.holders.move hhold hempty
  · change filled w'.history s = true ↔ slotHolds w'.history w'.slots s ≠ none
    rw [hself]
    exact iff_of_true (if_pos rfl) (by simp)

theorem Tracked.clears (h : Tracked w) {s : SlotId}
    (hc : w.calls.lookup c = some (.freeing s))
    (hd : Disciplined (w.advance c null (.freeing s))) :
    Tracked (w.advance c null (.freeing s)) := by
  have hstage : everFilled w.history s = true ∨ (w.slots s).data = null := h.stage c _ hc
  have hcall : Tracking.holders w (.inr c) = none :=
    show holder callHolds w.calls c = none from holder_of_lookup hc
  have hother : ∀ t, t ≠ s → (w.taken s).slots t = w.slots t :=
    fun t ht => Function.update_of_ne ht ..
  have hempty := slotHolds_taken w s
  by_cases hnull : (w.slots s).data = null
  · have hnone : Tracking.holders w (.inl s) = none := if_neg (fun hcond => hcond.2 hnull)
    simp only [World.advance, if_pos hnull] at hd ⊢
    refine h.moved hc ⟨hother, fun _ _ => rfl, ?_, fun _ _ _ _ _ => rfl⟩ hd ?_
      (sized_empty hempty) (Or.inr ⟨rfl, settled_empty (if_pos rfl) hempty⟩)
    · intro t ht
      exact if_neg (fun he => ht (Option.some.inj he).symm)
    · rw [holders_endCall (w.taken s) c (fun _ => rfl), holders_taken]
      apply (h.holders.keep hnone).keep
      rw [Function.update_of_ne (by simp), hcall]
  · have hholds : Tracking.holders w (.inl s) = some (w.slots s).data :=
      if_pos ⟨hstage.resolve_right hnull, hnull⟩
    simp only [World.advance, if_neg hnull] at hd ⊢
    refine h.moved hc ⟨hother, fun _ _ => rfl, fun _ _ => rfl, fun _ _ _ _ _ => rfl⟩ hd ?_
      (sized_empty hempty) (Or.inl ⟨_, rfl, rfl, hempty⟩)
    rw [holders_setCall, holders_taken]
    exact h.holders.move hholds hcall

theorem Tracked.unregisters (h : Tracked w) {s : SlotId} {p : Addr} {origin : Option ℕ}
    (hc : w.calls.lookup c = some (.cleared s p origin))
    (hd : Disciplined (w.advance c null (.cleared s p origin))) :
    Tracked (w.advance c null (.cleared s p origin)) := by
  have hempty : slotHolds w.history w.slots s = none := h.stage c _ hc
  have hhold : Tracking.holders w (.inr c) = some p :=
    show holder callHolds w.calls c = some p from holder_of_lookup hc
  have hreg : ∃ entry, unregister w.registry p = (.ok entry,w.registry.untrack p) := by
    rcases unregister_cases w.registry p with ⟨entry, -, -, hreg⟩ | ⟨status, -, hwhy⟩
    · exact ⟨entry, hreg⟩
    · rcases hwhy with hpois | hmem
      · exact absurd (h.disciplined.healthy.symm.trans hpois) (by decide)
      · exact absurd (h.holders.mem hhold) hmem
  obtain ⟨entry, hreg⟩ := hreg
  simp only [World.advance, hreg] at hd ⊢
  have hlook : ∀ o q, o ≠ .inr c → Tracking.holders w o = some q →
      (w.registry.untrack p).entries.lookup q = w.registry.entries.lookup q := by
    intro o q ho hq
    have hne : q ≠ p := fun he => ho (h.holders.exclusive o (.inr c) p (he ▸ hq) hhold)
    exact Finmap.lookup_erase_ne hne
  refine h.moved hc ⟨fun _ _ => rfl, fun _ _ => rfl, fun _ _ => rfl,
    fun o q _ ho hq => hlook o q ho hq⟩ hd ?_ (sized_empty hempty) (Or.inl ⟨_, rfl, rfl, hempty⟩)
  rw [holders_setCall]
  apply (h.holders.release hhold).congr (fun _ => rfl)
  intro q
  change q ∈ w.registry.entries.erase p ↔ q ∈ w.registry.entries ∧ ¬ q = p
  rw [Finmap.mem_erase]
  exact and_comm

theorem Tracked.begins (h : Tracked w) (hc : c ∉ w.calls) (hidle : Idle w call.slot)
    (hd : Disciplined (w.setCall c call)) (hhold : callHolds call = none) (hstage : Stage w call) :
    Tracked (w.setCall c call) := by
  have hnew : w.calls.lookup c = none := Finmap.lookup_eq_none.mpr hc
  have hother : ∀ d, d ≠ c → (w.setCall c call).calls.lookup d = w.calls.lookup d :=
    fun d hd => Finmap.lookup_insert_of_ne _ hd
  have hself : (w.setCall c call).calls.lookup c = some call := Finmap.lookup_insert _
  constructor
  · exact hd
  · rw [holders_setCall, hhold]
    apply h.holders.keep
    show holder callHolds w.calls c = none
    exact holder_none_of_lookup hnew
  · intro d d' a b ha hb hslot
    by_cases hdc : d = c <;> by_cases hdc' : d' = c
    · rw [hdc, hdc']
    · subst hdc
      cases hself.symm.trans ha
      exact absurd hslot.symm (hidle d' b (hother d' hdc' ▸ hb))
    · subst hdc'
      cases hself.symm.trans hb
      exact absurd hslot (hidle d a (hother d hdc ▸ ha))
    · exact h.apart d d' a b (hother d hdc ▸ ha) (hother d' hdc' ▸ hb) hslot
  · intro d a ha
    by_cases hdc : d = c
    · subst hdc
      cases hself.symm.trans ha
      exact stage_congr rfl rfl rfl hstage
    · exact stage_congr rfl rfl rfl (h.stage d a (hother d hdc ▸ ha))
  · exact h.sized
  · intro t ht
    apply h.settled t
    intro d a ha
    have hdc : d ≠ c := by
      rintro rfl
      rw [hnew] at ha
      cases ha
    exact ht d a ((hother d hdc).trans ha)

theorem Tracked.records (h : Tracked w) {e : HostEvent}
    (hever : ∀ s, everFilled (e::w.history) s = everFilled w.history s)
    (hfilled : ∀ s, filled (e::w.history) s = filled w.history s) : Tracked (w.record e) := by
  have hholds : slotHolds (e::w.history) w.slots = slotHolds w.history w.slots := by
    funext s
    simp only [slotHolds, hever]
  constructor
  · exact h.disciplined
  · refine h.holders.congr ?_ (fun _ => Iff.rfl)
    intro o
    cases o with
    | inl s => exact congrFun hholds s
    | inr c => rfl
  · exact h.apart
  · exact fun c call hc => stage_congr (w := w) rfl rfl (funext hever) (h.stage c call hc)
  · intro s p hp
    exact h.sized s p (congrFun hholds s ▸ hp)
  · intro s hidle
    have hs := h.settled s hidle
    unfold Settled at hs ⊢
    change filled (e::w.history) s = true ↔ slotHolds (e::w.history) w.slots s ≠ none
    rw [hfilled, hholds]
    exact hs

end Phases

theorem advance_tracked {w : World} (h : Tracked w) {c : CallId} {call : Call}
    (hc : w.calls.lookup c = some call) {answer : Addr} (hserves : MallocServes w c answer) :
    Tracked (w.advance c answer call) := by
  have hd := advance_disciplined h.disciplined hc hserves.1
  have hstage := h.stage c call hc
  cases call with
  | decoding s f =>
    by_cases hp : answer = null
    · simp only [World.advance, if_pos hp] at hd ⊢
      exact h.quiet_end hc hd rfl hstage (Or.inr ⟨_, rfl⟩)
    · simp only [World.advance, if_neg hp] at hd ⊢
      have hsize : f.bufSize ≤ isizeMax :=
        Nat.le_of_not_lt (fun hlt => hp (hserves.2 _ (holder_of_lookup hc) hlt))
      exact h.quiet_next hc hd rfl rfl rfl ⟨hstage, hsize⟩
  | allocated s f p => exact h.quiet_next hc hd rfl rfl rfl hstage
  | copied s f p => exact h.registers hc hd
  | registered s f p => exact h.publishes hc hd
  | rejected s p => cases hstage
  | freeing s => exact h.clears hc hd
  | cleared s p origin => exact h.unregisters hc hd
  | unregistered s p => exact h.quiet_end hc hd rfl hstage (Or.inl rfl)

theorem step_tracked (w : World) (a : Action) (w' : World) (h : Tracked w)
    (hok : Conforming w a) (hs : step w a = some w') : Tracked w' := by
  rcases step_cases hs with ⟨s, b, rfl, -⟩ | ⟨source, target, rfl, -⟩ |
    ⟨c, slot, env, path, frameIndex, rfl, hc, ⟨status, rfl, -⟩ | ⟨s, f, rfl, rfl⟩⟩ |
    ⟨c, rfl, rfl⟩ | ⟨c, s, rfl, hc, rfl⟩ | ⟨c, answer, call, rfl, hc, rfl⟩
  · cases hok
  · cases hok
  · apply h.records (fun _ => rfl)
    intro s
    by_cases hslot : slot = some s
    · rw [(hok s hslot).2]
      exact if_pos hslot
    · exact if_neg hslot
  · obtain ⟨hidle, hempty⟩ := hok s rfl
    have hd := step_disciplined w (.beginDecode c (some s) env path frameIndex) _ h.disciplined
      trivial hs
    have hnone : slotHolds w.history w.slots s = none := by
      by_contra hne
      rw [(h.settled s hidle).mpr hne] at hempty
      cases hempty
    exact h.begins hc hidle hd rfl hnone
  · exact h.records (fun _ => rfl) (fun s => if_neg (by simp))
  · obtain ⟨hidle, hstage⟩ := hok s rfl
    have hd := step_disciplined w (.beginFree c (some s)) _ h.disciplined trivial hs
    exact h.begins hc hidle hd rfl hstage
  · exact advance_tracked h hc hok

theorem reached_tracked {slots : SlotId → IGPixelBuffer} {w : World}
    (h : Reached step Conforming (.initial slots) w) : Tracked w :=
  reached_invariant (initial_tracked slots) step_tracked h

/-- No leak and exact tracking. After any conforming run, of any length and
any interleaving, with no call in progress: the filled structs and the registry
entries correspond one to one, each entry has the size of its struct, the live
blocks are the registered ones, and once every struct has been freed nothing
is registered and nothing is live. -/
theorem conforming_tracking (slots : SlotId → IGPixelBuffer) (w : World)
    (h : Reached step Conforming (.initial slots) w) (hquiet : w.calls = ∅) :
    (∀ s, filled w.history s = true → ∃ entry,
      w.registry.entries.lookup (w.slots s).data = some entry ∧
      (entry.size:ℤ) = (w.slots s).height.toInt*(w.slots s).stride.toInt) ∧
    (∀ s t, filled w.history s = true → filled w.history t = true →
      (w.slots s).data = (w.slots t).data → s = t) ∧
    (∀ p, p ∈ w.registry.entries ↔ ∃ s, filled w.history s = true ∧ (w.slots s).data = p) ∧
    (∀ p, p ∈ w.memory.live ↔ p ∈ w.registry.entries) ∧
    ((∀ s, filled w.history s = false) → w.registry.entries = ∅ ∧ w.memory.live = ∅) := by
  have ht := reached_tracked h
  have hlook : ∀ c, w.calls.lookup c = none := fun c => by rw [hquiet]; exact Finmap.lookup_empty c
  have hidle : ∀ s, Idle w s := by
    intro s c call hc
    rw [hlook c] at hc
    cases hc
  have hholds : ∀ s, filled w.history s = true →
      slotHolds w.history w.slots s = some (w.slots s).data := by
    intro s hs
    obtain ⟨p, hp⟩ := Option.ne_none_iff_exists'.mp ((ht.settled s (hidle s)).mp hs)
    rw [hp, (slotHolds_some hp).2.1]
  have hkeys : ∀ p, p ∈ w.registry.entries ↔
      ∃ s, filled w.history s = true ∧ (w.slots s).data = p := by
    intro p
    constructor
    · intro hp
      obtain ⟨o, ho⟩ := (ht.holders.covers p).mp hp
      cases o with
      | inl s =>
        refine ⟨s, (ht.settled s (hidle s)).mpr ?_, (slotHolds_some ho).2.1⟩
        rw [show slotHolds w.history w.slots s = some p from ho]
        simp
      | inr c => exact absurd ho (by simp [holders, holder, hlook c])
    · rintro ⟨s, hs, rfl⟩
      exact ht.holders.mem (o := .inl s) (hholds s hs)
  have hlive : ∀ p, p ∈ w.memory.live ↔ p ∈ w.registry.entries := by
    intro p
    constructor
    · intro hp
      by_contra hkey
      obtain ⟨c, hc⟩ := (ht.disciplined.holders.covers p).mp ⟨hp, hkey⟩
      exact absurd hc (by simp [owned, holder, hlook c])
    · exact ht.disciplined.keys_live p
  refine ⟨?_, ?_, hkeys, hlive, ?_⟩
  · exact fun s hs => ht.sized s _ (hholds s hs)
  · intro s t hs hst heq
    have hboth := ht.holders.exclusive (.inl s) (.inl t) _ (hholds s hs) (heq ▸ hholds t hst)
    exact Sum.inl.inj hboth
  · intro hnone
    have hnokey : ∀ p, p ∉ w.registry.entries := by
      intro p hp
      obtain ⟨s, hs, -⟩ := (hkeys p).mp hp
      rw [hnone s] at hs
      cases hs
    constructor <;> apply Finmap.ext_lookup <;> intro p
    · rw [Finmap.lookup_eq_none.mpr (hnokey p), Finmap.lookup_empty]
    · rw [Finmap.lookup_eq_none.mpr (fun hp => hnokey p ((hlive p).mp hp)), Finmap.lookup_empty]

def refill : List Action :=
  decodeAt 0 0 8++decodeAt 1 1 16++[.beginFree 0 (some 0), .advance 0 null, .advance 0 null,
    .advance 0 null, .beginDecode 0 (some 0) (servingEnv pixel) igStringRefNull 0]++
  decodeAt 0 0 8++[.beginFree 1 (some 1), .advance 1 null, .advance 1 null, .advance 1 null]

theorem conforming_tracking_refill :
    ∃ w, run step refill (.initial fun _ => emptyBuffer) = some w ∧
      (∀ p, p ∈ w.memory.live ↔ p ∈ w.registry.entries) ∧
      ∃ entry, w.registry.entries.lookup (w.slots 0).data = some entry ∧
        (entry.size:ℤ) = (w.slots 0).height.toInt*(w.slots 0).stride.toInt := by
  obtain ⟨w, hw⟩ : ∃ w, run step refill (.initial fun _ => emptyBuffer) = some w :=
    Option.isSome_iff_exists.mp (by decide)
  have hkeys : (run step refill (.initial fun _ => emptyBuffer)).map (fun w => w.calls.keys) =
      some ∅ := by decide
  have hfilled : (run step refill (.initial fun _ => emptyBuffer)).map
      (fun w => filled w.history 0) = some true := by decide
  rw [hw] at hkeys hfilled
  have hquiet : w.calls = ∅ := by
    apply Finmap.ext_lookup
    intro c
    have hnone : w.calls.keys = ∅ := Option.some.inj hkeys
    rw [Finmap.lookup_empty, Finmap.lookup_eq_none, ← Finmap.mem_keys, hnone]
    exact Finset.notMem_empty c
  obtain ⟨hentry, -, -, hlive, -⟩ := conforming_tracking _ w ⟨refill, hw, by decide⟩ hquiet
  exact ⟨w, hw, hlive, hentry 0 (Option.some.inj hfilled)⟩

end IthmbPlugin.Tracking
