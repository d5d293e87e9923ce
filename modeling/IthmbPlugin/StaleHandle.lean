import IthmbPlugin.Discipline

/-!
# Stale handles

The registry knows a buffer by its address alone. A host that keeps copies of a
filled struct can free a copy after the original, and malloc may by then have
given the address to another decode: the copy then releases that buffer. As
long as no free call finds its address registered for another allocation, every
buffer that was handed out and not freed stays live and registered.
-/

set_option autoImplicit false

namespace IthmbPlugin.StaleHandle
open IthmbPlugin.Types IthmbPlugin.Registry IthmbPlugin.Allocator IthmbPlugin.Decode
open IthmbPlugin.Ownership IthmbPlugin.Runs IthmbPlugin.Calls IthmbPlugin.Discipline
open IthmbPlugin.DecodeContract
open IthmbPlugin.AllocTrace (mallocs)

/-- A decode call has returned the allocation in some struct. -/
def HandedOut (h : List HostEvent) (k : ℕ) (p : Addr) : Prop := ∃ s, .published s (some k) p ∈ h

def Surrendered (h : List HostEvent) (k : ℕ) : Prop := ∃ s, .surrendered s (some k) ∈ h

/-- What was handed out and not freed is still allocated and registered. -/
def OutstandingKept (w : World) : Prop :=
  ∀ k p, HandedOut w.history k p → ¬ Surrendered w.history k →
    w.memory.serialAt p = some k ∧ p ∈ w.registry.entries

/-- The host copies structs and resets them, and forges no pointer. -/
def CopyingHost (w : World) : Action → Prop
  | .hostWrite _ b => b.data = null
  | .advance _ answer => answer = null ∨ answer ∉ w.memory.live
  | _ => True

def handle : Call → Option (Addr × Option ℕ)
  | .cleared _ p origin => some (p,origin)
  | _ => none

/-- When a free call looks its address up, the address is not registered for
another allocation than the one the handle was made for. -/
def NotReused (w : World) : Action → Prop
  | .advance c _ => ∀ x ∈ holder handle w.calls c,
    x.1 ∈ w.registry.entries → w.memory.serialAt x.1 = x.2
  | _ => True

instance (w : World) : (a : Action) → Decidable (CopyingHost w a)
  | .hostWrite _ b => inferInstanceAs (Decidable (b.data = null))
  | .hostCopy .. => isTrue trivial
  | .beginDecode .. => isTrue trivial
  | .beginFree .. => isTrue trivial
  | .advance _ answer => inferInstanceAs (Decidable (answer = null ∨ answer ∉ w.memory.live))

instance (w : World) : (a : Action) → Decidable (NotReused w a)
  | .hostWrite .. => isTrue trivial
  | .hostCopy .. => isTrue trivial
  | .beginDecode .. => isTrue trivial
  | .beginFree .. => isTrue trivial
  | .advance c _ => inferInstanceAs (Decidable (∀ x ∈ holder handle w.calls c, _))

def pendingPtr : Call → Option Addr
  | .allocated _ _ p => some p
  | .copied _ _ p => some p
  | .registered _ _ p => some p
  | _ => none

def enteredPtr : Call → Option Addr
  | .registered _ _ p => some p
  | _ => none

def Genuine (h : List HostEvent) (origin : Option ℕ) : Prop :=
  ∃ k, origin = some k ∧ Surrendered h k ∧ ∃ p, HandedOut h k p

def Unseen (w : World) (p : Addr) : Prop :=
  ∃ k, w.memory.serialAt p = some k ∧ ∀ q, ¬ HandedOut w.history k q

structure Handled (w : World) : Prop where
  kept : OutstandingKept w
  allocated : ∀ s p, .published s none p ∉ w.history
  issued : ∀ k p, HandedOut w.history k p → k < mallocs w.memory.trace
  origins : ∀ s k, w.origins s = some k → ∃ p, HandedOut w.history k p
  known : ∀ s, (w.slots s).data ≠ null → w.origins s ≠ none
  genuine : ∀ c x, holder handle w.calls c = some x → Genuine w.history x.2
  pending : ∀ c p, holder pendingPtr w.calls c = some p → Unseen w p
  apart : ∀ c d p, holder pendingPtr w.calls c = some p → holder pendingPtr w.calls d = some p →
    c = d
  entered : ∀ c p, holder enteredPtr w.calls c = some p → p ∈ w.registry.entries

section Parts
variable {w : World} {c : CallId} {p : Addr}

theorem Unseen.live (h : Unseen w p) : p ∈ w.memory.live := by
  obtain ⟨k, hk, -⟩ := h
  exact serialAt_live hk

theorem pending_of_entered {calls : Finmap (fun _ : CallId => Call)}
    (h : holder enteredPtr calls c = some p) : holder pendingPtr calls c = some p := by
  obtain ⟨call, hcall, hptr⟩ := holder_some h
  rw [holder_of_lookup hcall]
  cases call <;> first | exact hptr | cases hptr

theorem Handled.setCall (h : Handled w) {call : Call}
    (hhandle : ∀ x, handle call = some x → Genuine w.history x.2)
    (hpending : ∀ p, pendingPtr call = some p →
      Unseen w p ∧ ∀ d, d ≠ c → holder pendingPtr w.calls d ≠ some p)
    (hentered : ∀ p, enteredPtr call = some p → p ∈ w.registry.entries) :
    Handled (w.setCall c call) := by
  refine { h with genuine := ?_, pending := ?_, apart := ?_, entered := ?_ }
  · intro d x hx
    rcases holder_insert_some hx with ⟨-, hx⟩ | ⟨-, hx⟩
    · exact hhandle x hx
    · exact h.genuine d x hx
  · intro d p hp
    rcases holder_insert_some hp with ⟨-, hp⟩ | ⟨-, hp⟩
    · exact (hpending p hp).1
    · exact h.pending d p hp
  · intro d e p hd he
    rcases holder_insert_some hd with ⟨hdc, hd'⟩ | ⟨hdc, hd'⟩ <;>
      rcases holder_insert_some he with ⟨hec, he'⟩ | ⟨hec, he'⟩
    · rw [hdc, hec]
    · exact absurd he' ((hpending p hd').2 e hec)
    · exact absurd hd' ((hpending p he').2 d hdc)
    · exact h.apart d e p hd' he'
  · intro d p hp
    rcases holder_insert_some hp with ⟨-, hp⟩ | ⟨-, hp⟩
    · exact hentered p hp
    · exact h.entered d p hp

theorem Handled.erase (h : Handled w) (c : CallId) :
    Handled { w with calls := w.calls.erase c } :=
  { h with
    genuine := fun d x hx => h.genuine d x (holder_erase_some hx).2
    pending := fun d p hp => h.pending d p (holder_erase_some hp).2
    apart := fun d e p hd he => h.apart d e p (holder_erase_some hd).2 (holder_erase_some he).2
    entered := fun d p hp => h.entered d p (holder_erase_some hp).2 }

theorem Surrendered.cons {h : List HostEvent} {k : ℕ} (hs : Surrendered h k) (e : HostEvent) :
    Surrendered (e::h) k := hs.imp (fun _ ht => List.mem_cons_of_mem e ht)

theorem HandedOut.cons {h : List HostEvent} {k : ℕ} (hp : HandedOut h k p) (e : HostEvent) :
    HandedOut (e::h) k p := hp.imp (fun _ ht => List.mem_cons_of_mem e ht)

theorem Genuine.cons {h : List HostEvent} {origin : Option ℕ} (hg : Genuine h origin)
    (e : HostEvent) : Genuine (e::h) origin := by
  obtain ⟨k, hk, hs, p, hp⟩ := hg
  exact ⟨k, hk, hs.cons e, p, hp.cons e⟩

theorem Handled.record (h : Handled w) {e : HostEvent} (he : ∀ s k p, e ≠ .published s k p) :
    Handled (w.record e) :=
  have hold : ∀ s k p, .published s k p ∈ e::w.history → .published s k p ∈ w.history :=
    fun s k p hmem => (List.mem_cons.mp hmem).resolve_left (he s k p).symm
  have hout : ∀ k p, HandedOut (e::w.history) k p → HandedOut w.history k p :=
    fun k p hk => hk.imp fun s hs => hold s (some k) p hs
  { h with
    kept := fun k p hk hs => h.kept k p (hout k p hk) (fun hb => hs (hb.cons e))
    allocated := fun s p hmem => h.allocated s p (hold s none p hmem)
    issued := fun k p hk => h.issued k p (hout k p hk)
    origins := fun s k hk => (h.origins s k hk).imp (fun p hp => hp.cons e)
    genuine := fun c x hx => (h.genuine c x hx).cons e
    pending := by
      intro c p hp
      obtain ⟨k, hk, hnew⟩ := h.pending c p hp
      exact ⟨k, hk, fun q hq => hnew q (hout k q hq)⟩ }

theorem Handled.refuse (h : Handled w) (slot : Option SlotId) (status : IGStatus) :
    Handled (w.record (.refused slot status)) := h.record (by simp)

theorem Handled.freed (h : Handled w) (slot : Option SlotId) : Handled (w.record (.freed slot)) :=
  h.record (by simp)

theorem Handled.writeSlot (h : Handled w) (s : SlotId) {b : IGPixelBuffer} {origin : Option ℕ}
    (horigin : ∀ k, origin = some k → ∃ p, HandedOut w.history k p)
    (hknown : b.data ≠ null → origin ≠ none) : Handled (w.writeSlot s b origin) := by
  refine { h with origins := ?_, known := ?_ } <;> intro t
  · intro k hk
    change Function.update w.origins s origin t = some k at hk
    by_cases ht : t = s
    · rw [ht, Function.update_self] at hk
      exact horigin k hk
    · rw [Function.update_of_ne ht] at hk
      exact h.origins t k hk
  · change (Function.update w.slots s b t).data ≠ null → Function.update w.origins s origin t ≠ none
    by_cases ht : t = s
    · rw [ht, Function.update_self, Function.update_self]
      exact hknown
    · rw [Function.update_of_ne ht, Function.update_of_ne ht]
      exact h.known t

theorem Handled.remember (h : Handled w) {m : Memory}
    (hcount : mallocs w.memory.trace ≤ mallocs m.trace)
    (hkeys : ∀ p, p ∈ w.registry.entries → m.serialAt p = w.memory.serialAt p)
    (hpend : ∀ c p, holder pendingPtr w.calls c = some p →
      m.serialAt p = w.memory.serialAt p) : Handled { w with memory := m } :=
  { h with
    kept := by
      intro k p hk hs
      obtain ⟨hserial, hkey⟩ := h.kept k p hk hs
      exact ⟨(hkeys p hkey).trans hserial, hkey⟩
    issued := fun k p hk => (h.issued k p hk).trans_le hcount
    pending := by
      intro c p hp
      obtain ⟨k, hk, hnew⟩ := h.pending c p hp
      exact ⟨k, (hpend c p hp).trans hk, hnew⟩ }

theorem Handled.alloc (h : Handled w) (hd : Disciplined w) (hp : p ≠ null)
    (hfresh : p ∉ w.memory.live) (size : ℕ) :
    Handled { w with memory := pixelBufferAlloc p size w.memory } := by
  refine h.remember ?_ ?_ ?_
  · rw [alloc_trace hp]
    exact Nat.le_succ _
  · intro q hq
    exact alloc_serialAt_other hp (fun he => hfresh (he ▸ hd.keys_live q hq)) size w.memory
  · intro c q hq
    exact alloc_serialAt_other hp (fun he => hfresh (he ▸ (h.pending c q hq).live)) size w.memory

theorem Handled.copy (h : Handled w) (src : List UInt8) (dst : Addr) (count : ℕ) :
    Handled { w with memory := copyNonoverlapping src dst count w.memory } :=
  h.remember (le_refl _) (fun _ _ => copy_serialAt ..) (fun _ _ _ => copy_serialAt ..)

theorem Handled.free (h : Handled w) (hd : Disciplined w) (hown : owned w c = some p)
    (hnone : holder pendingPtr w.calls c = none) :
    Handled { w with memory := pixelBufferFree p w.memory } := by
  have hkey := (hd.owned_live hown).2
  refine h.remember (le_refl _) ?_ ?_
  · intro q hq
    exact free_serialAt_other (fun he : q = p => hkey (he ▸ hq)) w.memory
  · intro d q hq
    refine free_serialAt_other (fun he => ?_) w.memory
    subst he
    obtain ⟨call, hcall, hptr⟩ := holder_some hq
    have hdc : d ≠ c := by
      rintro rfl
      rw [hnone] at hq
      cases hq
    cases call with
    | allocated s f r =>
      exact hdc (hd.holders.exclusive d c q ((holder_of_lookup hcall).trans hptr) hown)
    | copied s f r =>
      exact hdc (hd.holders.exclusive d c q ((holder_of_lookup hcall).trans hptr) hown)
    | registered s f r => exact hkey (h.entered d q ((holder_of_lookup hcall).trans hptr))
    | decoding s f => cases hptr
    | rejected s r => cases hptr
    | freeing s => cases hptr
    | cleared s r o => cases hptr
    | unregistered s r => cases hptr

theorem Handled.track (h : Handled w) (p : Addr) (size : ℕ) :
    Handled { w with registry := w.registry.track p size } :=
  { h with
    kept := by
      intro k q hk hs
      obtain ⟨hserial, hkey⟩ := h.kept k q hk hs
      exact ⟨hserial, Finmap.mem_insert.mpr (Or.inr hkey)⟩
    entered := fun c q hq => Finmap.mem_insert.mpr (Or.inr (h.entered c q hq)) }

theorem Handled.untrack (h : Handled w) {k : ℕ} (hk : w.memory.serialAt p = some k)
    (hs : Surrendered w.history k) (hout : ∃ q, HandedOut w.history k q) :
    Handled { w with registry := w.registry.untrack p } :=
  { h with
    kept := by
      intro j q hj hjs
      obtain ⟨hserial, hkey⟩ := h.kept j q hj hjs
      refine ⟨hserial, Finmap.mem_erase.mpr ⟨?_, hkey⟩⟩
      rintro rfl
      cases hk.symm.trans hserial
      exact hjs hs
    entered := by
      intro c q hq
      refine Finmap.mem_erase.mpr ⟨?_, h.entered c q hq⟩
      rintro rfl
      obtain ⟨j, hj, hnew⟩ := h.pending c q (pending_of_entered hq)
      cases hk.symm.trans hj
      obtain ⟨r, hr⟩ := hout
      exact hnew r hr }

theorem handedOut_published {h : List HostEvent} {s : SlotId} {j k : ℕ} {q : Addr} :
    HandedOut (.published s (some j) p::h) k q ↔ (k = j ∧ q = p) ∨ HandedOut h k q := by
  constructor
  · rintro ⟨t, ht⟩
    rcases List.mem_cons.mp ht with he | ht
    · cases he
      exact Or.inl ⟨rfl, rfl⟩
    · exact Or.inr ⟨t, ht⟩
  · rintro (⟨rfl, rfl⟩ | ⟨t, ht⟩)
    · exact ⟨s, List.mem_cons_self⟩
    · exact ⟨t, List.mem_cons_of_mem _ ht⟩

theorem Handled.handOut (h : Handled w) (s : SlotId) {j : ℕ} (hj : w.memory.serialAt p = some j)
    (hkey : p ∈ w.registry.entries) (hfree : ∀ c, holder pendingPtr w.calls c ≠ some p) :
    Handled (w.record (.published s (some j) p)) := by
  refine { h with
    kept := ?_, allocated := ?_, issued := ?_, origins := ?_, genuine := ?_, pending := ?_ }
  · intro k q hq hs
    rcases handedOut_published.mp hq with ⟨rfl, rfl⟩ | hq
    · exact ⟨hj, hkey⟩
    · exact h.kept k q hq (fun hb => hs (hb.cons _))
  · exact fun t q hmem => h.allocated t q ((List.mem_cons.mp hmem).resolve_left (by simp))
  · intro k q hq
    rcases handedOut_published.mp hq with ⟨rfl, rfl⟩ | hq
    · exact serialAt_lt hj
    · exact h.issued k q hq
  · exact fun t k hk => (h.origins t k hk).imp (fun q hq => hq.cons _)
  · exact fun c x hx => (h.genuine c x hx).cons _
  · intro c q hq
    obtain ⟨k, hk, hnew⟩ := h.pending c q hq
    refine ⟨k, hk, ?_⟩
    intro r hr
    rcases handedOut_published.mp hr with ⟨rfl, -⟩ | hr
    · have hqp : q = p := serialAt_injective hk hj
      exact hfree c (hqp ▸ hq)
    · exact hnew r hr

theorem Handled.publish (h : Handled w) {s : SlotId} {f : Frame}
    (hc : w.calls.lookup c = some (.registered s f p)) :
    Handled ((w.writeSlot s (f.publish p) (w.memory.serialAt p)).endCall c
      (.published s (w.memory.serialAt p) p)) := by
  have hpend : holder pendingPtr w.calls c = some p := holder_of_lookup hc
  have hkey : p ∈ w.registry.entries := h.entered c p (holder_of_lookup hc)
  obtain ⟨j, hj, -⟩ := h.pending c p hpend
  rw [hj]
  have hfree : ∀ d, holder pendingPtr (w.calls.erase c) d ≠ some p := by
    intro d hd
    obtain ⟨hdc, hd⟩ := holder_erase_some hd
    exact hdc (h.apart d c p hd hpend)
  have hout := (h.erase c).handOut s hj hkey hfree
  refine hout.writeSlot s ?_ (by simp)
  intro k hk
  cases hk
  exact ⟨p, s, List.mem_cons_self⟩

theorem Handled.take (h : Handled w) (s : SlotId) : Handled (w.taken s) := by
  have hclear : Handled (w.writeSlot s (clearedBuffer (w.slots s)) none) :=
    h.writeSlot s (by simp) (fun hn => absurd rfl hn)
  exact hclear.record (by simp)

theorem Handled.genuine_taken (h : Handled w) {s : SlotId} (hs : (w.slots s).data ≠ null) :
    Genuine (w.taken s).history (w.origins s) := by
  obtain ⟨k, hk⟩ := Option.ne_none_iff_exists'.mp (h.known s hs)
  obtain ⟨p, t, ht⟩ := h.origins s k hk
  exact ⟨k, hk, ⟨s, by rw [← hk]; exact List.mem_cons_self⟩, p, t, List.mem_cons_of_mem _ ht⟩

end Parts

theorem initial_handled {slots : SlotId → IGPixelBuffer} (hslots : ∀ s, (slots s).data = null) :
    Handled (.initial slots) where
  kept := by rintro k p ⟨s, hs⟩; cases hs
  allocated s p hs := by cases hs
  issued := by rintro k p ⟨s, hs⟩; cases hs
  origins s k hk := by cases hk
  known s hs := absurd (hslots s) hs
  genuine c x hx := by cases hx
  pending c p hp := by cases hp
  apart c d p hc := by cases hc
  entered c p hp := by cases hp

theorem advance_handled {w : World} (hd : Disciplined w) (h : Handled w) {c : CallId}
    {call : Call} (hc : w.calls.lookup c = some call) {answer : Addr}
    (hfresh : answer = null ∨ answer ∉ w.memory.live)
    (hreused : NotReused w (.advance c answer)) : Handled (w.advance c answer call) := by
  have hown : owned w c = ownedPtr call := holder_of_lookup hc
  have hpend : holder pendingPtr w.calls c = pendingPtr call := holder_of_lookup hc
  cases call with
  | decoding s f =>
    by_cases hp : answer = null
    · simp only [World.advance, if_pos hp]
      rw [hp, alloc_null]
      exact (h.erase c).refuse _ _
    · simp only [World.advance, if_neg hp]
      have hlive := hfresh.resolve_left hp
      have hcount : Unseen { w with memory := pixelBufferAlloc answer f.bufSize w.memory } answer :=
        ⟨_, alloc_serialAt hp f.bufSize w.memory,
          fun q hq => absurd (h.issued _ q hq) (Nat.lt_irrefl _)⟩
      refine (h.alloc hd hp hlive f.bufSize).setCall (by simp [handle]) ?_ (by simp [enteredPtr])
      intro q hq
      cases hq
      exact ⟨hcount, fun d _ hd => hlive (h.pending d answer hd).live⟩
  | allocated s f p =>
    simp only [World.advance]
    have hcopy := h.copy f.data p f.bufSize
    refine hcopy.setCall (by simp [handle]) ?_ (by simp [enteredPtr])
    intro q hq
    cases hq
    exact ⟨hcopy.pending c p hpend, fun d hne hd => hne (h.apart d c p hd hpend)⟩
  | copied s f p =>
    simp only [World.advance, hd.registers hown]
    have htrack := h.track p f.bufSize
    refine htrack.setCall (by simp [handle]) ?_ ?_
    · intro q hq
      cases hq
      exact ⟨htrack.pending c p hpend, fun d hne hd => hne (h.apart d c p hd hpend)⟩
    · intro q hq
      cases hq
      exact Finmap.mem_insert.mpr (Or.inl rfl)
  | registered s f p => exact h.publish hc
  | rejected s p => exact ((h.free hd hown hpend).erase c).refuse _ _
  | freeing s =>
    by_cases hnull : (w.slots s).data = null
    · simp only [World.advance, if_pos hnull]
      exact ((h.take s).erase c).freed _
    · simp only [World.advance, if_neg hnull]
      refine (h.take s).setCall ?_ (by simp [pendingPtr]) (by simp [enteredPtr])
      intro x hx
      cases hx
      exact h.genuine_taken hnull
  | cleared s p origin =>
    rcases unregister_cases w.registry p with ⟨entry, -, hl, hreg⟩ | ⟨status, hreg, -⟩
    · simp only [World.advance, hreg]
      have hkey : p ∈ w.registry.entries := Finmap.mem_of_lookup_eq_some hl
      have hhandle : holder handle w.calls c = some (p,origin) := holder_of_lookup hc
      obtain ⟨k, hk, hs, hout⟩ := h.genuine c _ hhandle
      have hserial : w.memory.serialAt p = some k := (hreused _ hhandle hkey).trans hk
      exact (h.untrack hserial hs hout).setCall (by simp [handle]) (by simp [pendingPtr])
        (by simp [enteredPtr])
    · simp only [World.advance, hreg]
      exact (h.erase c).freed _
  | unregistered s p => exact ((h.free hd hown hpend).erase c).freed _

theorem step_handled (w : World) (a : Action) (w' : World) (h : Disciplined w ∧ Handled w)
    (hok : CopyingHost w a ∧ NotReused w a) (hs : step w a = some w') :
    Disciplined w' ∧ Handled w' := by
  obtain ⟨hd, hh⟩ := h
  have hfresh : MallocFresh w a := by
    cases a with
    | advance c answer => exact hok.1
    | hostWrite s b => trivial
    | hostCopy source target => trivial
    | beginDecode c slot env path frameIndex => trivial
    | beginFree c slot => trivial
  refine ⟨step_disciplined w a w' hd hfresh hs, ?_⟩
  rcases step_cases hs with ⟨s, b, rfl, rfl⟩ | ⟨source, target, rfl, rfl⟩ |
    ⟨c, slot, env, path, frameIndex, rfl, -, ⟨status, rfl, -⟩ | ⟨s, f, rfl, rfl⟩⟩ |
    ⟨c, rfl, rfl⟩ | ⟨c, s, rfl, -, rfl⟩ | ⟨c, answer, call, rfl, hc, rfl⟩
  · exact hh.writeSlot s (by simp) (fun hn => absurd hok.1 hn)
  · exact hh.writeSlot target (hh.origins source) (hh.known source)
  · exact hh.refuse _ _
  · exact hh.setCall (by simp [handle]) (by simp [pendingPtr]) (by simp [enteredPtr])
  · exact hh.freed _
  · exact hh.setCall (by simp [handle]) (by simp [pendingPtr]) (by simp [enteredPtr])
  · exact advance_handled hd hh hc hok.1 hok.2

/-- In every run in which no free call finds its address registered for another
allocation, what was handed out and not freed stays allocated and registered,
and no decode call has returned a block that was lost before. -/
theorem outstanding_kept (slots : SlotId → IGPixelBuffer) (hslots : ∀ s, (slots s).data = null)
    (w : World)
    (h : Reached step (fun w a => CopyingHost w a ∧ NotReused w a) (.initial slots) w) :
    OutstandingKept w ∧ ∀ s p, .published s none p ∉ w.history := by
  have hinv : Disciplined w ∧ Handled w :=
    @reached_invariant _ _ step _ (fun w => Disciplined w ∧ Handled w) _ _
      ⟨initial_disciplined slots, initial_handled hslots⟩ step_handled h
  exact ⟨hinv.2.kept, hinv.2.allocated⟩

/-- The lookup of a free call loses a buffer exactly when its address is that
of a buffer handed out and not freed. -/
theorem lookup_keeps_iff {w : World} (hd : Disciplined w) (h : Handled w) (c : CallId)
    (answer : Addr) (s : SlotId) (p : Addr) (origin : Option ℕ) :
    OutstandingKept (w.advance c answer (.cleared s p origin)) ↔
      ¬ ∃ k, HandedOut w.history k p ∧ ¬ Surrendered w.history k := by
  rcases unregister_cases w.registry p with ⟨entry, -, hl, hreg⟩ | ⟨status, hreg, hwhy⟩
  · simp only [World.advance, hreg]
    constructor
    · rintro hkept ⟨k, hk, hs⟩
      exact (Finmap.mem_erase.mp (hkept k p hk hs).2).1 rfl
    · intro hnone k q hk hs
      obtain ⟨hserial, hkey⟩ := h.kept k q hk hs
      refine ⟨hserial, Finmap.mem_erase.mpr ⟨?_, hkey⟩⟩
      rintro rfl
      exact hnone ⟨k, hk, hs⟩
  · simp only [World.advance, hreg]
    have hkey : p ∉ w.registry.entries :=
      hwhy.resolve_left (fun hpois => absurd (hd.healthy.symm.trans hpois) (by decide))
    constructor
    · rintro - ⟨k, hk, hs⟩
      exact hkey (h.kept k p hk hs).2
    · exact fun _ => ((h.erase c).freed (some s)).kept

def freeOf (c : CallId) (s : SlotId) : List Action :=
  [.beginFree c (some s), .advance c null, .advance c null, .advance c null]

def freeCopy (second : Addr) : List Action :=
  decodeAt 0 0 8++[.hostCopy 0 1]++freeOf 0 0++decodeAt 0 2 second++
    [.beginFree 0 (some 1), .advance 0 null, .advance 0 null]

theorem outstanding_kept_elsewhere :
    ∃ w, run step (freeCopy 16) (.initial fun _ => emptyBuffer) = some w ∧
      w.memory.serialAt 16 = some 1 ∧ 16 ∈ w.registry.entries := by
  obtain ⟨w, hw⟩ : ∃ w, run step (freeCopy 16) (.initial fun _ => emptyBuffer) = some w :=
    Option.isSome_iff_exists.mp (by decide)
  have hhist : (run step (freeCopy 16) (.initial fun _ => emptyBuffer)).map World.history =
      some [.freed (some 1), .surrendered 1 (some 0), .published 2 (some 1) 16,
        .freed (some 0), .surrendered 0 (some 0), .published 0 (some 0) 8] := by decide
  rw [hw] at hhist
  have hh := Option.some.inj hhist
  refine ⟨w, hw, (outstanding_kept _ (fun _ => rfl) w ⟨freeCopy 16, hw, by decide⟩).1 1 16
    ⟨2, ?_⟩ ?_⟩
  · rw [hh]
    decide
  · rintro ⟨s, hs⟩
    rw [hh] at hs
    simp at hs

/-- With the freed address reused, the copy releases the second buffer, which
the host was handed and has not freed. -/
theorem outstanding_lost_reused :
    ¬ ∀ slots : SlotId → IGPixelBuffer, (∀ s, (slots s).data = null) →
      ∀ w, Reached step CopyingHost (.initial slots) w → OutstandingKept w := by
  intro h
  obtain ⟨w, hw⟩ : ∃ w, run step (freeCopy 8) (.initial fun _ => emptyBuffer) = some w :=
    Option.isSome_iff_exists.mp (by decide)
  have hhist : (run step (freeCopy 8) (.initial fun _ => emptyBuffer)).map World.history =
      some [.surrendered 1 (some 0), .published 2 (some 1) 8,
        .freed (some 0), .surrendered 0 (some 0), .published 0 (some 0) 8] := by decide
  have hreg : (run step (freeCopy 8) (.initial fun _ => emptyBuffer)).map
      (fun w => decide (8 ∈ w.registry.entries)) = some false := by decide
  rw [hw] at hhist hreg
  have hh := Option.some.inj hhist
  have hkept := h _ (fun _ => rfl) w ⟨freeCopy 8, hw, by decide⟩ 1 8 ⟨2, by rw [hh]; decide⟩ (by
    rintro ⟨s, hs⟩
    rw [hh] at hs
    simp at hs)
  exact of_decide_eq_false (Option.some.inj hreg) hkept.2

end IthmbPlugin.StaleHandle
