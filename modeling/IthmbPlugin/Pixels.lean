import IthmbPlugin.StaleHandle

/-!
# The pixels of a published buffer

The only write into a block is the copy a decode call makes before it registers
the block. From then on nothing the plugin does for any caller changes a byte
of it, until the allocation itself is given back. Allocations are told apart by
their numbers: malloc may reuse the address afterwards.
-/

set_option autoImplicit false

namespace IthmbPlugin.Pixels
open IthmbPlugin.Types IthmbPlugin.Registry IthmbPlugin.Allocator IthmbPlugin.Decode
open IthmbPlugin.Ownership IthmbPlugin.Runs IthmbPlugin.Calls IthmbPlugin.Discipline
open IthmbPlugin.DecodeContract IthmbPlugin.StaleHandle
open IthmbPlugin.AllocTrace (mallocs)

structure Content where
  size : ℕ
  bytes : List UInt8
  deriving DecidableEq, Repr

def contentOf (b : Block) : Content := { size := b.size, bytes := b.bytes }

def contentAt (m : Memory) (p : Addr) : Option Content := (m.live.lookup p).map contentOf

/-- The bytes of a frame as the copy brings them over. -/
def pixels (f : Frame) : Content where
  size := f.bufSize
  bytes := f.data.take f.bufSize

section Heap
variable {m : Memory} {p q : Addr} {k : ℕ}

theorem alloc_older (hk : k < mallocs m.trace) (size : ℕ)
    (h : (pixelBufferAlloc q size m).serialAt p = some k) :
    (pixelBufferAlloc q size m).live.lookup p = m.live.lookup p := by
  by_cases hq : q = null
  · rw [hq, alloc_null]
  · rw [alloc_live hq]
    by_cases hp : p = q
    · rw [hp, alloc_serialAt hq] at h
      exact absurd (Option.some.inj h) (Nat.ne_of_gt hk)
    · exact Finmap.lookup_insert_of_ne _ hp

theorem free_other (h : (pixelBufferFree q m).serialAt p = some k) :
    (pixelBufferFree q m).live.lookup p = m.live.lookup p := by
  obtain ⟨b, hb, -⟩ := Option.map_eq_some_iff.mp h
  exact Finmap.lookup_erase_ne (lookup_erase_some hb).1

theorem serialAt_of_lookup {m' : Memory} (h : m'.live.lookup p = m.live.lookup p) :
    m'.serialAt p = m.serialAt p := by
  rw [Memory.serialAt, h, Memory.serialAt]

theorem contentAt_alloc (hq : q ≠ null) (size : ℕ) :
    contentAt (pixelBufferAlloc q size m) q = some { size := size, bytes := [] } := by
  rw [contentAt, alloc_live hq, Finmap.lookup_insert]
  rfl

theorem contentAt_alloc_other (hp : p ∈ m.live) (hq : q = null ∨ q ∉ m.live) (size : ℕ) :
    contentAt (pixelBufferAlloc q size m) p = contentAt m p := by
  rcases hq with rfl | hq
  · rw [alloc_null]
  · have hne : p ≠ q := fun he => hq (he ▸ hp)
    by_cases hnull : q = null
    · rw [hnull, alloc_null]
    · rw [contentAt, alloc_live hnull, Finmap.lookup_insert_of_ne _ hne, contentAt]

theorem contentAt_copy {content : Content} (h : contentAt m p = some content)
    (src : List UInt8) (count : ℕ) :
    contentAt (copyNonoverlapping src p count m) p =
      some { content with bytes := src.take count++content.bytes.drop count } := by
  obtain ⟨b, hb, rfl⟩ := Option.map_eq_some_iff.mp h
  simp only [contentAt, copyNonoverlapping, hb, Finmap.lookup_insert]
  rfl

theorem contentAt_copy_other (hp : p ≠ q) (src : List UInt8) (count : ℕ) :
    contentAt (copyNonoverlapping src q count m) p = contentAt m p := by
  rw [contentAt, copy_lookup_other hp, contentAt]

theorem contentAt_free_other (hp : p ≠ q) :
    contentAt (pixelBufferFree q m) p = contentAt m p := by
  rw [contentAt, pixelBufferFree, Finmap.lookup_erase_ne hp, contentAt]

end Heap

def inHand : Call → Option (Addr × Content)
  | .allocated _ f p => some (p,{ size := f.bufSize, bytes := [] })
  | .copied _ f p => some (p,pixels f)
  | _ => none

def Filled (w : World) : Prop :=
  ∀ c x, holder inHand w.calls c = some x → contentAt w.memory x.1 = some x.2

theorem inHand_owned {call : Call} {x : Addr × Content} (h : inHand call = some x) :
    ownedPtr call = some x.1 := by
  cases call <;> cases h <;> rfl

theorem inHand_holder {w : World} {c : CallId} {x : Addr × Content}
    (h : holder inHand w.calls c = some x) : owned w c = some x.1 := by
  obtain ⟨call, hcall, hx⟩ := holder_some h
  exact (holder_of_lookup hcall).trans (inHand_owned hx)

theorem filled_moved {w : World} {calls : Finmap (fun _ : CallId => Call)} {m : Memory}
    {c : CallId} (h : Filled w)
    (hcalls : ∀ d x, d ≠ c → holder inHand calls d = some x → holder inHand w.calls d = some x)
    (hself : ∀ x, holder inHand calls c = some x → contentAt m x.1 = some x.2)
    (hothers : ∀ d x, d ≠ c → holder inHand w.calls d = some x →
      contentAt m x.1 = contentAt w.memory x.1) :
    ∀ d x, holder inHand calls d = some x → contentAt m x.1 = some x.2 := by
  intro d x hx
  by_cases hd : d = c
  · subst hd
    exact hself x hx
  · have hold := hcalls d x hd hx
    rw [hothers d x hd hold]
    exact h d x hold

section Steps
variable {w : World} {c : CallId} {call : Call} {answer : Addr}

theorem inHand_apart (hd : Disciplined w) {d : CallId} {x : Addr × Content} {p : Addr}
    (hown : owned w c = some p) (hdc : d ≠ c) (hx : holder inHand w.calls d = some x) :
    x.1 ≠ p := by
  intro he
  exact hdc (hd.holders.exclusive d c p (he ▸ inHand_holder hx) hown)

theorem Filled.quiet (h : Filled w) {m : Memory} {call' : Call} (hnone : inHand call' = none)
    (hothers : ∀ d x, d ≠ c → holder inHand w.calls d = some x →
      contentAt m x.1 = contentAt w.memory x.1) :
    Filled ({ w with memory := m }.setCall c call') := by
  refine filled_moved h (fun d x hdc hx => ?_) (fun x hx => ?_) hothers
  · exact ((holder_insert_some hx).resolve_left (fun hs => hdc hs.1)).2
  · rcases holder_insert_some hx with ⟨-, hx⟩ | ⟨hne, -⟩
    · rw [hnone] at hx
      cases hx
    · exact absurd rfl hne

theorem Filled.finish (h : Filled w) {m : Memory} (e : HostEvent)
    (hothers : ∀ d x, d ≠ c → holder inHand w.calls d = some x →
      contentAt m x.1 = contentAt w.memory x.1) :
    Filled ({ w with memory := m }.endCall c e) :=
  filled_moved h (fun _ _ _ hx => (holder_erase_some hx).2)
    (fun _ hx => absurd rfl (holder_erase_some hx).1) hothers

theorem Filled.writes (h : Filled w) {m : Memory} {call' : Call} {x : Addr × Content}
    (hx : inHand call' = some x) (hcontent : contentAt m x.1 = some x.2)
    (hothers : ∀ d x, d ≠ c → holder inHand w.calls d = some x →
      contentAt m x.1 = contentAt w.memory x.1) :
    Filled ({ w with memory := m }.setCall c call') := by
  refine filled_moved h (fun d y hdc hy => ?_) (fun y hy => ?_) hothers
  · exact ((holder_insert_some hy).resolve_left (fun hs => hdc hs.1)).2
  · rcases holder_insert_some hy with ⟨-, hy⟩ | ⟨hne, -⟩
    · cases hx.symm.trans hy
      exact hcontent
    · exact absurd rfl hne

theorem advance_filled (hd : Disciplined w) (h : Filled w) (hc : w.calls.lookup c = some call)
    (hfresh : answer = null ∨ answer ∉ w.memory.live) : Filled (w.advance c answer call) := by
  have hown : owned w c = ownedPtr call := holder_of_lookup hc
  have hlive : ∀ {d x}, holder inHand w.calls d = some x → x.1 ∈ w.memory.live :=
    fun hx => (hd.owned_live (inHand_holder hx)).1
  cases call with
  | decoding s f =>
    have hothers := fun d x (_ : d ≠ c) (hx : holder inHand w.calls d = some x) =>
      contentAt_alloc_other (hlive hx) hfresh f.bufSize
    by_cases hp : answer = null
    · simp only [World.advance, if_pos hp]
      exact h.finish _ hothers
    · simp only [World.advance, if_neg hp]
      exact h.writes rfl (contentAt_alloc hp f.bufSize) hothers
  | allocated s f p =>
    have hempty : contentAt w.memory p = some { size := f.bufSize, bytes := [] } :=
      h c _ (holder_of_lookup hc)
    refine h.writes (x := (p,pixels f)) rfl ?_ (fun d x hdc hx => ?_)
    · rw [contentAt_copy hempty]
      simp [pixels]
    · exact contentAt_copy_other (inHand_apart hd hown hdc hx) ..
  | copied s f p =>
    simp only [World.advance, hd.registers hown]
    exact h.quiet rfl (fun _ _ _ _ => rfl)
  | registered s f p =>
    exact h.finish (.published s (w.memory.serialAt p) p) (fun _ _ _ _ => rfl)
  | rejected s p =>
    exact h.finish _ (fun d x hdc hx => contentAt_free_other (inHand_apart hd hown hdc hx))
  | freeing s =>
    simp only [World.advance]
    split_ifs with hnull
    · exact h.finish (.freed (some s)) (fun _ _ _ _ => rfl)
    · exact h.quiet rfl (fun _ _ _ _ => rfl)
  | cleared s p origin =>
    rcases unregister_cases w.registry p with ⟨entry, -, -, hreg⟩ | ⟨status, hreg, -⟩
    · simp only [World.advance, hreg]
      exact h.quiet rfl (fun _ _ _ _ => rfl)
    · simp only [World.advance, hreg]
      exact h.finish _ (fun _ _ _ _ => rfl)
  | unregistered s p =>
    exact h.finish _ (fun d x hdc hx => contentAt_free_other (inHand_apart hd hown hdc hx))

theorem step_filled (w : World) (a : Action) (w' : World) (h : Disciplined w ∧ Filled w)
    (hok : MallocFresh w a) (hs : step w a = some w') : Disciplined w' ∧ Filled w' := by
  obtain ⟨hd, hf⟩ := h
  refine ⟨step_disciplined w a w' hd hok hs, ?_⟩
  rcases step_cases hs with ⟨s, b, rfl, rfl⟩ | ⟨source, target, rfl, rfl⟩ |
    ⟨c, slot, env, path, frameIndex, rfl, -, ⟨status, rfl, -⟩ | ⟨s, f, rfl, rfl⟩⟩ |
    ⟨c, rfl, rfl⟩ | ⟨c, s, rfl, -, rfl⟩ | ⟨c, answer, call, rfl, hc, rfl⟩
  · exact hf
  · exact hf
  · exact hf
  · exact hf.quiet rfl (fun _ _ _ _ => rfl)
  · exact hf
  · exact hf.quiet rfl (fun _ _ _ _ => rfl)
  · exact advance_filled hd hf hc hok

end Steps

theorem reached_filled {slots : SlotId → IGPixelBuffer} {w : World}
    (h : Reached step MallocFresh (.initial slots) w) : Disciplined w ∧ Filled w :=
  @reached_invariant _ _ step _ (fun w => Disciplined w ∧ Filled w) _ _
    ⟨initial_disciplined slots, fun c x hx => by cases hx⟩ step_filled h

def writes : Call → Option Addr
  | .allocated _ _ p => some p
  | _ => none

/-- While the allocation lives its block is as it was, and no call is about to
write into it. -/
structure Intact (k : ℕ) (p : Addr) (b : Block) (w : World) : Prop where
  issued : k < mallocs w.memory.trace
  intact : w.memory.serialAt p = some k → w.memory.live.lookup p = some b
  unwritten : w.memory.serialAt p = some k → ∀ c, holder writes w.calls c ≠ some p

section Intact
variable {k : ℕ} {p : Addr} {b : Block} {w : World} {c : CallId} {call : Call} {answer : Addr}

theorem Intact.next (h : Intact k p b w) {w' : World}
    (hcount : mallocs w.memory.trace ≤ mallocs w'.memory.trace)
    (hsame : w'.memory.serialAt p = some k →
      w'.memory.live.lookup p = w.memory.live.lookup p)
    (hcalls : w'.memory.serialAt p = some k → ∀ d, holder writes w'.calls d = some p →
      holder writes w.calls d = some p) : Intact k p b w' where
  issued := h.issued.trans_le hcount
  intact hk := by
    have hlook := hsame hk
    rw [hlook]
    exact h.intact ((serialAt_of_lookup hlook).symm.trans hk)
  unwritten hk d hd :=
    h.unwritten ((serialAt_of_lookup (hsame hk)).symm.trans hk) d (hcalls hk d hd)

theorem writes_setCall {call' : Call} (hnone : writes call' ≠ some p) {d : CallId}
    (hd : holder writes (w.calls.insert c call') d = some p) :
    holder writes w.calls d = some p := by
  rcases holder_insert_some hd with ⟨-, hd⟩ | ⟨-, hd⟩
  · exact absurd hd hnone
  · exact hd

theorem advance_intact (h : Intact k p b w) (hc : w.calls.lookup c = some call) :
    Intact k p b (w.advance c answer call) := by
  have hmallocs : ∀ n, mallocs w.memory.trace ≤
      mallocs (pixelBufferAlloc answer n w.memory).trace := by
    intro n
    by_cases hnull : answer = null
    · rw [hnull, alloc_null]
    · rw [alloc_trace hnull]
      exact Nat.le_succ _
  cases call with
  | decoding s f =>
    by_cases hnull : answer = null
    · simp only [World.advance, if_pos hnull]
      exact h.next (hmallocs _) (alloc_older h.issued _) (fun _ d hd => (holder_erase_some hd).2)
    · simp only [World.advance, if_neg hnull]
      refine h.next (hmallocs _) (alloc_older h.issued _) (fun hk d hd => ?_)
      refine writes_setCall (fun he => ?_) hd
      cases he
      have hnew := (alloc_serialAt hnull f.bufSize w.memory).symm.trans hk
      exact absurd (Option.some.inj hnew) (Nat.ne_of_gt h.issued)
  | allocated s f q =>
    refine h.next (le_refl _) (fun hk => ?_) (fun _ d hd => writes_setCall (by simp [writes]) hd)
    have hold : w.memory.serialAt p = some k := (copy_serialAt ..).symm.trans hk
    have hne : p ≠ q := by
      rintro rfl
      exact h.unwritten hold c (holder_of_lookup hc)
    exact copy_lookup_other hne ..
  | copied s f q =>
    rcases register_cases w.registry q f.bufSize with ⟨-, -, hreg⟩ | ⟨status, hreg, -⟩ <;>
      simp only [World.advance, hreg]
    · exact h.next (le_refl _) (fun _ => rfl) (fun _ d hd => writes_setCall (by simp [writes]) hd)
    · exact h.next (le_refl _) (fun _ => rfl) (fun _ d hd => writes_setCall (by simp [writes]) hd)
  | registered s f q =>
    exact h.next (le_refl _) (fun _ => rfl) (fun _ d hd => (holder_erase_some hd).2)
  | rejected s q =>
    exact h.next (le_refl _) free_other (fun _ d hd => (holder_erase_some hd).2)
  | freeing s =>
    simp only [World.advance]
    split_ifs with hnull
    · exact h.next (le_refl _) (fun _ => rfl) (fun _ d hd => (holder_erase_some hd).2)
    · exact h.next (le_refl _) (fun _ => rfl) (fun _ d hd => writes_setCall (by simp [writes]) hd)
  | cleared s q origin =>
    rcases unregister_cases w.registry q with ⟨entry, -, -, hreg⟩ | ⟨status, hreg, -⟩ <;>
      simp only [World.advance, hreg]
    · exact h.next (le_refl _) (fun _ => rfl) (fun _ d hd => writes_setCall (by simp [writes]) hd)
    · exact h.next (le_refl _) (fun _ => rfl) (fun _ d hd => (holder_erase_some hd).2)
  | unregistered s q =>
    exact h.next (le_refl _) free_other (fun _ d hd => (holder_erase_some hd).2)

theorem step_intact (w : World) (a : Action) (w' : World) (h : Intact k p b w)
    (hs : step w a = some w') : Intact k p b w' := by
  rcases step_cases hs with ⟨s, b, rfl, rfl⟩ | ⟨source, target, rfl, rfl⟩ |
    ⟨c, slot, env, path, frameIndex, rfl, -, ⟨status, rfl, -⟩ | ⟨s, f, rfl, rfl⟩⟩ |
    ⟨c, rfl, rfl⟩ | ⟨c, s, rfl, -, rfl⟩ | ⟨c, answer, call, rfl, hc, rfl⟩
  · exact ⟨h.issued, h.intact, h.unwritten⟩
  · exact ⟨h.issued, h.intact, h.unwritten⟩
  · exact ⟨h.issued, h.intact, h.unwritten⟩
  · exact h.next (le_refl _) (fun _ => rfl) (fun _ d hd => writes_setCall (by simp [writes]) hd)
  · exact ⟨h.issued, h.intact, h.unwritten⟩
  · exact h.next (le_refl _) (fun _ => rfl) (fun _ d hd => writes_setCall (by simp [writes]) hd)
  · exact advance_intact h hc

end Intact

/-- A block that is filled and about to be registered is never written again:
as long as its allocation lives, whatever the calls and the host do, the bytes
are those of the frame. -/
theorem copied_intact {slots : SlotId → IGPixelBuffer} {w : World}
    (h : Reached step MallocFresh (.initial slots) w) {c : CallId} {s : SlotId} {f : Frame}
    {p : Addr} (hc : w.calls.lookup c = some (.copied s f p)) :
    ∃ k, w.memory.serialAt p = some k ∧
      Intact k p { size := f.bufSize, bytes := f.data.take f.bufSize, serial := k } w := by
  obtain ⟨hd, hf⟩ := reached_filled h
  have hown : owned w c = some p := holder_of_lookup hc
  have hcontent : contentAt w.memory p = some (pixels f) := hf c (p,pixels f) (holder_of_lookup hc)
  obtain ⟨b, hb, hbytes⟩ := Option.map_eq_some_iff.mp hcontent
  have hserial : w.memory.serialAt p = some b.serial := by rw [Memory.serialAt, hb, Option.map_some]
  refine ⟨b.serial, hserial, serialAt_lt hserial, fun _ => ?_, fun _ d hd' => ?_⟩
  · rw [hb]
    cases b
    cases hbytes
    rfl
  · obtain ⟨call, hcall, hwrites⟩ := holder_some hd'
    have hsame : d = c := by
      refine hd.holders.exclusive d c p ((holder_of_lookup hcall).trans ?_) hown
      cases call <;> first | exact hwrites | cases hwrites
    subst hsame
    rw [hc] at hcall
    cases hcall
    cases hwrites

/-- What the host is handed stays what the decoder made. From the point where a
decode call has filled its block, through its return and for as long as the
allocation lives, no step of any call or of the host changes a byte of the
block. A host that forges no pointer, and whose stale handles meet no reused
address, therefore finds the pixels until it passes the handle to free. -/
theorem pixels_intact (slots : SlotId → IGPixelBuffer) (w : World)
    (h : Reached step MallocFresh (.initial slots) w) (c : CallId) (s : SlotId) (f : Frame)
    (p : Addr) (hc : w.calls.lookup c = some (.copied s f p)) :
    ∃ k, w.memory.serialAt p = some k ∧
      (∀ as w', run step as w = some w' → w'.memory.serialAt p = some k →
        w'.memory.live.lookup p =
          some { size := f.bufSize, bytes := f.data.take f.bufSize, serial := k }) ∧
      ((∀ t, (slots t).data = null) →
        Reached step (fun w a => CopyingHost w a ∧ NotReused w a) (.initial slots) w →
        ∀ as w', run step as w = some w' →
          Admits step (fun w a => CopyingHost w a ∧ NotReused w a) as w →
          HandedOut w'.history k p → ¬ Surrendered w'.history k →
          w'.memory.live.lookup p =
            some { size := f.bufSize, bytes := f.data.take f.bufSize, serial := k }) := by
  obtain ⟨k, hk, hintact⟩ := copied_intact h hc
  have hlives : ∀ as w', run step as w = some w' → w'.memory.serialAt p = some k →
      w'.memory.live.lookup p =
        some { size := f.bufSize, bytes := f.data.take f.bufSize, serial := k } := by
    intro as w' hrun
    exact (run_invariant (fun w a w' hw _ hs => step_intact w a w' hw hs) as w w' hintact
      (admits_of_forall (fun _ _ _ => trivial) w) hrun).intact
  refine ⟨k, hk, hlives, fun hslots hreach as w' hrun hok hout hsurr => hlives as w' hrun ?_⟩
  have hhandled : Disciplined w ∧ Handled w :=
    @reached_invariant _ _ step _ (fun w => Disciplined w ∧ Handled w) _ _
      ⟨initial_disciplined slots, initial_handled hslots⟩ step_handled hreach
  have hend : Disciplined w' ∧ Handled w' :=
    @run_invariant _ _ step _ (fun w => Disciplined w ∧ Handled w) step_handled as w w' hhandled
      hok hrun
  exact (hend.2.kept k p hout hsurr).1

def filling : List Action :=
  [.beginDecode 0 (some 0) (servingEnv pixel) somePath 0, .advance 0 8, .advance 0 null]

def overlapping : List Action :=
  [.advance 0 null, .beginDecode 1 (some 1) (servingEnv pixel) somePath 0, .advance 1 16,
    .beginFree 2 (some 2), .advance 0 null, .advance 1 null, .advance 2 null, .advance 1 null]

theorem pixels_intact_overlapping :
    ∃ w w', run step filling (.initial fun _ => emptyBuffer) = some w ∧
      run step overlapping w = some w' ∧
      w'.memory.live.lookup 8 = some { size := 4, bytes := [1,2,3,4], serial := 0 } := by
  obtain ⟨w, hw⟩ : ∃ w, run step filling (.initial fun _ => emptyBuffer) = some w :=
    Option.isSome_iff_exists.mp (by decide)
  have hserial : (run step filling (.initial fun _ => emptyBuffer)).map
      (fun w => (holder inHand w.calls 0,w.memory.serialAt 8,
        (run step overlapping w).map fun w' => w'.memory.serialAt 8)) =
      some (some (8,⟨4,[1,2,3,4]⟩),some 0,some (some 0)) := by decide
  rw [hw] at hserial
  obtain ⟨hhand, hk, hlater⟩ : holder inHand w.calls 0 = some (8,⟨4,[1,2,3,4]⟩) ∧
      w.memory.serialAt 8 = some 0 ∧
      (run step overlapping w).map (fun w' => w'.memory.serialAt 8) = some (some 0) := by
    simpa using hserial
  obtain ⟨w', hw', hk'⟩ := Option.map_eq_some_iff.mp hlater
  obtain ⟨call, hcall, hx⟩ := holder_some hhand
  cases call with
  | copied s f p =>
    obtain ⟨rfl, hpixels⟩ := Prod.mk.inj (Option.some.inj hx)
    obtain ⟨k, hsame, hlives, -⟩ := pixels_intact _ w ⟨filling, hw, by decide⟩ 0 s f 8 hcall
    cases hsame.symm.trans hk
    refine ⟨w, w', hw, hw', ?_⟩
    obtain ⟨hsize, hbytes⟩ := Content.mk.inj hpixels
    rw [hlives overlapping w' hw' hk', hbytes, hsize]
  | allocated s f p => simp [inHand] at hx
  | decoding s f => cases hx
  | registered s f p => cases hx
  | rejected s p => cases hx
  | freeing s => cases hx
  | cleared s p origin => cases hx
  | unregistered s p => cases hx

end IthmbPlugin.Pixels
