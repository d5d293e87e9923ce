import IthmbPlugin.Shown

/-!
# Every copy in bounds

The plugin writes bytes in one place, the unchecked copy of a decode call into
the block it has allocated. With decoders that deliver four bytes a pixel and a
malloc that serves no request beyond what an object can have, every such copy
writes a live block from end to end and reads no further than the decoder's
buffer. The calls may interleave in any way and the host may do with its
structs what it likes.
-/

set_option autoImplicit false

namespace IthmbPlugin.CopyBounds
open IthmbPlugin.Types IthmbPlugin.Registry IthmbPlugin.Allocator IthmbPlugin.Decode
open IthmbPlugin.Ownership IthmbPlugin.Runs IthmbPlugin.Calls IthmbPlugin.Discipline
open IthmbPlugin.DecodeContract IthmbPlugin.Pixels IthmbPlugin.Tracking IthmbPlugin.Phases
open IthmbPlugin.Shown
open IthmbPlugin.MachineInt (isizeMax)
open IthmbPlugin.AllocTrace (CopiesFill live sizeAt)
open IthmbPlugin.Linearizable (Decodes startDecode_outcome)

/-- The frame asks for no more bytes than the decoder delivered, if it asks for
no more than an object can have. -/
def Backed (f : Frame) : Prop := f.bufSize ≤ isizeMax → f.bufSize ≤ f.data.length

def Sizes (m : Memory) : Prop :=
  ∀ p b, m.live.lookup p = some b → sizeAt p m.trace = some b.size ∧ b.size ≤ isizeMax

section Heap
variable {m : Memory} {p : Addr}

theorem Sizes.alloc (h : Sizes m) (hp : p ≠ null) {size : ℕ} (hn : size ≤ isizeMax) :
    Sizes (pixelBufferAlloc p size m) := by
  intro q b hb
  rw [alloc_live hp] at hb
  rw [alloc_trace hp, sizeAt]
  rcases lookup_insert_cases hb with ⟨rfl, rfl⟩ | ⟨hq, hb⟩
  · exact ⟨if_pos rfl, hn⟩
  · rw [if_neg (Ne.symm hq)]
    exact h q b hb

theorem Sizes.copy (h : Sizes m) (src : List UInt8) (count : ℕ) :
    Sizes (copyNonoverlapping src p count m) := by
  intro q b hb
  change sizeAt q m.trace = some b.size ∧ b.size ≤ isizeMax
  by_cases hq : q = p
  · subst hq
    obtain ⟨c, hc⟩ := Finmap.mem_iff.mp ((copy_mem src q q count m).mp
      (Finmap.mem_of_lookup_eq_some hb))
    simp only [copyNonoverlapping, hc, Finmap.lookup_insert, Option.some.injEq] at hb
    subst hb
    exact h q c hc
  · rw [copy_lookup_other hq] at hb
    exact h q b hb

theorem Sizes.free (h : Sizes m) : Sizes (pixelBufferFree p m) := by
  intro q b hb
  exact h q b (lookup_erase_some hb).2

end Heap

structure Bounded (w : World) : Prop where
  backed : ∀ c x, holder carried w.calls c = some x → Backed x.2
  sizes : Sizes w.memory
  copies : CopiesFill w.memory.trace

theorem backed_of_decodes {env : DecodeEnv} {path : IGStringRef} {frameIndex : Int32} {f : Frame}
    (hdecoder : DecoderContract env.decodeIthmb) (h : Decodes env path frameIndex f) :
    Backed f := by
  obtain ⟨img, logs, himg, hf⟩ := h
  obtain ⟨bytes, hbytes⟩ := decodeImage_ok_decoder himg
  exact frame_fits hf (hdecoder bytes false img hbytes)

section Steps
variable {w : World} {c : CallId} {call : Call} {answer : Addr}

theorem Bounded.fits (h : Bounded w) (hf : Filled w) {s : SlotId} {f : Frame} {p : Addr}
    (hc : w.calls.lookup c = some (.allocated s f p)) :
    f.bufSize ≤ f.data.length ∧ sizeAt p w.memory.trace = some f.bufSize := by
  obtain ⟨b, hb, hcontent⟩ := Option.map_eq_some_iff.mp
    (hf c (p,{ size := f.bufSize, bytes := [] }) (holder_of_lookup hc))
  obtain ⟨hsize, hmax⟩ := h.sizes p b hb
  have hbsize : b.size = f.bufSize := congrArg Content.size hcontent
  rw [hbsize] at hsize hmax
  exact ⟨h.backed c (s,f) (holder_of_lookup hc) hmax, hsize⟩

theorem advance_memory (hd : Disciplined w) (hf : Filled w) (h : Bounded w)
    (hc : w.calls.lookup c = some call) (hserves : MallocServes w c answer) :
    Sizes (w.advance c answer call).memory ∧
      CopiesFill (w.advance c answer call).memory.trace := by
  have hown : owned w c = ownedPtr call := holder_of_lookup hc
  cases call with
  | decoding s f =>
    by_cases hp : answer = null
    · simp only [World.advance, if_pos hp]
      change Sizes (pixelBufferAlloc answer f.bufSize w.memory) ∧ _
      rw [hp, alloc_null]
      exact ⟨h.sizes, h.copies⟩
    · have hmax : f.bufSize ≤ isizeMax :=
        Nat.le_of_not_lt (fun hlt => hp (hserves.2 _ (holder_of_lookup hc) hlt))
      simp only [World.advance, if_neg hp]
      refine ⟨h.sizes.alloc hp hmax, ?_⟩
      change CopiesFill (pixelBufferAlloc answer f.bufSize w.memory).trace
      rw [alloc_trace hp]
      exact h.copies
  | allocated s f p =>
    obtain ⟨hbacked, hsize⟩ := h.fits hf hc
    exact ⟨h.sizes.copy f.data f.bufSize, hbacked, hsize, h.copies⟩
  | copied s f p =>
    simp only [World.advance, hd.registers hown]
    exact ⟨h.sizes, h.copies⟩
  | registered s f p => exact ⟨h.sizes, h.copies⟩
  | rejected s p => exact ⟨h.sizes.free, h.copies⟩
  | freeing s =>
    simp only [World.advance]
    split_ifs with hnull
    · exact ⟨h.sizes, h.copies⟩
    · exact ⟨h.sizes, h.copies⟩
  | cleared s p origin =>
    rcases unregister_cases w.registry p with ⟨entry, -, -, hreg⟩ | ⟨status, hreg, -⟩ <;>
      simp only [World.advance, hreg] <;> exact ⟨h.sizes, h.copies⟩
  | unregistered s p => exact ⟨h.sizes.free, h.copies⟩

theorem advance_bounded (hd : Disciplined w) (hf : Filled w) (h : Bounded w)
    (hc : w.calls.lookup c = some call) (hserves : MallocServes w c answer) :
    Bounded (w.advance c answer call) := by
  obtain ⟨hsizes, hcopies⟩ := advance_memory hd hf h hc hserves
  refine ⟨fun d x hx => ?_, hsizes, hcopies⟩
  rcases advance_holder hx with ⟨rfl, next, hnext, hself⟩ | hold
  · exact h.backed d x ((holder_of_lookup hc).trans (carried_follows hnext hself))
  · exact h.backed d x hold

theorem Bounded.setCall (h : Bounded w) (hbacked : ∀ x, carried call = some x → Backed x.2) :
    Bounded (w.setCall c call) where
  backed d x hx := by
    rcases holder_insert_some hx with ⟨-, hself⟩ | ⟨-, hold⟩
    · exact hbacked x hself
    · exact h.backed d x hold
  sizes := h.sizes
  copies := h.copies

end Steps

/-- What malloc promises at every step it is asked. -/
def Serves (w : World) : Action → Prop
  | .advance c answer => MallocServes w c answer
  | _ => True

instance (w : World) : (a : Action) → Decidable (Serves w a)
  | .hostWrite .. => isTrue trivial
  | .hostCopy .. => isTrue trivial
  | .beginDecode .. => isTrue trivial
  | .beginFree .. => isTrue trivial
  | .advance .. => inferInstanceAs (Decidable (_ ∧ _))

/-- What the decoder promises in every call that uses it. -/
def Delivers : Action → Prop
  | .beginDecode _ _ env _ _ => DecoderContract env.decodeIthmb
  | _ => True

theorem serves_fresh {w : World} {a : Action} (h : Serves w a) : MallocFresh w a := by
  cases a with
  | advance c answer => exact h.1
  | _ => trivial

theorem step_bounded (w : World) (a : Action) (w' : World)
    (h : (Disciplined w ∧ Filled w) ∧ Bounded w) (hok : Serves w a ∧ Delivers a)
    (hs : step w a = some w') : (Disciplined w' ∧ Filled w') ∧ Bounded w' := by
  obtain ⟨hdf, hb⟩ := h
  refine ⟨step_filled w a w' hdf (serves_fresh hok.1) hs, ?_⟩
  cases a with
  | hostWrite s b =>
    cases Option.some.inj hs
    exact ⟨hb.backed, hb.sizes, hb.copies⟩
  | hostCopy source target =>
    cases Option.some.inj hs
    exact ⟨hb.backed, hb.sizes, hb.copies⟩
  | beginDecode c slot env path frameIndex =>
    obtain ⟨-, hw⟩ := Option.ite_none_left_eq_some.mp hs
    cases Option.some.inj hw
    rcases startDecode_outcome w c slot env path frameIndex with
      ⟨status, heq, -⟩ | ⟨t, f, -, hdecodes, heq⟩ <;> rw [heq]
    · exact ⟨hb.backed, hb.sizes, hb.copies⟩
    · refine hb.setCall (fun x hx => ?_)
      cases hx
      exact backed_of_decodes hok.2 hdecodes
  | beginFree c slot =>
    obtain ⟨-, hw⟩ := Option.ite_none_left_eq_some.mp hs
    cases slot with
    | none =>
      cases Option.some.inj hw
      exact ⟨hb.backed, hb.sizes, hb.copies⟩
    | some s =>
      cases Option.some.inj hw
      exact hb.setCall (fun x hx => by cases hx)
  | advance c answer =>
    obtain ⟨call, hcall, rfl⟩ := Option.map_eq_some_iff.mp hs
    exact advance_bounded hdf.1 hdf.2 hb hcall hok.1

theorem initial_bounded (slots : SlotId → IGPixelBuffer) : Bounded (.initial slots) where
  backed c x hx := by cases hx
  sizes p b hb := by cases hb
  copies := trivial

/-- No copy leaves its bounds. In every run of any interleaving of calls and
host moves, whatever copy the plugin has made went from the first byte to the
last of a block that was live at that moment, and its source held that many
bytes. -/
theorem copies_in_bounds (slots : SlotId → IGPixelBuffer) (as : List Action) (w : World)
    (hrun : run step as (.initial slots) = some w) (hok : Admits step Serves as (.initial slots))
    (hdecoders : ∀ a ∈ as, Delivers a) (after before : List (AllocTrace.Event Addr)) (p : Addr)
    (available count : ℕ) (htrace : w.memory.trace = after++.copy p available count::before) :
    p ∈ live before ∧ sizeAt p before = some count ∧ count ≤ available := by
  have hinit : (Disciplined (.initial slots) ∧ Filled (.initial slots)) ∧
      Bounded (.initial slots) :=
    ⟨⟨initial_disciplined slots, fun c x hx => by cases hx⟩, initial_bounded slots⟩
  have hdelivers : Admits step (fun _ => Delivers) as (.initial slots) :=
    admits_of_forall (fun _ => hdecoders) _
  have hall := hok.and hdelivers
  obtain ⟨⟨hd, -⟩, hb⟩ := run_invariant step_bounded as _ w hinit hall hrun
  have hlive := hd.trace
  have hfill := hb.copies
  rw [htrace] at hlive hfill
  obtain ⟨havailable, hsize, -⟩ := hfill.suffix
  exact ⟨(AllocTrace.disciplined_suffix after _ hlive).1, hsize, havailable⟩

def crossed : List Action :=
  [.beginDecode 0 (some 0) (servingEnv pixel) somePath 0,
    .beginDecode 1 (some 1) (servingEnv pixel) somePath 0, .advance 0 8, .advance 1 16,
    .advance 1 null, .advance 0 null]

theorem pixel_delivered : DecoderContract (servingEnv pixel).decodeIthmb := by
  rintro bytes canceled img ⟨⟩
  rfl

theorem copies_in_bounds_crossed :
    ∃ w, run step crossed (.initial fun _ => emptyBuffer) = some w ∧
      ∃ before, w.memory.trace = .copy 8 4 4::before ∧ (8:Addr) ∈ live before ∧
        sizeAt 8 before = some 4 := by
  obtain ⟨w, hw⟩ : ∃ w, run step crossed (.initial fun _ => emptyBuffer) = some w :=
    Option.isSome_iff_exists.mp (by decide)
  have htrace : (run step crossed (.initial fun _ => emptyBuffer)).map (fun w => w.memory.trace) =
      some [.copy 8 4 4, .copy 16 4 4, .malloc 16 4, .malloc 8 4] := by decide
  rw [hw] at htrace
  have heq : w.memory.trace = []++.copy 8 4 4::[.copy 16 4 4, .malloc 16 4, .malloc 8 4] :=
    Option.some.inj htrace
  have hdecoders : ∀ a ∈ crossed, Delivers a := by
    simp [crossed, Delivers, pixel_delivered]
  obtain ⟨hlive, hsize, -⟩ := copies_in_bounds _ crossed w hw (by decide) hdecoders _ _ _ _ _ heq
  exact ⟨w, hw, _, heq, hlive, hsize⟩

end IthmbPlugin.CopyBounds
