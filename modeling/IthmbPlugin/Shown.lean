import IthmbPlugin.Linearizable
import IthmbPlugin.Phases

/-!
# What a conforming host sees

A struct of a conforming host that has been filled and not been given back
shows the frame of the last decode call into it: its dimensions, and under its
data pointer the pixels, whole and as the decoder delivered them. This is so at
every moment, with any number of calls on other structs in progress.
-/

set_option autoImplicit false

namespace IthmbPlugin.Shown
open IthmbPlugin.Types IthmbPlugin.Registry IthmbPlugin.Decode
open IthmbPlugin.Ownership IthmbPlugin.Runs IthmbPlugin.Calls IthmbPlugin.Discipline
open IthmbPlugin.DecodeContract IthmbPlugin.Pixels IthmbPlugin.Tracking
open IthmbPlugin.Phases
open IthmbPlugin.Linearizable (Decodes startDecode_outcome)

structure DecodeArgs where
  env : DecodeEnv
  path : IGStringRef
  frameIndex : Int32

def decodeArgs (s : SlotId) : Action → Option DecodeArgs
  | .beginDecode _ (some t) env path frameIndex =>
    if t = s then some ⟨env,path,frameIndex⟩ else none
  | _ => none

def lastDecode (s : SlotId) (as : List Action) : Option DecodeArgs :=
  as.reverse.findSome? (decodeArgs s)

/-- The frame is that of the last decode call into the struct. -/
def Asked (as : List Action) (s : SlotId) (f : Frame) : Prop :=
  ∃ args, lastDecode s as = some args ∧ Decodes args.env args.path args.frameIndex f

theorem lastDecode_append (s : SlotId) (as : List Action) (a : Action) :
    lastDecode s (as++[a]) = (decodeArgs s a).or (lastDecode s as) := by
  simp only [lastDecode, List.reverse_append, List.reverse_singleton, List.singleton_append,
    List.findSome?_cons]
  cases decodeArgs s a <;> rfl

theorem asked_append {s : SlotId} {a : Action} (h : decodeArgs s a = none) (as : List Action) :
    Asked (as++[a]) s = Asked as s := by
  funext f
  rw [Asked, Asked, lastDecode_append, h, Option.none_or]

theorem asked_quiet {a : Action} (h : ∀ s, decodeArgs s a = none) (as : List Action) :
    Asked (as++[a]) = Asked as :=
  funext fun s => asked_append (h s) as

theorem asked_other {s t : SlotId} (ht : t ≠ s) (c : CallId) (env : DecodeEnv) (path : IGStringRef)
    (frameIndex : Int32) (as : List Action) :
    Asked (as++[.beginDecode c (some s) env path frameIndex]) t = Asked as t := by
  apply asked_append
  exact if_neg (Ne.symm ht)

theorem asked_begin {c : CallId} {s : SlotId} {env : DecodeEnv} {path : IGStringRef}
    {frameIndex : Int32} {f : Frame} (h : Decodes env path frameIndex f) (as : List Action) :
    Asked (as++[.beginDecode c (some s) env path frameIndex]) s f := by
  refine ⟨⟨env,path,frameIndex⟩, ?_, h⟩
  rw [lastDecode_append, decodeArgs, if_pos rfl, Option.some_or]

def carried : Call → Option (SlotId × Frame)
  | .decoding s f => some (s,f)
  | .allocated s f _ => some (s,f)
  | .copied s f _ => some (s,f)
  | .registered s f _ => some (s,f)
  | _ => none

def tracked : Call → Option (Addr × Content)
  | .registered _ f p => some (p,pixels f)
  | _ => none

structure Displayed (P : SlotId → Frame → Prop) (w : World) : Prop where
  structs : ∀ s p, slotHolds w.history w.slots s = some p → ∃ f, P s f ∧
    w.slots s = f.publish p ∧ contentAt w.memory p = some (pixels f)
  frames : ∀ c x, holder carried w.calls c = some x → P x.1 x.2
  blocks : ∀ c x, holder tracked w.calls c = some x → contentAt w.memory x.1 = some x.2

theorem tracked_holds {w : World} {c : CallId} {x : Addr × Content}
    (h : holder tracked w.calls c = some x) : holders w (.inr c) = some x.1 := by
  obtain ⟨call, hcall, hx⟩ := holder_some h
  refine (show holder callHolds w.calls c = callHolds call from holder_of_lookup hcall).trans ?_
  cases call <;> cases hx
  rfl

theorem slotHolds_eq {history history' : List HostEvent} {slots slots' : SlotId → IGPixelBuffer}
    {t : SlotId} (he : everFilled history' t = everFilled history t) (hs : slots' t = slots t) :
    slotHolds history' slots' t = slotHolds history slots t := by
  rw [slotHolds, slotHolds, he, hs]

section Steps
variable {P : SlotId → Frame → Prop} {w : World} {c : CallId} {call : Call} {answer : Addr}

theorem advance_content {q : Addr} (hq : q ∈ w.memory.live)
    (hfresh : answer = null ∨ answer ∉ w.memory.live)
    (hapart : ∀ p, ownedPtr call = some p → q ≠ p) :
    contentAt (w.advance c answer call).memory q = contentAt w.memory q := by
  cases call with
  | decoding s f =>
    have hother := contentAt_alloc_other hq hfresh f.bufSize
    by_cases hp : answer = null
    · simp only [World.advance, if_pos hp]
      exact hother
    · simp only [World.advance, if_neg hp]
      exact hother
  | allocated s f p => exact contentAt_copy_other (hapart p rfl) ..
  | copied s f p =>
    rcases register_cases w.registry p f.bufSize with ⟨-, -, hreg⟩ | ⟨status, hreg, -⟩ <;>
      simp only [World.advance, hreg] <;> rfl
  | registered s f p => rfl
  | rejected s p => exact contentAt_free_other (hapart p rfl)
  | freeing s =>
    simp only [World.advance]
    split_ifs <;> rfl
  | cleared s p origin =>
    rcases unregister_cases w.registry p with ⟨entry, -, -, hreg⟩ | ⟨status, hreg, -⟩ <;>
      simp only [World.advance, hreg] <;> rfl
  | unregistered s p => exact contentAt_free_other (hapart p rfl)

theorem advance_slots (hd : Disciplined w) (hc : w.calls.lookup c = some call) {t : SlotId}
    {p : Addr} (h : slotHolds (w.advance c answer call).history (w.advance c answer call).slots t =
      some p) :
    (slotHolds w.history w.slots t = some p ∧ (w.advance c answer call).slots t = w.slots t) ∨
      ∃ f, call = .registered t f p ∧ (w.advance c answer call).slots t = f.publish p := by
  have hown : owned w c = ownedPtr call := holder_of_lookup hc
  cases call with
  | decoding s f =>
    by_cases hp : answer = null
    · simp only [World.advance, if_pos hp] at h ⊢
      exact Or.inl ⟨h, rfl⟩
    · simp only [World.advance, if_neg hp] at h ⊢
      exact Or.inl ⟨h, rfl⟩
  | allocated s f q => exact Or.inl ⟨h, rfl⟩
  | copied s f q =>
    simp only [World.advance, hd.registers hown] at h ⊢
    exact Or.inl ⟨h, rfl⟩
  | registered s f q =>
    by_cases hts : t = s
    · subst hts
      have hself : (w.advance c answer (.registered t f q)).slots t = f.publish q :=
        Function.update_self ..
      have hdata := (slotHolds_some h).2.1
      rw [hself] at hdata
      obtain rfl : q = p := hdata
      exact Or.inr ⟨f, rfl, hself⟩
    · have hother : (w.advance c answer (.registered s f q)).slots t = w.slots t :=
        Function.update_of_ne hts ..
      have hever : everFilled (w.advance c answer (.registered s f q)).history t =
          everFilled w.history t := if_neg (Ne.symm hts)
      exact Or.inl ⟨(slotHolds_eq hever hother).symm.trans h, hother⟩
  | rejected s q => exact Or.inl ⟨h, rfl⟩
  | freeing s =>
    have htaken : ∀ {history : List HostEvent}, everFilled history = everFilled w.history →
        slotHolds history (w.taken s).slots t = some p →
        slotHolds w.history w.slots t = some p ∧ (w.taken s).slots t = w.slots t := by
      intro history he hp
      by_cases hts : t = s
      · subst hts
        have hnone : slotHolds history (w.taken t).slots t = none :=
          (slotHolds_eq (congrFun he t) rfl).trans (slotHolds_taken w t)
        cases hnone.symm.trans hp
      · have hother : (w.taken s).slots t = w.slots t := Function.update_of_ne hts ..
        exact ⟨(slotHolds_eq (congrFun he t) hother).symm.trans hp, hother⟩
    simp only [World.advance] at h ⊢
    split_ifs at h ⊢ with hnull
    · exact Or.inl (htaken rfl h)
    · exact Or.inl (htaken rfl h)
  | cleared s q origin =>
    rcases unregister_cases w.registry q with ⟨entry, -, -, hreg⟩ | ⟨status, hreg, -⟩ <;>
      simp only [World.advance, hreg] at h ⊢
    · exact Or.inl ⟨h, rfl⟩
    · exact Or.inl ⟨h, rfl⟩
  | unregistered s q => exact Or.inl ⟨h, rfl⟩

theorem carried_follows {next : Call} {x : SlotId × Frame} (h : Follows w call next)
    (hx : carried next = some x) : carried call = some x := by
  cases h <;> first | exact hx | cases hx

theorem advance_displayed (h : Displayed P w) (ht : Tracked w) (hf : Filled w)
    (hc : w.calls.lookup c = some call) (hfresh : answer = null ∨ answer ∉ w.memory.live) :
    Displayed P (w.advance c answer call) := by
  have hd := ht.disciplined
  have hown : owned w c = ownedPtr call := holder_of_lookup hc
  have hcontents : ∀ {p}, p ∈ w.registry.entries →
      contentAt (w.advance c answer call).memory p = contentAt w.memory p := by
    intro p hkey
    refine advance_content (hd.keys_live p hkey) hfresh ?_
    rintro q hq rfl
    exact (hd.owned_live (hown.trans hq)).2 hkey
  constructor
  · intro t p hp
    rcases advance_slots hd hc hp with ⟨hold, hslot⟩ | ⟨f, rfl, hslot⟩
    · obtain ⟨f, hP, hframe, hcontent⟩ := h.structs t p hold
      have hkey : p ∈ w.registry.entries := ht.holders.mem (o := .inl t) hold
      exact ⟨f, hP, hslot.trans hframe, (hcontents hkey).trans hcontent⟩
    · have hframe : P t f := h.frames c (t,f) (holder_of_lookup hc)
      exact ⟨f, hframe, hslot, h.blocks c (p,pixels f) (holder_of_lookup hc)⟩
  · intro d x hx
    rcases advance_holder hx with ⟨rfl, next, hnext, hself⟩ | hold
    · exact h.frames d x ((holder_of_lookup hc).trans (carried_follows hnext hself))
    · exact h.frames d x hold
  · intro d x hx
    rcases advance_holder hx with ⟨rfl, next, hnext, hself⟩ | hold
    · cases hnext <;> cases hself
      simp only [World.advance, hd.registers hown]
      exact hf d _ (holder_of_lookup hc)
    · have hkey : x.1 ∈ w.registry.entries := ht.holders.mem (tracked_holds hold)
      exact (hcontents hkey).trans (h.blocks d x hold)

theorem Displayed.anew {P' : SlotId → Frame → Prop} {s : SlotId} (h : Displayed P w)
    (hnone : slotHolds w.history w.slots s = none) (hidle : Idle w s)
    (hother : ∀ t, t ≠ s → P' t = P t) : Displayed P' w where
  structs t p hp := by
    have ht : t ≠ s := by
      rintro rfl
      cases hnone.symm.trans hp
    rw [hother t ht]
    exact h.structs t p hp
  frames d x hx := by
    obtain ⟨call, hcall, hcarried⟩ := holder_some hx
    have ht : x.1 ≠ s := by
      have hslot := hidle d call hcall
      cases call <;> cases hcarried <;> exact hslot
    rw [hother x.1 ht]
    exact h.frames d x hx
  blocks := h.blocks

theorem Displayed.setCall (h : Displayed P w) (hframe : ∀ x, carried call = some x → P x.1 x.2)
    (hnone : tracked call = none) : Displayed P (w.setCall c call) where
  structs := h.structs
  frames d x hx := by
    rcases holder_insert_some hx with ⟨-, hself⟩ | ⟨-, hold⟩
    · exact hframe x hself
    · exact h.frames d x hold
  blocks d x hx := by
    rcases holder_insert_some hx with ⟨-, hself⟩ | ⟨-, hold⟩
    · cases hnone.symm.trans hself
    · exact h.blocks d x hold

theorem Displayed.record (h : Displayed P w) {e : HostEvent}
    (he : everFilled (e::w.history) = everFilled w.history) : Displayed P (w.record e) where
  structs s p hp := h.structs s p ((slotHolds_eq (congrFun he s) rfl).symm.trans hp)
  frames := h.frames
  blocks := h.blocks

end Steps

structure Faithful (as : List Action) (w : World) : Prop where
  tracked : Tracked w
  filled : Filled w
  displayed : Displayed (Asked as) w

theorem conforming_fresh {w : World} {a : Action} (h : Conforming w a) : MallocFresh w a := by
  cases a with
  | advance c answer => exact h.1
  | _ => trivial

theorem step_faithful (as : List Action) (w : World) (a : Action) (w' : World)
    (h : Faithful as w) (hok : Conforming w a) (hs : step w a = some w') :
    Faithful (as++[a]) w' := by
  obtain ⟨ht, hf, hd⟩ := h
  refine ⟨step_tracked w a w' ht hok hs,
    (step_filled w a w' ⟨ht.disciplined, hf⟩ (conforming_fresh hok) hs).2, ?_⟩
  cases a with
  | hostWrite s b => cases hok
  | hostCopy source target => cases hok
  | beginDecode c slot env path frameIndex =>
    obtain ⟨-, hw⟩ := Option.ite_none_left_eq_some.mp hs
    cases Option.some.inj hw
    cases slot with
    | none =>
      rw [asked_quiet (fun _ => rfl)]
      rcases startDecode_outcome w c none env path frameIndex with
        ⟨status, heq, -⟩ | ⟨s, f, hslot, -⟩
      · rw [heq]
        exact hd.record rfl
      · cases hslot
    | some s =>
      obtain ⟨hidle, hempty⟩ := hok s rfl
      have hnone : slotHolds w.history w.slots s = none := by
        by_contra hne
        rw [(ht.settled s hidle).mpr hne] at hempty
        cases hempty
      have hanew : Displayed (Asked (as++[.beginDecode c (some s) env path frameIndex])) w :=
        hd.anew hnone hidle (fun t hts => asked_other hts c env path frameIndex as)
      rcases startDecode_outcome w c (some s) env path frameIndex with
        ⟨status, heq, -⟩ | ⟨t, f, hslot, hdecodes, heq⟩
      · rw [heq]
        exact hanew.record rfl
      · cases hslot
        rw [heq]
        refine hanew.setCall (fun x hx => ?_) rfl
        cases hx
        exact asked_begin hdecodes as
  | beginFree c slot =>
    rw [asked_quiet (fun _ => rfl)]
    obtain ⟨-, hw⟩ := Option.ite_none_left_eq_some.mp hs
    cases slot with
    | none =>
      cases Option.some.inj hw
      exact hd.record rfl
    | some s =>
      cases Option.some.inj hw
      exact hd.setCall (fun x hx => by cases hx) rfl
  | advance c answer =>
    rw [asked_quiet (fun _ => rfl)]
    obtain ⟨call, hcall, rfl⟩ := Option.map_eq_some_iff.mp hs
    exact advance_displayed hd ht hf hcall hok.1

theorem initial_faithful (slots : SlotId → IGPixelBuffer) : Faithful [] (.initial slots) where
  tracked := initial_tracked slots
  filled c x hx := by cases hx
  displayed :=
    { structs := fun s p hp => by cases hp
      frames := fun c x hx => by cases hx
      blocks := fun c x hx => by cases hx }

/-- What the host sees is what it asked for. At every moment of a conforming
run a struct that has been filled and holds a pointer has the dimensions of a
frame that the arguments of the last decode call into it decode to, and under
its data pointer lies a live block of that frame's size with that frame's
pixels. -/
theorem conforming_shows (slots : SlotId → IGPixelBuffer) (as : List Action) (w : World)
    (hrun : run step as (.initial slots) = some w)
    (hok : Admits step Conforming as (.initial slots))
    (s : SlotId) (hever : everFilled w.history s = true) (hdata : (w.slots s).data ≠ null) :
    ∃ args f, lastDecode s as = some args ∧ Decodes args.env args.path args.frameIndex f ∧
      w.slots s = f.publish (w.slots s).data ∧
      contentAt w.memory (w.slots s).data = some (pixels f) := by
  have hf : Faithful ([]++as) w :=
    run_trail step_faithful [] as _ w (initial_faithful slots) hok hrun
  obtain ⟨f, ⟨args, hlast, hdecodes⟩, hslot, hcontent⟩ :=
    hf.displayed.structs s (w.slots s).data (if_pos ⟨hever, hdata⟩)
  exact ⟨args, f, hlast, hdecodes, hslot, hcontent⟩

theorem conforming_shows_refill :
    ∃ w args f, run step refill (.initial fun _ => emptyBuffer) = some w ∧
      lastDecode 0 refill = some args ∧ Decodes args.env args.path args.frameIndex f ∧
      contentAt w.memory (w.slots 0).data = some (pixels f) := by
  obtain ⟨w, hw⟩ : ∃ w, run step refill (.initial fun _ => emptyBuffer) = some w :=
    Option.isSome_iff_exists.mp (by decide)
  have hboth : (run step refill (.initial fun _ => emptyBuffer)).map
      (fun w => decide (everFilled w.history 0 = true ∧ (w.slots 0).data ≠ null)) = some true := by
    decide
  rw [hw] at hboth
  obtain ⟨hever, hdata⟩ := of_decide_eq_true (Option.some.inj hboth)
  obtain ⟨args, f, hlast, hdecodes, -, hcontent⟩ :=
    conforming_shows _ refill w hw (by decide) 0 hever hdata
  exact ⟨w, args, f, hw, hlast, hdecodes, hcontent⟩

end IthmbPlugin.Shown
