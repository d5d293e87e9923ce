import IthmbPlugin.Phases
import IthmbPlugin.Tracking
import Mathlib.Data.Finset.Card

/-!
# One block a struct

With a conforming host every live block is there for one struct: the struct
holds it, or a call on the struct has it in hand. No struct has two. So a host
with a given number of structs never makes the plugin hold more blocks than
that, at any point of any number of overlapping calls.
-/

set_option autoImplicit false

namespace IthmbPlugin.Footprint
open IthmbPlugin.Types IthmbPlugin.Ownership IthmbPlugin.Runs IthmbPlugin.Calls
open IthmbPlugin.Discipline IthmbPlugin.DecodeContract IthmbPlugin.Tracking IthmbPlugin.Phases

def inHands (call : Call) : Option Addr := (ownedPtr call).or (callHolds call)

/-- The block is there for the struct. -/
def Charged (w : World) (s : SlotId) (p : Addr) : Prop :=
  slotHolds w.history w.slots s = some p ∨
    ∃ c call, w.calls.lookup c = some call ∧ call.slot = s ∧ inHands call = some p

section Charging
variable {w : World} {s t : SlotId} {p q : Addr} {c : CallId} {call : Call}

theorem stage_empty (h : Stage w call) (hp : inHands call = some p) :
    slotHolds w.history w.slots call.slot = none := by
  cases call with
  | decoding s f => cases hp
  | allocated s f q => exact h.1
  | copied s f q => exact h.1
  | registered s f q => exact h.1
  | rejected s q => exact h.elim
  | freeing s => cases hp
  | cleared s q origin => exact h
  | unregistered s q => exact h

theorem inHands_cases (hc : w.calls.lookup c = some call) (hp : inHands call = some p) :
    owned w c = some p ∨ holders w (.inr c) = some p := by
  rcases Option.or_eq_some_iff.mp hp with howned | ⟨-, hholds⟩
  · exact Or.inl ((show owned w c = ownedPtr call from holder_of_lookup hc).trans howned)
  · exact Or.inr ((show holder callHolds w.calls c = _ from holder_of_lookup hc).trans hholds)

theorem inHands_exclusive (h : Tracked w) {d : CallId} {call' : Call}
    (hc : w.calls.lookup c = some call) (hp : inHands call = some p)
    (hd : w.calls.lookup d = some call') (hp' : inHands call' = some p) : c = d := by
  rcases inHands_cases hc hp with ho | hh <;> rcases inHands_cases hd hp' with ho' | hh'
  · exact h.disciplined.holders.exclusive c d p ho ho'
  · exact absurd (h.holders.mem hh') (h.disciplined.owned_live ho).2
  · exact absurd (h.holders.mem hh) (h.disciplined.owned_live ho').2
  · exact Sum.inr.inj (h.holders.exclusive _ _ p hh hh')

theorem slot_not_inHands (h : Tracked w) (hs : slotHolds w.history w.slots s = some p)
    (hc : w.calls.lookup c = some call) : inHands call ≠ some p := by
  intro hp
  have hslot : holders w (.inl s) = some p := hs
  rcases inHands_cases hc hp with ho | hh
  · exact (h.disciplined.owned_live ho).2 (h.holders.mem hslot)
  · cases h.holders.exclusive _ _ p hslot hh

theorem live_charged (h : Tracked w) (hp : p ∈ w.memory.live) : ∃ s, Charged w s p := by
  by_cases hkey : p ∈ w.registry.entries
  · obtain ⟨o, ho⟩ := (h.holders.covers p).mp hkey
    cases o with
    | inl s => exact ⟨s, Or.inl ho⟩
    | inr c =>
      obtain ⟨call, hc, hholds⟩ := holder_some ho
      refine ⟨call.slot, Or.inr ⟨c, call, hc, rfl, ?_⟩⟩
      cases call <;> cases hholds <;> rfl
  · obtain ⟨c, hc⟩ := (h.disciplined.holders.covers p).mp ⟨hp, hkey⟩
    obtain ⟨call, hcall, hown⟩ := holder_some hc
    exact ⟨call.slot, Or.inr ⟨c, call, hcall, rfl, by rw [inHands, hown, Option.some_or]⟩⟩

theorem charged_struct (h : Tracked w) (hs : Charged w s p) (ht : Charged w t p) : s = t := by
  rcases hs with hs | ⟨c, call, hc, rfl, hp⟩ <;> rcases ht with ht | ⟨d, call', hd, rfl, hp'⟩
  · exact Sum.inl.inj (h.holders.exclusive (.inl s) (.inl t) p hs ht)
  · exact absurd hp' (slot_not_inHands h hs hd)
  · exact absurd hp (slot_not_inHands h ht hc)
  · cases inHands_exclusive h hc hp hd hp'
    cases hc.symm.trans hd
    rfl

theorem charged_block (h : Tracked w) (hp : Charged w s p) (hq : Charged w s q) : p = q := by
  rcases hp with hp | ⟨c, call, hc, hslot, hp⟩ <;> rcases hq with hq | ⟨d, call', hd, hslot', hq⟩
  · exact Option.some.inj (hp.symm.trans hq)
  · subst hslot'
    cases hp.symm.trans (stage_empty (h.stage d call' hd) hq)
  · subst hslot
    cases hq.symm.trans (stage_empty (h.stage c call hc) hp)
  · cases h.apart c d call call' hc hd (hslot.trans hslot'.symm)
    cases hc.symm.trans hd
    exact Option.some.inj (hp.symm.trans hq)

end Charging

def DecodesInto (S : Finset SlotId) : Action → Prop
  | .beginDecode _ slot _ _ _ => ∀ s ∈ slot, s ∈ S
  | _ => True

instance (S : Finset SlotId) : (a : Action) → Decidable (DecodesInto S a)
  | .hostWrite .. => isTrue trivial
  | .hostCopy .. => isTrue trivial
  | .beginDecode _ slot _ _ _ => inferInstanceAs (Decidable (∀ s ∈ slot, s ∈ S))
  | .beginFree .. => isTrue trivial
  | .advance .. => isTrue trivial

def target : Call → Option SlotId
  | .freeing _ => none
  | call => some call.slot

structure Confined (S : Finset SlotId) (w : World) : Prop where
  filled : ∀ s, everFilled w.history s = true → s ∈ S
  calls : ∀ c s, holder target w.calls c = some s → s ∈ S

theorem everFilled_append {new history : List HostEvent} {s : SlotId}
    (h : everFilled (new++history) s = true) :
    everFilled history s = true ∨ ∃ k p, .published s k p ∈ new := by
  induction new with
  | nil => exact Or.inl h
  | cons e new ih =>
    have hrest : everFilled (new++history) s = true →
        everFilled history s = true ∨ ∃ k p, .published s k p ∈ e::new := by
      intro hold
      rcases ih hold with hold | ⟨k, p, hmem⟩
      · exact Or.inl hold
      · exact Or.inr ⟨k, p, List.mem_cons_of_mem e hmem⟩
    cases e with
    | published t k p =>
      by_cases ht : t = s
      · exact Or.inr ⟨k, p, ht ▸ List.mem_cons_self⟩
      · exact hrest ((if_neg ht).symm.trans h)
    | refused t status => exact hrest h
    | surrendered t k => exact hrest h
    | freed t => exact hrest h

section Confined
variable {S : Finset SlotId} {w : World} {c : CallId} {call : Call} {answer : Addr}

theorem Confined.charged (h : Confined S w) {s : SlotId} {p : Addr} (hs : Charged w s p) :
    s ∈ S := by
  rcases hs with hs | ⟨c, call, hc, rfl, hp⟩
  · exact h.filled s (slotHolds_some hs).1
  · refine h.calls c call.slot ((holder_of_lookup hc).trans ?_)
    cases call <;> first | rfl | cases hp

theorem advance_confined (ht : Tracked w) (h : Confined S w) (hc : w.calls.lookup c = some call) :
    Confined S (w.advance c answer call) where
  filled s hs := by
    obtain ⟨new, heq, hnew⟩ := advance_history w c answer call
    rw [heq] at hs
    rcases everFilled_append hs with hold | ⟨k, p, hmem⟩
    · exact h.filled s hold
    · have hwaiting := hnew s k p hmem
      refine h.calls c s ((holder_of_lookup hc).trans ?_)
      cases call <;> cases hwaiting
      rfl
  calls d s hd := by
    rcases advance_holder hd with ⟨rfl, next, hnext, hself⟩ | hold
    · have hbefore : target call = some s → s ∈ S :=
        fun ht => h.calls d s ((holder_of_lookup hc).trans ht)
      cases hnext with
      | clears hnull =>
        cases hself
        exact h.filled _ ((ht.stage d _ hc).resolve_right hnull)
      | _ => exact hbefore hself
    · exact h.calls d s hold

theorem Confined.begins (h : Confined S w) (hnew : ∀ s, target call = some s → s ∈ S) :
    Confined S (w.setCall c call) where
  filled := h.filled
  calls d s hd := by
    rcases holder_insert_some hd with ⟨-, hself⟩ | ⟨-, hold⟩
    · exact hnew s hself
    · exact h.calls d s hold

theorem step_confined (w : World) (a : Action) (w' : World) (h : Tracked w ∧ Confined S w)
    (hok : Conforming w a ∧ DecodesInto S a) (hs : step w a = some w') :
    Tracked w' ∧ Confined S w' := by
  obtain ⟨ht, h⟩ := h
  refine ⟨step_tracked w a w' ht hok.1 hs, ?_⟩
  rcases step_cases hs with ⟨s, b, rfl, rfl⟩ | ⟨source, target, rfl, rfl⟩ |
    ⟨c, slot, env, path, frameIndex, rfl, hc, ⟨status, rfl, -⟩ | ⟨s, f, rfl, rfl⟩⟩ |
    ⟨c, rfl, rfl⟩ | ⟨c, s, rfl, hc, rfl⟩ | ⟨c, answer, call, rfl, hc, rfl⟩
  · exact ⟨h.filled, h.calls⟩
  · exact ⟨h.filled, h.calls⟩
  · exact ⟨h.filled, h.calls⟩
  · exact h.begins (fun t ht => Option.some.inj ht ▸ hok.2 s rfl)
  · exact ⟨h.filled, h.calls⟩
  · exact h.begins (fun t ht => by cases ht)
  · exact advance_confined ht h hc

end Confined

/-- A conforming host is charged one block a struct. At every moment of every
run each live block is there for exactly one struct and no struct has two, so
that there are never more live blocks than structs decoded into. -/
theorem one_block_a_struct (slots : SlotId → IGPixelBuffer) (as : List Action) (w : World)
    (hrun : run step as (.initial slots) = some w)
    (hok : Admits step Conforming as (.initial slots)) (S : Finset SlotId)
    (hS : ∀ a ∈ as, DecodesInto S a) :
    (∀ p, p ∈ w.memory.live → ∃! s, Charged w s p) ∧
    (∀ s p q, Charged w s p → Charged w s q → p = q) ∧
    w.memory.live.keys.card ≤ S.card := by
  have hinto : Admits step (fun _ => DecodesInto S) as (.initial slots) :=
    admits_of_forall (fun _ => hS) _
  have hinit : Tracked (.initial slots) ∧ Confined S (.initial slots) :=
    ⟨initial_tracked slots, ⟨(fun s hs => by cases hs), (fun c call hc => by cases hc)⟩⟩
  obtain ⟨ht, hconf⟩ := run_invariant step_confined as _ w hinit (hok.and hinto) hrun
  refine ⟨?_, fun s p q => charged_block ht, ?_⟩
  · intro p hp
    obtain ⟨s, hs⟩ := live_charged ht hp
    exact ⟨s, hs, fun t hcharged => charged_struct ht hcharged hs⟩
  · have hcharged : ∀ p, ∃ s, p ∈ w.memory.live.keys → Charged w s p := by
      intro p
      by_cases hp : p ∈ w.memory.live
      · obtain ⟨s, hs⟩ := live_charged ht hp
        exact ⟨s, fun _ => hs⟩
      · exact ⟨0, fun hkey => absurd (Finmap.mem_keys.mp hkey) hp⟩
    choose f hf using hcharged
    refine Finset.card_le_card_of_injOn f (fun p hp => hconf.charged (hf p hp)) ?_
    intro p hp q hq heq
    exact charged_block ht (hf p hp) (heq ▸ hf q hq)

theorem one_block_a_struct_refill :
    ∃ w, run step refill (.initial fun _ => emptyBuffer) = some w ∧
      w.memory.live.keys.card ≤ ({0,1} : Finset SlotId).card := by
  obtain ⟨w, hw⟩ : ∃ w, run step refill (.initial fun _ => emptyBuffer) = some w :=
    Option.isSome_iff_exists.mp (by decide)
  exact ⟨w, hw, (one_block_a_struct _ refill w hw (by decide) {0,1} (by decide)).2.2⟩

end IthmbPlugin.Footprint
