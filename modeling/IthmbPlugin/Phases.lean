import IthmbPlugin.Calls
import IthmbPlugin.Library.Ownership

/-!
# From step to step of a call

What follows on what in the code of a call, and what the host sees of one step.
-/

set_option autoImplicit false

namespace IthmbPlugin.Phases
open IthmbPlugin.Types IthmbPlugin.Registry IthmbPlugin.Decode
open IthmbPlugin.Calls IthmbPlugin.Ownership

/-- The point a call goes on to, with the tests it has passed. -/
inductive Follows (w : World) : Call → Call → Prop
  | allocates {s : SlotId} {f : Frame} {p : Addr} : p ≠ null →
      Follows w (.decoding s f) (.allocated s f p)
  | copies {s : SlotId} {f : Frame} {p : Addr} : Follows w (.allocated s f p) (.copied s f p)
  | registers {s : SlotId} {f : Frame} {p : Addr} : w.registry.poisoned = false →
      p ∉ w.registry.entries → Follows w (.copied s f p) (.registered s f p)
  | rejects {s : SlotId} {f : Frame} {p : Addr} :
      w.registry.poisoned = true ∨ p ∈ w.registry.entries →
      Follows w (.copied s f p) (.rejected s p)
  | clears {s : SlotId} : (w.slots s).data ≠ null →
      Follows w (.freeing s) (.cleared s (w.slots s).data (w.origins s))
  | unregisters {s : SlotId} {p : Addr} {origin : Option ℕ} : w.registry.poisoned = false →
      p ∈ w.registry.entries → Follows w (.cleared s p origin) (.unregistered s p)

theorem advance_follows (w : World) (c : CallId) (answer : Addr) (call : Call) :
    (w.advance c answer call).calls = w.calls.erase c ∨
      ∃ next, (w.advance c answer call).calls = w.calls.insert c next ∧ Follows w call next := by
  cases call with
  | decoding s f =>
    simp only [World.advance]
    split_ifs with hnull
    · exact Or.inl rfl
    · exact Or.inr ⟨_, rfl, .allocates hnull⟩
  | allocated s f p => exact Or.inr ⟨_, rfl, .copies⟩
  | copied s f p =>
    rcases register_cases w.registry p f.bufSize with ⟨hp, hkey, hreg⟩ | ⟨status, hreg, hwhy⟩ <;>
      simp only [World.advance, hreg]
    · exact Or.inr ⟨_, rfl, .registers hp hkey⟩
    · exact Or.inr ⟨_, rfl, .rejects hwhy⟩
  | registered s f p => exact Or.inl rfl
  | rejected s p => exact Or.inl rfl
  | freeing s =>
    simp only [World.advance]
    split_ifs with hnull
    · exact Or.inl rfl
    · exact Or.inr ⟨_, rfl, .clears hnull⟩
  | cleared s p origin =>
    rcases unregister_cases w.registry p with ⟨entry, hp, hl, hreg⟩ | ⟨status, hreg, -⟩ <;>
      simp only [World.advance, hreg]
    · exact Or.inr ⟨_, rfl, .unregisters hp (Finmap.mem_of_lookup_eq_some hl)⟩
    · exact Or.inl rfl
  | unregistered s p => exact Or.inl rfl

theorem advance_holder {X : Type*} {holds : Call → Option X} {w : World} {c d : CallId}
    {answer : Addr} {call : Call} {x : X}
    (h : holder holds (w.advance c answer call).calls d = some x) :
    (d = c ∧ ∃ next, Follows w call next ∧ holds next = some x) ∨
      holder holds w.calls d = some x := by
  rcases advance_follows w c answer call with heq | ⟨next, heq, hnext⟩ <;> rw [heq] at h
  · exact Or.inr (holder_erase_some h).2
  · rcases holder_insert_some h with ⟨rfl, hself⟩ | ⟨-, hold⟩
    · exact Or.inl ⟨rfl, next, hnext, hself⟩
    · exact Or.inr hold

theorem step_other {w w' : World} {a : Action} {c : CallId} {call : Call}
    (hs : step w a = some w') (hc : ∀ answer, a ≠ .advance c answer)
    (hcall : w.calls.lookup c = some call) : w'.calls.lookup c = some call := by
  have hbegun : ∀ {d : CallId} {call' : Call}, d ∉ w.calls →
      (w.setCall d call').calls.lookup c = some call := by
    intro d call' hd
    have hne : c ≠ d := fun he => hd (he ▸ Finmap.mem_of_lookup_eq_some hcall)
    exact (Finmap.lookup_insert_of_ne _ hne).trans hcall
  rcases step_cases hs with ⟨s, b, rfl, rfl⟩ | ⟨source, target, rfl, rfl⟩ |
    ⟨d, slot, env, path, frameIndex, rfl, hd, ⟨status, rfl, -⟩ | ⟨s, f, rfl, rfl⟩⟩ |
    ⟨d, rfl, rfl⟩ | ⟨d, s, rfl, hd, rfl⟩ | ⟨d, answer, call', rfl, hd, rfl⟩
  · exact hcall
  · exact hcall
  · exact hcall
  · exact hbegun hd
  · exact hcall
  · exact hbegun hd
  · have hne : c ≠ d := by
      rintro rfl
      exact hc answer rfl
    rcases advance_follows w d answer call' with heq | ⟨next, heq, -⟩ <;> rw [heq]
    · exact (Finmap.lookup_erase_ne hne).trans hcall
    · exact (Finmap.lookup_insert_of_ne _ hne).trans hcall

def waiting : Call → Option (SlotId × Addr)
  | .registered s _ p => some (s,p)
  | _ => none

theorem advance_history (w : World) (c : CallId) (answer : Addr) (call : Call) :
    ∃ new, (w.advance c answer call).history = new++w.history ∧
      ∀ s k p, .published s k p ∈ new → waiting call = some (s,p) := by
  have hone : ∀ {e : HostEvent}, (∀ s k p, e ≠ .published s k p) →
      ∃ new, e::w.history = new++w.history ∧
        ∀ s k p, .published s k p ∈ new → waiting call = some (s,p) := by
    intro e he
    exact ⟨[e], rfl, fun s k p hmem => absurd (List.mem_singleton.mp hmem).symm (he s k p)⟩
  have hnothing : ∃ new, w.history = new++w.history ∧
      ∀ s k p, .published s k p ∈ new → waiting call = some (s,p) :=
    ⟨[], rfl, fun _ _ _ hmem => by cases hmem⟩
  cases call with
  | decoding s f =>
    simp only [World.advance]
    split_ifs
    · exact hone (by simp)
    · exact hnothing
  | allocated s f p => exact hnothing
  | copied s f p =>
    rcases register_cases w.registry p f.bufSize with ⟨-, -, hreg⟩ | ⟨status, hreg, -⟩ <;>
      simp only [World.advance, hreg] <;> exact hnothing
  | registered s f p =>
    refine ⟨[.published s (w.memory.serialAt p) p], rfl, fun t k q hmem => ?_⟩
    cases List.mem_singleton.mp hmem
    rfl
  | rejected s p => exact hone (by simp)
  | freeing s =>
    simp only [World.advance]
    split_ifs
    · exact ⟨[.freed (some s), .surrendered s (w.origins s)], rfl, by simp⟩
    · exact hone (by simp)
  | cleared s p origin =>
    rcases unregister_cases w.registry p with ⟨entry, -, -, hreg⟩ | ⟨status, hreg, -⟩ <;>
      simp only [World.advance, hreg]
    · exact hnothing
    · exact hone (by simp)
  | unregistered s p => exact hone (by simp)

end IthmbPlugin.Phases
