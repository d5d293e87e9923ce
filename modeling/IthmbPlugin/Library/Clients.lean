import IthmbPlugin.Library.Runs
import Mathlib.Logic.Function.Basic

/-!
# Clients of a changing world

Any number of clients look at a world that others change. A client acts on what
it knows itself and never on the world, so what holds of the world and of each
client apart is kept by two step lemmas, one for the others and one for a
client.
-/

set_option autoImplicit false

namespace IthmbPlugin.Clients
open IthmbPlugin.Runs

variable {ι W L B A : Type*}

structure Shared (ι W L : Type*) where
  world : W
  clients : ι → L

inductive Event (ι B A : Type*) where
  | outside (change : B)
  | client (i : ι) (act : A)

variable [DecidableEq ι] {change : W → B → W} {act : W → L → A → Option L}

def Shared.learns (s : Shared ι W L) (i : ι) (l : L) : Shared ι W L :=
  { s with clients := Function.update s.clients i l }

def step (change : W → B → W) (act : W → L → A → Option L) (s : Shared ι W L) :
    Event ι B A → Option (Shared ι W L)
  | .outside b => some { s with world := change s.world b }
  | .client i a => (act s.world (s.clients i) a).map (s.learns i)

@[simp] theorem learns_world (s : Shared ι W L) (i : ι) (l : L) :
    (s.learns i l).world = s.world := rfl

@[simp] theorem learns_self (s : Shared ι W L) (i : ι) (l : L) : (s.learns i l).clients i = l := by
  simp [Shared.learns]

theorem learns_other (s : Shared ι W L) {i j : ι} (h : j ≠ i) (l : L) :
    (s.learns i l).clients j = s.clients j := by
  simp [Shared.learns, h]

@[simp] theorem learns_learns (s : Shared ι W L) (i : ι) (l l' : L) :
    (s.learns i l).learns i l' = s.learns i l' := by
  simp [Shared.learns]

theorem run_client {i : ι} {a : A} {s : Shared ι W L} {l : L}
    (h : act s.world (s.clients i) a = some l) (es : List (Event ι B A)) :
    run (step change act) (.client i a::es) s = run (step change act) es (s.learns i l) := by
  simp [run, step, h]

theorem run_learned {i : ι} {a : A} {s : Shared ι W L} {l l' : L}
    (h : act s.world l a = some l') (es : List (Event ι B A)) :
    run (step change act) (.client i a::es) (s.learns i l) =
      run (step change act) es (s.learns i l') := by
  have hact : act (s.learns i l).world ((s.learns i l).clients i) a = some l' := by
    rwa [learns_world, learns_self]
  rw [run_client hact, learns_learns]

def Keeps (World : W → Prop) (Each : W → ι → L → Prop) (s : Shared ι W L) : Prop :=
  World s.world ∧ ∀ i, Each s.world i (s.clients i)

/-- What the others and the clients' own steps preserve holds in every state
reached. -/
theorem reached_keeps {ok : Shared ι W L → Event ι B A → Prop} {World : W → Prop}
    {Each : W → ι → L → Prop} {init s : Shared ι W L} (hinit : Keeps World Each init)
    (houtside : ∀ s b, ok s (.outside b) → World s.world → World (change s.world b) ∧
      ∀ i l, Each s.world i l → Each (change s.world b) i l)
    (hclient : ∀ s i a l, ok s (.client i a) → World s.world →
      Each s.world i (s.clients i) → act s.world (s.clients i) a = some l → Each s.world i l)
    (h : Reached (step change act) ok init s) : Keeps World Each s := by
  have hstep : ∀ s e s', Keeps World Each s → ok s e → step change act s e = some s' →
      Keeps World Each s' := by
    rintro s e s' ⟨hw, hc⟩ hok hstep
    cases e with
    | outside b =>
      cases hstep
      obtain ⟨hw', hkeep⟩ := houtside s b hok hw
      exact ⟨hw', fun i => hkeep i (s.clients i) (hc i)⟩
    | client i a =>
      obtain ⟨l, hl, rfl⟩ := Option.map_eq_some_iff.mp hstep
      refine ⟨hw, fun j => ?_⟩
      by_cases hj : j = i
      · subst hj
        rw [learns_self]
        exact hclient s j a l hok hw (hc j) hl
      · rw [learns_other s hj]
        exact hc j
  exact reached_invariant hinit hstep h

end IthmbPlugin.Clients
