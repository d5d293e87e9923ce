import IthmbPlugin.Library.Runs
import Mathlib.Algebra.BigOperators.Group.Finset.Basic
import Mathlib.Algebra.Order.BigOperators.Group.Finset
import Mathlib.Algebra.Group.Action.Defs
import Mathlib.Data.Finmap

/-!
# Programs with ranks

Each program in progress has a key and a rank, and a step of a program ends it
or leaves it with a lower rank. Then a program cannot be kept from its end by
the others, however they are scheduled, and all of them together take no more
steps than their ranks add up to.
-/

set_option autoImplicit false

namespace IthmbPlugin.Ranked
open IthmbPlugin.Runs

variable {K β : Type*}

structure Moved (rank : β → ℕ) (look : K → Option β) (k : K) (b : β) (look' : K → Option β) :
    Prop where
  other : ∀ j, j ≠ k → look' j = look j
  self : look' k = none ∨ ∃ b', look' k = some b' ∧ rank b' < rank b

def total (rank : β → ℕ) (keys : Finset K) (look : K → Option β) : ℕ :=
  ∑ k ∈ keys, (look k).elim 0 rank

variable {rank : β → ℕ} {look look' : K → Option β} {keys : Finset K} {k : K} {b : β}

theorem total_le {n : ℕ} (hrank : ∀ b, rank b ≤ n) : total rank keys look ≤ keys.card*n := by
  rw [total, ← smul_eq_mul]
  apply Finset.sum_le_card_nsmul
  intro k _
  cases look k with
  | none => exact Nat.zero_le n
  | some b => exact hrank b

variable [DecidableEq K]

theorem total_split (hmem : k ∈ keys) (hk : look k = some b) :
    total rank keys look = rank b+total rank (keys.erase k) look := by
  rw [total, ← Finset.add_sum_erase _ _ hmem, hk, Option.elim_some, total]

theorem total_moved (hrank : 0 < rank b) (hmem : k ∈ keys) (hk : look k = some b)
    (h : Moved rank look k b look') : total rank keys look' < total rank keys look := by
  have hrest : total rank (keys.erase k) look' = total rank (keys.erase k) look :=
    Finset.sum_congr rfl fun j hj => by rw [h.other j (Finset.ne_of_mem_erase hj)]
  rw [total_split hmem hk]
  rcases h.self with hnone | ⟨b', hb', hlt⟩
  · rw [total, ← Finset.add_sum_erase _ _ hmem, hnone, Option.elim_none, zero_add]
    exact hrest.trans_lt (Nat.lt_add_of_pos_left hrank)
  · rw [total_split hmem hb', hrest]
    omega

section Map
variable {m : Finmap (fun _ : K => β)}

theorem moved_erase : Moved rank m.lookup k b (m.erase k).lookup where
  other _ hj := Finmap.lookup_erase_ne hj
  self := Or.inl (Finmap.lookup_erase k m)

theorem moved_insert {b' : β} (h : rank b' < rank b) :
    Moved rank m.lookup k b (m.insert k b').lookup where
  other _ hj := Finmap.lookup_insert_of_ne _ hj
  self := Or.inr ⟨b', Finmap.lookup_insert m, h⟩

theorem lookup_keys (h : m.lookup k ≠ none) : k ∈ m.keys :=
  Finmap.mem_keys.mpr (not_imp_comm.mp Finmap.lookup_eq_none.mpr h)

end Map

section Machine
variable {S A : Type*} {step : S → A → Option S} {programs : S → K → Option β}
variable {mover : A → Option K}

/-- A program in progress has a step before it. An action moves the program it
names, and leaves any other where it is. -/
structure Schedules (step : S → A → Option S) (programs : S → K → Option β)
    (mover : A → Option K) (rank : β → ℕ) : Prop where
  positive : ∀ s k b, programs s k = some b → 0 < rank b
  moves : ∀ s a s' k, mover a = some k → step s a = some s' →
    ∃ b, programs s k = some b ∧ Moved rank (programs s) k b (programs s')
  stays : ∀ s a s' k b, mover a ≠ some k → step s a = some s' →
    programs s k = some b → programs s' k = some b

/-- Steps of programs alone cannot go on for longer than the ranks allow. -/
theorem schedule_bounded (h : Schedules step programs mover rank) (as : List A)
    (hmoves : ∀ a ∈ as, (mover a).isSome = true) {s t : S}
    (hkeys : ∀ k, programs s k ≠ none → k ∈ keys) (hrun : run step as s = some t) :
    as.length+total rank keys (programs t) ≤ total rank keys (programs s) := by
  induction as generalizing s with
  | nil =>
    cases hrun
    simp
  | cons a as ih =>
    obtain ⟨s', hs, hrest⟩ := run_cons hrun
    obtain ⟨k, hk⟩ := Option.isSome_iff_exists.mp (hmoves a List.mem_cons_self)
    obtain ⟨b, hb, hmoved⟩ := h.moves s a s' k hk hs
    have hmem : k ∈ keys := hkeys k (by simp [hb])
    have hkeys' : ∀ j, programs s' j ≠ none → j ∈ keys := by
      intro j hj
      by_cases hjk : j = k
      · rwa [hjk]
      · exact hkeys j (by rwa [← hmoved.other j hjk])
    have hlt := total_moved (h.positive s k b hb) hmem hb hmoved
    have hle := ih (fun a' ha => hmoves a' (List.mem_cons_of_mem a ha)) hkeys' hrest
    rw [List.length_cons]
    omega

/-- A program that gets as many steps as its rank comes to its end in between,
whatever the others do meanwhile. -/
theorem ends_within (h : Schedules step programs mover rank) (as : List A)
    {s t : S} {k : K} {b : β} (hb : programs s k = some b)
    (hrun : run step as s = some t) (hsteps : rank b ≤ as.countP (fun a => mover a = some k)) :
    ∃ early late v, as = early++late ∧ run step early s = some v ∧ programs v k = none := by
  induction as generalizing s b with
  | nil => exact absurd hsteps (Nat.not_le_of_gt (h.positive s k b hb))
  | cons a as ih =>
    obtain ⟨s', hs, hrest⟩ := run_cons hrun
    have hafter : (∃ early late v, as = early++late ∧ run step early s' = some v ∧
        programs v k = none) →
        ∃ early late v, a::as = early++late ∧ run step early s = some v ∧
          programs v k = none := by
      rintro ⟨early, late, v, rfl, hv, hk⟩
      exact ⟨a::early, late, v, rfl, by rw [run, hs, Option.bind_some, hv], hk⟩
    by_cases ha : mover a = some k
    · obtain ⟨b₀, hb₀, hmoved⟩ := h.moves s a s' k ha hs
      cases hb.symm.trans hb₀
      rw [List.countP_cons_of_pos (by simpa using ha)] at hsteps
      rcases hmoved.self with hgone | ⟨b', hb', hlt⟩
      · exact ⟨[a], as, s', rfl, by rw [run, hs]; rfl, hgone⟩
      · exact hafter (ih hb' hrest (by omega))
    · rw [List.countP_cons_of_neg (by simpa using ha)] at hsteps
      exact hafter (ih (h.stays s a s' k b ha hs hb) hrest hsteps)

end Machine

end IthmbPlugin.Ranked
