import Mathlib.Data.Set.Insert
import Mathlib.Tactic.Tauto

/-!
# Traces of an allocator

The newest event stands first. A trace is disciplined when an allocation
returns an address that is not live, and a release or a write addresses a
live one. Double release and release of a foreign address are both excluded
by that one condition, at every prefix of the trace.
-/

set_option autoImplicit false

namespace IthmbPlugin.AllocTrace

variable {P : Type*}

/-- `copy p available count` writes `count` bytes into the block at `p` from
a source that holds `available` bytes. -/
inductive Event (P : Type*) where
  | malloc (p : P) (size : ℕ)
  | copy (p : P) (available count : ℕ)
  | free (p : P)
  deriving DecidableEq, Repr

def live : List (Event P) → Set P
  | [] => ∅
  | .malloc p _::t => insert p (live t)
  | .copy _ _ _::t => live t
  | .free p::t => live t \ {p}

def Disciplined : List (Event P) → Prop
  | [] => True
  | .malloc p _::t => p ∉ live t ∧ Disciplined t
  | .copy p _ _::t => p ∈ live t ∧ Disciplined t
  | .free p::t => p ∈ live t ∧ Disciplined t

def mallocs : List (Event P) → ℕ
  | [] => 0
  | .malloc _ _::t => mallocs t+1
  | .copy _ _ _::t => mallocs t
  | .free _::t => mallocs t

theorem disciplined_tail (e : Event P) (t : List (Event P)) (h : Disciplined (e::t)) :
    Disciplined t := by
  cases e <;> exact h.2

theorem disciplined_suffix (s t : List (Event P)) (h : Disciplined (s++t)) :
    Disciplined t := by
  induction s with
  | nil => exact h
  | cons e s ih => exact ih (disciplined_tail e (s++t) h)

theorem live_allocated (t : List (Event P)) (p : P) (h : p ∈ live t) :
    ∃ since size before, t = since++.malloc p size::before ∧ .free p ∉ since := by
  induction t with
  | nil => exact absurd h (Set.notMem_empty p)
  | cons e t ih =>
    have older : p ∈ live t → e ≠ .free p →
        ∃ since size before, e::t = since++.malloc p size::before ∧ .free p ∉ since := by
      intro hp he
      obtain ⟨since, size, before, rfl, hf⟩ := ih hp
      exact ⟨e::since, size, before, rfl, by simp [hf, he.symm]⟩
    cases e with
    | malloc q n =>
      rcases h with rfl | hp
      · exact ⟨[], n, t, rfl, by simp⟩
      · exact older hp (by simp)
    | copy q a n => exact older h (by simp)
    | free q => exact older h.1 (by simpa using fun hq : q = p => h.2 hq.symm)

theorem free_of_malloc (after before : List (Event P)) (p : P)
    (h : Disciplined (after++.free p::before)) :
    ∃ since size early, before = since++.malloc p size::early ∧ .free p ∉ since :=
  live_allocated before p (disciplined_suffix after _ h).1

section Counting
variable [DecidableEq P]

def mallocsOf (p : P) : List (Event P) → ℕ
  | [] => 0
  | .malloc q _::t => mallocsOf p t+if q = p then 1 else 0
  | .copy _ _ _::t => mallocsOf p t
  | .free _::t => mallocsOf p t

def freesOf (p : P) : List (Event P) → ℕ
  | [] => 0
  | .malloc _ _::t => freesOf p t
  | .copy _ _ _::t => freesOf p t
  | .free q::t => freesOf p t+if q = p then 1 else 0

open Classical in
theorem mallocs_balance (t : List (Event P)) (h : Disciplined t) (p : P) :
    mallocsOf p t = freesOf p t+if p ∈ live t then 1 else 0 := by
  induction t with
  | nil => simp [mallocsOf, freesOf, live]
  | cons e t ih =>
    have hb := ih (disciplined_tail e t h)
    cases e with
    | malloc q n =>
      have hq := h.1
      by_cases hqp : q = p
      · subst hqp
        simp [mallocsOf, freesOf, live, hb, hq]
      · simp [mallocsOf, freesOf, live, hb, hqp, Ne.symm hqp]
    | copy q a n => exact hb
    | free q =>
      have hq := h.1
      by_cases hqp : q = p
      · subst hqp
        simp [mallocsOf, freesOf, live, hb, hq]
      · simp [mallocsOf, freesOf, live, hb, hqp, Ne.symm hqp]

def sizeAt (p : P) : List (Event P) → Option ℕ
  | [] => none
  | .malloc q size::t => if q = p then some size else sizeAt p t
  | .copy _ _ _::t => sizeAt p t
  | .free _::t => sizeAt p t

/-- No copy reads past its source or writes past its block. -/
def CopiesFit : List (Event P) → Prop
  | [] => True
  | .malloc _ _::t => CopiesFit t
  | .copy p available count::t =>
    count ≤ available ∧ (∃ size, sizeAt p t = some size ∧ count ≤ size) ∧ CopiesFit t
  | .free _::t => CopiesFit t

def CopiesFill : List (Event P) → Prop
  | [] => True
  | .malloc _ _::t => CopiesFill t
  | .copy p available count::t => count ≤ available ∧ sizeAt p t = some count ∧ CopiesFill t
  | .free _::t => CopiesFill t

theorem CopiesFill.tail {e : Event P} {t : List (Event P)} (h : CopiesFill (e::t)) :
    CopiesFill t := by
  cases e with
  | malloc p n => exact h
  | copy p a n => exact h.2.2
  | free p => exact h

theorem CopiesFill.suffix {s t : List (Event P)} (h : CopiesFill (s++t)) : CopiesFill t := by
  induction s with
  | nil => exact h
  | cons e s ih => exact ih h.tail

end Counting

end IthmbPlugin.AllocTrace
