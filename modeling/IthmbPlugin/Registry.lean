import IthmbPlugin.Types
import Mathlib.Data.Finmap

/-!
# The buffer registry

A map from data pointers to entries behind a mutex. Registration refuses a
pointer that is already tracked, removal refuses one that is not, and both
refuse everything once the mutex is poisoned. The three questions about the
map are answered from the recovered map even then.
-/

set_option autoImplicit false

namespace IthmbPlugin.Registry
open IthmbPlugin.Types

structure BufferEntry where
  ptr : Addr
  size : ℕ
  freed : Bool
  deriving DecidableEq, Repr

structure BufferRegistry where
  entries : Finmap (fun _ : Addr => BufferEntry)
  poisoned : Bool
  deriving DecidableEq

def BufferRegistry.new : BufferRegistry := { entries := ∅, poisoned := false }

def BufferRegistry.track (r : BufferRegistry) (data : Addr) (size : ℕ) : BufferRegistry :=
  { r with entries := r.entries.insert data { ptr := data, size := size, freed := false } }

def BufferRegistry.untrack (r : BufferRegistry) (data : Addr) : BufferRegistry :=
  { r with entries := r.entries.erase data }

def register (r : BufferRegistry) (data : Addr) (size : ℕ) :
    Except IGStatus Unit × BufferRegistry :=
  if r.poisoned then (.error .internal,r)
  else if data ∈ r.entries then (.error .invalidArg,r)
  else (.ok (),r.track data size)

def unregister (r : BufferRegistry) (data : Addr) : Except IGStatus BufferEntry × BufferRegistry :=
  if r.poisoned then (.error .internal,r)
  else match r.entries.lookup data with
    | none => (.error .invalidArg,r)
    | some entry => (.ok entry,r.untrack data)

def contains (r : BufferRegistry) (data : Addr) : Bool := decide (data ∈ r.entries)

def len (r : BufferRegistry) : ℕ := r.entries.keys.card

def isEmpty (r : BufferRegistry) : Bool := len r == 0

theorem register_cases (r : BufferRegistry) (data : Addr) (size : ℕ) :
    (r.poisoned = false ∧ data ∉ r.entries ∧
      register r data size = (.ok (),r.track data size)) ∨
    (∃ status, register r data size = (.error status,r) ∧
      (r.poisoned = true ∨ data ∈ r.entries)) := by
  unfold register
  cases hp : r.poisoned with
  | true => exact Or.inr ⟨.internal, by simp, Or.inl rfl⟩
  | false =>
    by_cases hm : data ∈ r.entries
    · exact Or.inr ⟨.invalidArg, by simp [hm], Or.inr hm⟩
    · exact Or.inl ⟨rfl, hm, by simp [hm]⟩

theorem unregister_cases (r : BufferRegistry) (data : Addr) :
    (∃ entry, r.poisoned = false ∧ r.entries.lookup data = some entry ∧
      unregister r data = (.ok entry,r.untrack data)) ∨
    (∃ status, unregister r data = (.error status,r) ∧
      (r.poisoned = true ∨ data ∉ r.entries)) := by
  unfold unregister
  cases hp : r.poisoned with
  | true => exact Or.inr ⟨.internal, by simp, Or.inl rfl⟩
  | false =>
    cases hl : r.entries.lookup data with
    | none => exact Or.inr ⟨.invalidArg, by simp, Or.inr (Finmap.lookup_eq_none.mp hl)⟩
    | some entry => exact Or.inl ⟨entry, rfl, rfl, by simp⟩

section Healthy
variable {r : BufferRegistry} {data : Addr}

theorem register_untracked (hp : r.poisoned = false) (h : r.entries.lookup data = none)
    (size : ℕ) : register r data size = (.ok (),r.track data size) := by
  simp [register, hp, Finmap.lookup_eq_none.mp h]

theorem register_tracked {entry : BufferEntry} (hp : r.poisoned = false)
    (h : r.entries.lookup data = some entry) (size : ℕ) :
    register r data size = (.error .invalidArg,r) := by
  simp [register, hp, Finmap.mem_of_lookup_eq_some h]

theorem unregister_tracked {entry : BufferEntry} (hp : r.poisoned = false)
    (h : r.entries.lookup data = some entry) :
    unregister r data = (.ok entry,r.untrack data) := by
  simp [unregister, hp, h]

theorem unregister_untracked (hp : r.poisoned = false) (h : r.entries.lookup data = none) :
    unregister r data = (.error .invalidArg,r) := by
  simp [unregister, hp, h]

end Healthy

end IthmbPlugin.Registry
