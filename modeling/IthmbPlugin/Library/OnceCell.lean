import Mathlib.Tactic.Basic

/-!
# Once-cells

A cell holds its first value for ever. Filling it may fail: the closure that
computes the value can panic, which leaves an empty cell empty. Whatever was
read from a cell stays true of it.
-/

set_option autoImplicit false

namespace IthmbPlugin.OnceCell

variable {α : Type*}

def set (cell : Option α) (v : α) : Option α :=
  match cell with
  | some old => some old
  | none => some v

/-- The content after `get_or_init`, whose closure answers nothing when it
panics. The call itself panics when the content is still missing. -/
def getOrInit (cell closure : Option α) : Option α :=
  match cell with
  | some old => some old
  | none => closure

def Extends (before after : Option α) : Prop := ∀ v, before = some v → after = some v

theorem extends_refl (cell : Option α) : Extends cell cell := fun _ h => h

theorem extends_set (cell : Option α) (v : α) : Extends cell (set cell v) := by
  rintro w rfl
  rfl

theorem extends_getOrInit (cell closure : Option α) : Extends cell (getOrInit cell closure) := by
  rintro w rfl
  rfl

theorem Extends.isSome {before after : Option α} (h : Extends before after)
    (hs : before.isSome = true) : after.isSome = true := by
  obtain ⟨v, hv⟩ := Option.isSome_iff_exists.mp hs
  rw [h v hv]
  rfl

theorem Extends.eq {before after : Option α} (h : Extends before after)
    (hs : before.isSome = true) : after = before := by
  obtain ⟨v, hv⟩ := Option.isSome_iff_exists.mp hs
  rw [hv, h v hv]

theorem set_isSome (cell : Option α) (v : α) : (set cell v).isSome = true := by
  cases cell <;> rfl

theorem getOrInit_cases {cell closure : Option α} {v : α} (h : getOrInit cell closure = some v) :
    cell = some v ∨ (cell = none ∧ closure = some v) := by
  cases cell with
  | some old => exact Or.inl h
  | none => exact Or.inr ⟨rfl, h⟩

end IthmbPlugin.OnceCell
