import Mathlib.Data.Finmap
import Mathlib.Data.Set.Insert
import Mathlib.Logic.Function.Basic

/-!
# Exclusive ownership of resources

Owners hold at most one resource each. A set of resources is tracked when
every one of them has exactly one owner and nothing else is held. The rules
say how tracking survives an owner taking a new resource, giving one up and
handing one to another owner.
-/

set_option autoImplicit false

namespace IthmbPlugin.Ownership

variable {O P : Type*}

structure Tracks (own : O → Option P) (held : Set P) : Prop where
  exclusive : ∀ o o' p, own o = some p → own o' = some p → o = o'
  covers : ∀ p, p ∈ held ↔ ∃ o, own o = some p

variable {own : O → Option P} {held : Set P}

theorem tracks_empty : Tracks (fun _ : O => (none : Option P)) ∅ where
  exclusive := by intro o o' p h; cases h
  covers := by simp

theorem Tracks.mem (h : Tracks own held) {o : O} {p : P} (ho : own o = some p) : p ∈ held :=
  (h.covers p).mpr ⟨o, ho⟩

theorem Tracks.congr {own' : O → Option P} {held' : Set P} (h : Tracks own held)
    (hown : ∀ o, own' o = own o) (hheld : ∀ p, p ∈ held' ↔ p ∈ held) : Tracks own' held' where
  exclusive o o' p := by rw [hown, hown]; exact h.exclusive o o' p
  covers p := by simp only [hheld, hown, h.covers]

variable [DecidableEq O]

theorem Tracks.keep (h : Tracks own held) {o : O} {x : Option P} (ho : own o = x) :
    Tracks (Function.update own o x) held := by
  rw [← ho, Function.update_eq_self]
  exact h

theorem Tracks.acquire (h : Tracks own held) {o : O} {p : P} (ho : own o = none)
    (hp : p ∉ held) : Tracks (Function.update own o (some p)) (insert p held) where
  exclusive := by
    intro a b q ha hb
    by_cases hao : a = o <;> by_cases hbo : b = o
    · rw [hao, hbo]
    · subst hao
      rw [Function.update_self] at ha
      rw [Function.update_of_ne hbo] at hb
      cases ha
      exact absurd (h.mem hb) hp
    · subst hbo
      rw [Function.update_self] at hb
      rw [Function.update_of_ne hao] at ha
      cases hb
      exact absurd (h.mem ha) hp
    · rw [Function.update_of_ne hao] at ha
      rw [Function.update_of_ne hbo] at hb
      exact h.exclusive a b q ha hb
  covers := by
    intro q
    constructor
    · rintro (rfl | hq)
      · exact ⟨o, Function.update_self ..⟩
      · obtain ⟨a, ha⟩ := (h.covers q).mp hq
        have hne : a ≠ o := by rintro rfl; rw [ho] at ha; cases ha
        exact ⟨a, by rw [Function.update_of_ne hne, ha]⟩
    · rintro ⟨a, ha⟩
      by_cases hao : a = o
      · subst hao
        rw [Function.update_self] at ha
        exact Or.inl (Option.some.inj ha).symm
      · rw [Function.update_of_ne hao] at ha
        exact Or.inr (h.mem ha)

theorem Tracks.release (h : Tracks own held) {o : O} {p : P} (ho : own o = some p) :
    Tracks (Function.update own o none) (held \ {p}) where
  exclusive := by
    intro a b q ha hb
    have hne : ∀ c, Function.update own o none c = some q → c ≠ o := by
      rintro c hc rfl
      rw [Function.update_self] at hc
      cases hc
    rw [Function.update_of_ne (hne a ha)] at ha
    rw [Function.update_of_ne (hne b hb)] at hb
    exact h.exclusive a b q ha hb
  covers := by
    intro q
    constructor
    · rintro ⟨hq, hqp⟩
      obtain ⟨a, ha⟩ := (h.covers q).mp hq
      have hne : a ≠ o := by
        rintro rfl
        rw [ho] at ha
        exact hqp (Option.some.inj ha).symm
      exact ⟨a, by rw [Function.update_of_ne hne, ha]⟩
    · rintro ⟨a, ha⟩
      have hne : a ≠ o := by
        rintro rfl
        rw [Function.update_self] at ha
        cases ha
      rw [Function.update_of_ne hne] at ha
      exact ⟨h.mem ha, fun hqp => hne (h.exclusive a o p (hqp ▸ ha) ho)⟩

theorem Tracks.move (h : Tracks own held) {o o' : O} {p : P} (ho : own o = some p)
    (ho' : own o' = none) :
    Tracks (Function.update (Function.update own o none) o' (some p)) held := by
  have hne : o' ≠ o := by rintro rfl; rw [ho] at ho'; cases ho'
  have hrel := h.release ho
  have hfree : Function.update own o none o' = none := by rw [Function.update_of_ne hne, ho']
  apply (hrel.acquire hfree (fun hp => hp.2 rfl)).congr (fun _ => rfl)
  intro q
  by_cases hq : q = p
  · subst hq
    exact ⟨fun _ => Or.inl rfl, fun _ => h.mem ho⟩
  · simp [hq]

section Holders
variable {K β : Type*} [DecidableEq K]

def holder (holds : β → Option P) (m : Finmap (fun _ : K => β)) (k : K) : Option P :=
  (m.lookup k).bind holds

variable {holds : β → Option P} {m : Finmap (fun _ : K => β)}

theorem holder_of_lookup {k : K} {b : β} (h : m.lookup k = some b) :
    holder holds m k = holds b := by
  rw [holder, h, Option.bind_some]

theorem holder_none_of_lookup {k : K} (h : m.lookup k = none) : holder holds m k = none := by
  rw [holder, h, Option.bind_none]

theorem holder_some {k : K} {p : P} (h : holder holds m k = some p) :
    ∃ b, m.lookup k = some b ∧ holds b = some p :=
  Option.bind_eq_some_iff.mp h

theorem holder_insert (k : K) (b : β) :
    holder holds (m.insert k b) = Function.update (holder holds m) k (holds b) := by
  funext j
  by_cases hj : j = k
  · subst hj
    rw [Function.update_self, holder_of_lookup (Finmap.lookup_insert m)]
  · rw [Function.update_of_ne hj, holder, Finmap.lookup_insert_of_ne _ hj, holder]

theorem holder_insert_some {j k : K} {b : β} {p : P} (h : holder holds (m.insert k b) j = some p) :
    (j = k ∧ holds b = some p) ∨ (j ≠ k ∧ holder holds m j = some p) := by
  rw [holder_insert] at h
  by_cases hj : j = k
  · rw [hj, Function.update_self] at h
    exact Or.inl ⟨hj, h⟩
  · rw [Function.update_of_ne hj] at h
    exact Or.inr ⟨hj, h⟩

theorem holder_erase (k : K) :
    holder holds (m.erase k) = Function.update (holder holds m) k none := by
  funext j
  by_cases hj : j = k
  · subst hj
    rw [Function.update_self, holder_none_of_lookup (Finmap.lookup_erase ..)]
  · rw [Function.update_of_ne hj, holder, Finmap.lookup_erase_ne hj, holder]

theorem holder_erase_some {j k : K} {p : P} (h : holder holds (m.erase k) j = some p) :
    j ≠ k ∧ holder holds m j = some p := by
  rw [holder_erase] at h
  by_cases hj : j = k
  · rw [hj, Function.update_self] at h
    cases h
  · rw [Function.update_of_ne hj] at h
    exact ⟨hj, h⟩

end Holders

end IthmbPlugin.Ownership
