import IthmbPlugin.Library.AtomicObject
import IthmbPlugin.Library.Ranked

/-!
# A value behind a mutex

Callers run sections of code on a value behind a lock. A section is entered
with what the lock reports of earlier panics, takes its steps while the others
wait, and ends with an answer or in a panic, which poisons the lock when it is
given back. Whatever the sections are, the object is atomic: a call is its
whole section at one instant. No caller is kept waiting for ever by sections
that end.
-/

set_option autoImplicit false

namespace IthmbPlugin.Mutex
open IthmbPlugin.Runs IthmbPlugin.AtomicObject IthmbPlugin.Ranked

variable {V Op B R C : Type*}

/-- Where the section of an operation starts, which depends on whether the lock
is poisoned; the step at a point of a section, to another point or to the
answer; and whether the step may panic before it has done anything. -/
structure Code (V Op B R : Type*) where
  enter : Op → Bool → B
  next : V → B → V × (B ⊕ R)
  mayPanic : B → Bool

/-- A whole section from a point on, with its answer unless it panics. -/
inductive Section (code : Code V Op B R) : V → B → V → Option R → Prop
  | panics {v : V} {b : B} (h : code.mayPanic b = true) : Section code v b v none
  | ends {v v' : V} {b : B} {r : R} (h : code.next v b = (v',.inr r)) :
      Section code v b v' (some r)
  | goes {v v₁ v' : V} {b b₁ : B} {r : Option R} (h : code.next v b = (v₁,.inl b₁))
      (hrest : Section code v₁ b₁ v' r) : Section code v b v' r

structure Guarded (V : Type*) where
  value : V
  poisoned : Bool

def spec (code : Code V Op B R) : Spec (Guarded V) Op (Option R) Empty where
  effect q op q' r := Section code q.value (code.enter op q.poisoned) q'.value r ∧
    q'.poisoned = (q.poisoned || r.isNone)
  environment _ e _ := e.elim

/-- A caller that is leaving without an answer is unwinding. -/
inductive Point (Op B R : Type*) where
  | waiting (op : Op)
  | inside (b : B)
  | leaving (r : Option R)

def Point.holds : Point Op B R → Bool
  | .waiting _ => false
  | .inside _ => true
  | .leaving _ => true

structure Shared (V Op B R C : Type*) where
  guarded : Guarded V
  owner : Option C
  calls : Finmap (fun _ : C => Point Op B R)

def Shared.initial (v : V) : Shared V Op B R C where
  guarded := { value := v, poisoned := false }
  owner := none
  calls := ∅

inductive Action (C Op : Type*) where
  | call (c : C) (op : Op)
  | advance (c : C) (panics : Bool)

def mover : Action C Op → Option C
  | .call _ _ => none
  | .advance c _ => some c

variable [DecidableEq C]

namespace Shared

def setPoint (s : Shared V Op B R C) (c : C) (p : Point Op B R) : Shared V Op B R C :=
  { s with calls := s.calls.insert c p }

def setValue (s : Shared V Op B R C) (v : V) : Shared V Op B R C :=
  { s with guarded := { s.guarded with value := v } }

def unlock (s : Shared V Op B R C) (c : C) (r : Option R) : Shared V Op B R C where
  guarded := { s.guarded with poisoned := s.guarded.poisoned || r.isNone }
  owner := none
  calls := s.calls.erase c

end Shared

def advance (code : Code V Op B R) (s : Shared V Op B R C) (c : C) (panics : Bool) :
    Point Op B R → Option (Shared V Op B R C)
  | .waiting op =>
    if s.owner.isSome then none
    else some ({ s with owner := some c }.setPoint c (.inside (code.enter op s.guarded.poisoned)))
  | .inside b =>
    if panics && code.mayPanic b then some (s.setPoint c (.leaving none))
    else match code.next s.guarded.value b with
      | (v,.inl b') => some ((s.setValue v).setPoint c (.inside b'))
      | (v,.inr r) => some ((s.setValue v).setPoint c (.leaving (some r)))
  | .leaving r => some (s.unlock c r)

def step (code : Code V Op B R) (s : Shared V Op B R C) :
    Action C Op → Option (Shared V Op B R C)
  | .call c op => if c ∈ s.calls then none else some (s.setPoint c (.waiting op))
  | .advance c panics => (s.calls.lookup c).bind (advance code s c panics)

def observe (s : Shared V Op B R C) (a : Action C Op) (_ : Shared V Op B R C) :
    List (Event C Op (Option R) Empty) :=
  match a with
  | .call c op => [.invoke c op]
  | .advance c _ =>
    match s.calls.lookup c with
    | some (.leaving r) => [.respond c r]
    | _ => []

inductive Advanced (code : Code V Op B R) (s : Shared V Op B R C) (c : C) :
    Point Op B R → Shared V Op B R C → Prop
  | locks (op : Op) (hfree : s.owner = none) : Advanced code s c (.waiting op)
      ({ s with owner := some c }.setPoint c (.inside (code.enter op s.guarded.poisoned)))
  | panics (b : B) (h : code.mayPanic b = true) :
      Advanced code s c (.inside b) (s.setPoint c (.leaving none))
  | goes (b b' : B) (v : V) (h : code.next s.guarded.value b = (v,.inl b')) :
      Advanced code s c (.inside b) ((s.setValue v).setPoint c (.inside b'))
  | ends (b : B) (v : V) (r : R) (h : code.next s.guarded.value b = (v,.inr r)) :
      Advanced code s c (.inside b) ((s.setValue v).setPoint c (.leaving (some r)))
  | unlocks (r : Option R) : Advanced code s c (.leaving r) (s.unlock c r)

variable {code : Code V Op B R} {s s' : Shared V Op B R C} {c : C} {panics : Bool}

theorem advance_advanced {p : Point Op B R} (h : advance code s c panics p = some s') :
    Advanced code s c p s' := by
  cases p with
  | waiting op =>
    simp only [advance] at h
    split_ifs at h with hfree
    cases h
    exact .locks op (by simpa using hfree)
  | inside b =>
    simp only [advance] at h
    split_ifs at h with hpanics
    · cases h
      exact .panics b (Bool.and_eq_true_iff.mp hpanics).2
    · rcases hnext : code.next s.guarded.value b with ⟨v, b' | r⟩ <;> rw [hnext] at h <;> cases h
      · exact .goes b b' v hnext
      · exact .ends b v r hnext
  | leaving r =>
    cases h
    exact .unlocks r

theorem step_cases {a : Action C Op} (h : step code s a = some s') :
    (∃ c op, a = .call c op ∧ c ∉ s.calls ∧ s' = s.setPoint c (.waiting op)) ∨
    (∃ c panics p, a = .advance c panics ∧ s.calls.lookup c = some p ∧ Advanced code s c p s') := by
  cases a with
  | call c op =>
    simp only [step] at h
    split_ifs at h with hc
    cases h
    exact Or.inl ⟨c, op, rfl, hc, rfl⟩
  | advance c panics =>
    obtain ⟨p, hp, hadvance⟩ := Option.bind_eq_some_iff.mp h
    exact Or.inr ⟨c, panics, p, rfl, hp, advance_advanced hadvance⟩

/-- The owner of the lock is the one caller in a section. -/
structure Owned (s : Shared V Op B R C) : Prop where
  owner : ∀ c, s.owner = some c → ∃ p, s.calls.lookup c = some p ∧ p.holds = true
  holder : ∀ c p, s.calls.lookup c = some p → p.holds = true → s.owner = some c

theorem initial_owned (v : V) : Owned (.initial v : Shared V Op B R C) where
  owner _ h := by cases h
  holder _ _ h := by cases h

theorem Owned.waits (h : Owned s) {p : Point Op B R} (hc : s.calls.lookup c = some p)
    (howner : s.owner ≠ some c) : p.holds = false := by
  by_contra hholds
  exact howner (h.holder c p hc (by simpa using hholds))

theorem Owned.set {p : Point Op B R} {q : Option C} {g : Guarded V} (h : Owned s)
    (hq : p.holds = true → q = some c) (hothers : ∀ d, d ≠ c → (q = some d ↔ s.owner = some d))
    (hself : q = some c → p.holds = true) :
    Owned { guarded := g, owner := q, calls := s.calls.insert c p } where
  owner d hd := by
    by_cases hdc : d = c
    · subst hdc
      exact ⟨p, Finmap.lookup_insert _, hself hd⟩
    · obtain ⟨p', hp', hholds⟩ := h.owner d ((hothers d hdc).mp hd)
      exact ⟨p', (Finmap.lookup_insert_of_ne _ hdc).trans hp', hholds⟩
  holder d p' hd hholds := by
    by_cases hdc : d = c
    · subst hdc
      rw [Finmap.lookup_insert] at hd
      cases hd
      exact hq hholds
    · rw [Finmap.lookup_insert_of_ne _ hdc] at hd
      exact (hothers d hdc).mpr (h.holder d p' hd hholds)

theorem Owned.stay {p p' : Point Op B R} (h : Owned s) (hc : s.calls.lookup c = some p)
    (hp : p.holds = true) (hp' : p'.holds = true) (v : V) :
    Owned ((s.setValue v).setPoint c p') := by
  have howner := h.holder c p hc hp
  exact h.set (fun _ => howner) (fun _ _ => Iff.rfl) (fun _ => hp')

theorem advanced_owned {p : Point Op B R} (h : Owned s) (hc : s.calls.lookup c = some p)
    (ha : Advanced code s c p s') : Owned s' := by
  cases ha with
  | locks op hfree =>
    refine h.set (fun _ => rfl) (fun d hd => ?_) (fun _ => rfl)
    simp [hfree, Ne.symm hd]
  | panics b hpanics => exact h.stay hc rfl rfl s.guarded.value
  | goes b b' v hnext => exact h.stay hc rfl rfl v
  | ends b v r hnext => exact h.stay hc rfl rfl v
  | unlocks r =>
    refine ⟨fun d hd => (by cases hd), fun d p hd hholds => ?_⟩
    have hne : d ≠ c := by
      rintro rfl
      simp [Shared.unlock] at hd
    have howner := h.holder c _ hc rfl
    rw [Shared.unlock, Finmap.lookup_erase_ne hne] at hd
    exact absurd (Option.some.inj (howner.symm.trans (h.holder d p hd hholds))).symm hne

theorem step_owned (s : Shared V Op B R C) (a : Action C Op) (s' : Shared V Op B R C)
    (h : Owned s) (hs : step code s a = some s') : Owned s' := by
  rcases step_cases hs with ⟨c, op, -, hc, rfl⟩ | ⟨c, panics, p, -, hc, ha⟩
  · refine h.set (fun hp => (by cases hp)) (fun _ _ => Iff.rfl) (fun howner => ?_)
    obtain ⟨p, hp, -⟩ := h.owner c howner
    exact absurd (Finmap.mem_of_lookup_eq_some hp) hc
  · exact advanced_owned h hc ha

theorem caller_steps {p : Point Op B R} (hc : s.calls.lookup c = some p)
    (h : p.holds = true ∨ s.owner = none) : ∃ s', step code s (.advance c false) = some s' := by
  rw [step, hc, Option.bind_some]
  cases p with
  | waiting op =>
    have hfree : s.owner = none := h.resolve_left (by simp [Point.holds])
    simp [advance, hfree]
  | inside b =>
    rcases hnext : code.next s.guarded.value b with ⟨v, b' | r⟩ <;> simp [advance, hnext]
  | leaving r => exact ⟨_, rfl⟩

/-- Where no caller can step, nobody is calling and the lock is free. -/
theorem stuck_quiet (h : Owned s) (hstuck : ∀ c panics, step code s (.advance c panics) = none) :
    s.calls = ∅ ∧ s.owner = none := by
  have hmoves : ∀ c p, s.calls.lookup c = some p → ¬ (p.holds = true ∨ s.owner = none) := by
    intro c p hc hp
    obtain ⟨s', hs⟩ := caller_steps hc hp
    cases (hstuck c false).symm.trans hs
  have hfree : s.owner = none := by
    cases howner : s.owner with
    | none => rfl
    | some c =>
      obtain ⟨p, hc, hp⟩ := h.owner c howner
      exact (hmoves c p hc (Or.inl hp)).elim
  refine ⟨Finmap.ext_lookup fun c => ?_, hfree⟩
  rw [Finmap.lookup_empty]
  cases hc : s.calls.lookup c with
  | none => rfl
  | some p => exact (hmoves c p hc (Or.inr hfree)).elim

/-- How far a section has come from the value it was entered on. -/
def Since (code : Code V Op B R) (g now : Guarded V) (op : Op) : Point Op B R → Prop
  | .waiting op' => op' = op
  | .inside b => now.poisoned = g.poisoned ∧ ∀ v r, Section code now.value b v r →
    Section code g.value (code.enter op g.poisoned) v r
  | .leaving r => now.poisoned = g.poisoned ∧
    Section code g.value (code.enter op g.poisoned) now.value r

section Since
variable {g now : Guarded V} {op : Op} {b : B}

theorem Since.enters (code : Code V Op B R) (g : Guarded V) (op : Op) :
    Since code g g op (.inside (code.enter op g.poisoned)) := ⟨rfl, fun _ _ h => h⟩

theorem Since.unwinds (h : Since code g now op (.inside b)) (hpanics : code.mayPanic b = true) :
    Since code g now op (.leaving none) := ⟨h.1, h.2 _ _ (.panics hpanics)⟩

theorem Since.goes {b' : B} {v : V} (h : Since code g now op (.inside b))
    (hnext : code.next now.value b = (v,.inl b')) :
    Since code g { now with value := v } op (.inside b') :=
  ⟨h.1, fun v' r hrest => h.2 v' r (.goes hnext hrest)⟩

theorem Since.ends {v : V} {r : R} (h : Since code g now op (.inside b))
    (hnext : code.next now.value b = (v,.inr r)) :
    Since code g { now with value := v } op (.leaving (some r)) :=
  ⟨h.1, h.2 v (some r) (.ends hnext)⟩

theorem Since.effect {r : Option R} (h : Since code g now op (.leaving r)) :
    (spec code).effect g op { now with poisoned := now.poisoned || r.isNone } r :=
  ⟨h.2, congrArg (· || r.isNone) h.1⟩

theorem Since.waits {g' now' : Guarded V} {p : Point Op B R} (h : Since code g now op p)
    (hp : p.holds = false) : Since code g' now' op p := by
  cases p with
  | waiting op' => exact h
  | inside b => cases hp
  | leaving r => cases hp

end Since

/-- Where the canonical object has the operation of the owner: it takes effect
with the step that ends its section, or is unwound by the unlocking. -/
def Held (code : Code V Op B R) (s : Shared V Op B R C) (o : Object (Guarded V) C Op (Option R))
    (c : C) : Point Op B R → Prop
  | .waiting _ => False
  | .leaving (some r) => o.phases c = some (.done (some r)) ∧ o.value = s.guarded
  | p => ∃ op, o.phases c = some (.pending op) ∧ Since code o.value s.guarded op p

structure Match (code : Code V Op B R) (s : Shared V Op B R C)
    (o : Object (Guarded V) C Op (Option R)) : Prop where
  owned : Owned s
  quiet : ∀ c, c ∉ s.calls → o.phases c = none
  waits : ∀ c op, s.calls.lookup c = some (.waiting op) → o.phases c = some (.pending op)
  free : s.owner = none → o.value = s.guarded
  held : ∀ c p, s.owner = some c → s.calls.lookup c = some p → Held code s o c p

theorem initial_match (code : Code V Op B R) (v : V) :
    Match code (.initial v : Shared V Op B R C) (.initial { value := v, poisoned := false }) where
  owned := initial_owned v
  quiet _ _ := rfl
  waits _ _ h := by cases h
  free _ := rfl
  held _ _ h := by cases h

variable {o o' : Object (Guarded V) C Op (Option R)}

theorem Match.inside (h : Match code s o) {p : Point Op B R} (howned : Owned s')
    (hcalls : s'.calls = s.calls.insert c p) (hp : p.holds = true)
    (hphases : ∀ d, d ≠ c → o'.phases d = o.phases d) (hheld : Held code s' o' c p) :
    Match code s' o' := by
  have hself : s'.calls.lookup c = some p := by rw [hcalls, Finmap.lookup_insert]
  have howner : s'.owner = some c := howned.holder c p hself hp
  have hother : ∀ d, d ≠ c → s'.calls.lookup d = s.calls.lookup d := fun d hd => by
    rw [hcalls, Finmap.lookup_insert_of_ne _ hd]
  refine ⟨howned, fun d hd => ?_, fun d op hd => ?_, fun hfree => ?_, fun d p' hd hp' => ?_⟩
  · rw [hcalls, Finmap.mem_insert, not_or] at hd
    rw [hphases d hd.1, h.quiet d hd.2]
  · have hne : d ≠ c := by
      rintro rfl
      rw [hself] at hd
      cases hd
      cases hp
    rw [hphases d hne, h.waits d op ((hother d hne).symm.trans hd)]
  · cases howner.symm.trans hfree
  · cases howner.symm.trans hd
    cases hself.symm.trans hp'
    exact hheld

theorem Match.unlocked (h : Match code s o) {r : Option R} (howned : Owned (s.unlock c r))
    (hphases : ∀ d, d ≠ c → o'.phases d = o.phases d) (hself : o'.phases c = none)
    (hvalue : o'.value = (s.unlock c r).guarded) : Match code (s.unlock c r) o' := by
  refine ⟨howned, fun d hd => ?_, fun d op hd => ?_, fun _ => hvalue, fun d p hd => by cases hd⟩
  · by_cases hdc : d = c
    · rw [hdc, hself]
    · rw [hphases d hdc]
      exact h.quiet d (fun hmem => hd (Finmap.mem_erase.mpr ⟨hdc, hmem⟩))
  · have hne : d ≠ c := by
      rintro rfl
      simp [Shared.unlock] at hd
    rw [Shared.unlock, Finmap.lookup_erase_ne hne] at hd
    rw [hphases d hne, h.waits d op hd]

theorem advanced_followed {p : Point Op B R} (h : Match code s o)
    (hc : s.calls.lookup c = some p) (ha : Advanced code s c p s') :
    ∃ ls o', Moves (spec code) ls o o' ∧ seen ls = observe s (.advance c panics) s' ∧
      Match code s' o' := by
  have howned := advanced_owned h.owned hc ha
  have hheld : p.holds = true → Held code s o c p :=
    fun hp => h.held c p (h.owned.holder c p hc hp) hc
  cases ha with
  | locks op hfree =>
    have hvalue := h.free hfree
    refine ⟨[], o, rfl, by simp [observe, hc, seen], h.inside howned rfl rfl (fun _ _ => rfl)
      ⟨op, h.waits c op hc, ?_⟩⟩
    rw [hvalue]
    exact .enters code s.guarded op
  | panics b hpanics =>
    obtain ⟨op, hphase, hsince⟩ := hheld rfl
    exact ⟨[], o, rfl, by simp [observe, hc, seen], h.inside howned rfl rfl (fun _ _ => rfl)
      ⟨op, hphase, hsince.unwinds hpanics⟩⟩
  | goes b b' v hnext =>
    obtain ⟨op, hphase, hsince⟩ := hheld rfl
    exact ⟨[], o, rfl, by simp [observe, hc, seen], h.inside howned rfl rfl (fun _ _ => rfl)
      ⟨op, hphase, hsince.goes hnext⟩⟩
  | ends b v r hnext =>
    -- The section is over, and takes effect here.
    obtain ⟨op, hphase, hsince⟩ := hheld rfl
    have heffect : (spec code).effect o.value op (s.setValue v).guarded (some r) :=
      ⟨(hsince.ends hnext).2, by simp [Shared.setValue, hsince.1]⟩
    refine ⟨_, _, moves_one.mpr (.commit hphase heffect), by simp [observe, hc, seen, Label.event],
      h.inside howned rfl rfl (fun d hd => phase_other _ _ hd) ⟨phase_self .., rfl⟩⟩
  | unlocks r =>
    cases r with
    | none =>
      -- A panic takes effect when the lock learns of it.
      obtain ⟨op, hphase, hsince⟩ := hheld rfl
      refine ⟨_, _, moves_answer hphase hsince.effect,
        by simp [observe, hc, seen, Label.event, List.filterMap_cons],
        h.unlocked howned (fun d hd => phase_other _ _ hd) (phase_self ..) rfl⟩
    | some r =>
      obtain ⟨hphase, hvalue⟩ := hheld rfl
      refine ⟨_, _, moves_one.mpr (.respond hphase), by simp [observe, hc, seen, Label.event],
        h.unlocked howned (fun d hd => phase_other _ _ hd) (phase_self ..) ?_⟩
      rw [phase_value, hvalue]
      simp [Shared.unlock]

theorem step_simulated (s : Shared V Op B R C) (a : Action C Op) (s' : Shared V Op B R C)
    (hs : step code s a = some s') : Simulated (spec code) (Match code) observe s a s' := by
  intro o h
  rcases step_cases hs with ⟨c, op, rfl, hc, rfl⟩ | ⟨c, panics, p, rfl, hc, ha⟩
  · have hother : ∀ d, d ≠ c → (o.phase c (some (.pending op))).phases d = o.phases d :=
      fun d hd => phase_other _ _ hd
    refine ⟨_, _, moves_one.mpr (.invoke op (h.quiet c hc)), rfl,
      step_owned s _ _ h.owned hs, fun d hd => ?_, fun d op' hd => ?_, h.free, fun d p hd hp => ?_⟩
    · rw [Shared.setPoint, Finmap.mem_insert, not_or] at hd
      rw [hother d hd.1, h.quiet d hd.2]
    · by_cases hdc : d = c
      · subst hdc
        rw [Shared.setPoint, Finmap.lookup_insert] at hd
        cases hd
        exact phase_self ..
      · rw [Shared.setPoint, Finmap.lookup_insert_of_ne _ hdc] at hd
        rw [hother d hdc, h.waits d op' hd]
    · obtain ⟨q, hq, -⟩ := h.owned.owner d hd
      have hne : d ≠ c := fun he => hc (he ▸ Finmap.mem_of_lookup_eq_some hq)
      rw [Shared.setPoint, Finmap.lookup_insert_of_ne _ hne] at hp
      have hheld := h.held d p hd hp
      cases p with
      | waiting op' => exact hheld
      | inside b =>
        obtain ⟨op', hphase, hrest⟩ := hheld
        exact ⟨op', (hother d hne).trans hphase, hrest⟩
      | leaving r =>
        cases r with
        | none =>
          obtain ⟨op', hphase, hrest⟩ := hheld
          exact ⟨op', (hother d hne).trans hphase, hrest⟩
        | some r => exact ⟨(hother d hne).trans hheld.1, hheld.2⟩
  · exact advanced_followed h hc ha

/-- An older value, to which the sections in progress have done nothing. It is
the value while the lock is free, and the owner has come from it otherwise. -/
structure Behind (code : Code V Op B R) (ops : C → Option Op) (g : Guarded V)
    (s : Shared V Op B R C) : Prop where
  owned : Owned s
  free : s.owner = none → g = s.guarded
  since : ∀ c p, s.calls.lookup c = some p → ∃ op, ops c = some op ∧ Since code g s.guarded op p

variable {ops ops' : C → Option Op} {g : Guarded V}

theorem initial_behind (code : Code V Op B R) (ops : C → Option Op) (v : V) :
    Behind code ops { value := v, poisoned := false } (.initial v) where
  owned := initial_owned v
  free _ := rfl
  since _ _ h := by cases h

theorem Behind.congr (h : Behind code ops g s)
    (hops : ∀ c op, c ∈ s.calls → ops c = some op → ops' c = some op) :
    Behind code ops' g s where
  owned := h.owned
  free := h.free
  since c p hc := by
    obtain ⟨op, hop, hsince⟩ := h.since c p hc
    exact ⟨op, hops c op (Finmap.mem_of_lookup_eq_some hc) hop, hsince⟩

theorem Behind.called (h : Behind code ops g s) {op : Op} (hop : ops c = some op)
    (hs : step code s (.call c op) = some s') : Behind code ops g s' := by
  have howned := step_owned s _ s' h.owned hs
  rcases step_cases hs with ⟨d, op', he, -, rfl⟩ | ⟨d, panics, p, he, -⟩ <;> cases he
  refine ⟨howned, h.free, fun d p hd => ?_⟩
  by_cases hdc : d = c
  · subst hdc
    rw [Shared.setPoint, Finmap.lookup_insert] at hd
    cases hd
    exact ⟨op, hop, rfl⟩
  · rw [Shared.setPoint, Finmap.lookup_insert_of_ne _ hdc] at hd
    exact h.since d p hd

theorem Behind.inside (h : Behind code ops g s) {op : Op} {p : Point Op B R} (howned : Owned s')
    (hcalls : s'.calls = s.calls.insert c p) (hp : p.holds = true) (hop : ops c = some op)
    (hsince : Since code g s'.guarded op p) : Behind code ops g s' := by
  have hself : s'.calls.lookup c = some p := by rw [hcalls, Finmap.lookup_insert]
  have howner : s'.owner = some c := howned.holder c p hself hp
  refine ⟨howned, fun hfree => (by cases howner.symm.trans hfree), fun d p' hd => ?_⟩
  by_cases hdc : d = c
  · subst hdc
    cases hself.symm.trans hd
    exact ⟨op, hop, hsince⟩
  · have hwaits : p'.holds = false := by
      apply howned.waits hd
      rw [howner]
      exact fun he => hdc (Option.some.inj he).symm
    rw [hcalls, Finmap.lookup_insert_of_ne _ hdc] at hd
    obtain ⟨op', hop', hsince'⟩ := h.since d p' hd
    exact ⟨op', hop', hsince'.waits hwaits⟩

theorem Behind.unlocked (h : Behind code ops g s) {r : Option R}
    (hc : s.calls.lookup c = some (.leaving r)) (hops : ∀ d, d ≠ c → ops' d = ops d) :
    (∃ op, ops c = some op ∧ (spec code).effect g op (s.unlock c r).guarded r) ∧
      Behind code ops' (s.unlock c r).guarded (s.unlock c r) := by
  have howned := advanced_owned h.owned hc (Advanced.unlocks r : Advanced code s c _ _)
  obtain ⟨op, hop, hsince⟩ := h.since c _ hc
  refine ⟨⟨op, hop, hsince.effect⟩, howned, fun _ => rfl, fun d p hd => ?_⟩
  have hwaits : p.holds = false := howned.waits hd nofun
  have hne : d ≠ c := by
    rintro rfl
    simp [Shared.unlock] at hd
  rw [Shared.unlock, Finmap.lookup_erase_ne hne] at hd
  obtain ⟨op', hop', hsince'⟩ := h.since d p hd
  exact ⟨op', (hops d hne).trans hop', hsince'.waits hwaits⟩

theorem Behind.advanced (h : Behind code ops g s) {p : Point Op B R}
    (hc : s.calls.lookup c = some p) (hp : ∀ r, p ≠ .leaving r) (ha : Advanced code s c p s') :
    Behind code ops g s' := by
  have howned := advanced_owned h.owned hc ha
  obtain ⟨op, hop, hsince⟩ := h.since c p hc
  cases ha with
  | locks op' hfree =>
    cases hsince
    refine h.inside howned rfl rfl hop ?_
    rw [h.free hfree]
    exact .enters code s.guarded op
  | panics b hpanics => exact h.inside howned rfl rfl hop (hsince.unwinds hpanics)
  | goes b b' v hnext => exact h.inside howned rfl rfl hop (hsince.goes hnext)
  | ends b v r hnext => exact h.inside howned rfl rfl hop (hsince.ends hnext)
  | unlocks r => exact absurd rfl (hp r)

def remaining (rank : B → ℕ) (n : ℕ) : Point Op B R → ℕ
  | .waiting _ => n+3
  | .inside b => rank b+2
  | .leaving _ => 1

theorem remaining_pos (rank : B → ℕ) (n : ℕ) (p : Point Op B R) : 0 < remaining rank n p := by
  cases p <;> simp [remaining]

theorem remaining_le {rank : B → ℕ} {n : ℕ} (hrank : ∀ b, rank b ≤ n) (p : Point Op B R) :
    remaining rank n p ≤ n+3 := by
  cases p with
  | waiting op => exact Nat.le_refl _
  | inside b => exact Nat.add_le_add (hrank b) (by decide)
  | leaving r => exact Nat.le_add_left 1 (n+2)

theorem advanced_remaining {rank : B → ℕ} {n : ℕ} (hrank : ∀ b, rank b ≤ n)
    (hnext : ∀ v b v' b', code.next v b = (v',.inl b') → rank b' < rank b) {p : Point Op B R}
    (hp : ∀ r, p ≠ .leaving r) (ha : Advanced code s c p s') :
    ∃ p', s'.calls = s.calls.insert c p' ∧ remaining rank n p' < remaining rank n p := by
  cases ha with
  | locks op hfree => exact ⟨_, rfl, Nat.add_lt_add_of_le_of_lt (hrank _) (by decide)⟩
  | panics b hpanics => exact ⟨_, rfl, by simp [remaining]⟩
  | goes b b' v h => exact ⟨_, rfl, Nat.add_lt_add_right (hnext _ _ _ _ h) 2⟩
  | ends b v r h => exact ⟨_, rfl, by simp [remaining]⟩
  | unlocks r => exact absurd rfl (hp r)

theorem advanced_other {p : Point Op B R} {d : C} (hd : d ≠ c) (ha : Advanced code s c p s') :
    s'.calls.lookup d = s.calls.lookup d := by
  cases ha with
  | locks op hfree => exact Finmap.lookup_insert_of_ne _ hd
  | panics b hpanics => exact Finmap.lookup_insert_of_ne _ hd
  | goes b b' v h => exact Finmap.lookup_insert_of_ne _ hd
  | ends b v r h => exact Finmap.lookup_insert_of_ne _ hd
  | unlocks r => exact Finmap.lookup_erase_ne hd

/-- Callers move each for itself, and come down if the sections do. -/
theorem mutex_schedule {rank : B → ℕ} {n : ℕ} (hrank : ∀ b, rank b ≤ n)
    (hnext : ∀ v b v' b', code.next v b = (v',.inl b') → rank b' < rank b) :
    Schedules (step code) (fun s : Shared V Op B R C => s.calls.lookup) mover
      (remaining rank n) where
  positive _ _ p _ := remaining_pos rank n p
  moves s a s' c hc hs := by
    rcases step_cases hs with ⟨d, op, rfl, -⟩ | ⟨d, panics, p, rfl, hd, ha⟩ <;> cases hc
    refine ⟨p, hd, ?_⟩
    by_cases hp : ∃ r, p = .leaving r
    · obtain ⟨r, rfl⟩ := hp
      cases ha
      exact moved_erase
    · obtain ⟨p', hcalls, hlt⟩ := advanced_remaining hrank hnext (not_exists.mp hp) ha
      rw [hcalls]
      exact moved_insert hlt
  stays s a s' c p hc hs hp := by
    rcases step_cases hs with ⟨d, op, rfl, hd, rfl⟩ | ⟨d, panics, q, rfl, hd, ha⟩
    · have hne : c ≠ d := fun he => hd (he ▸ Finmap.mem_of_lookup_eq_some hp)
      exact (Finmap.lookup_insert_of_ne _ hne).trans hp
    · have hne : c ≠ d := fun he => hc (by rw [he]; rfl)
      exact (advanced_other hne ha).trans hp

end IthmbPlugin.Mutex
