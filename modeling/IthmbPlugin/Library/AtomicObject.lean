import IthmbPlugin.Library.Runs
import Mathlib.Data.List.Induction
import Mathlib.Logic.Function.Basic

/-!
# Atomic objects

Callers share an object and their calls overlap. The object is atomic when
every call can be given one instant between its invocation and its return at
which it took effect as a whole, and the effects in that order follow a
sequential specification. The canonical object of a specification does just
this: a call is pending, takes effect, and returns what the effect answered.
A machine that the canonical object can follow step by step is atomic,
whatever it does in between.
-/

set_option autoImplicit false

namespace IthmbPlugin.AtomicObject
open IthmbPlugin.Runs

variable {Q C Op R E : Type*}

/-- What a whole operation may do to the value and answer, and what the
surroundings may do to the value by themselves. -/
structure Spec (Q Op R E : Type*) where
  effect : Q → Op → Q → R → Prop
  environment : Q → E → Q → Prop

inductive Label (C Op R E : Type*) where
  | invoke (c : C) (op : Op)
  | commit (c : C) (op : Op) (r : R)
  | respond (c : C) (r : R)
  | environment (e : E)

inductive Event (C Op R E : Type*) where
  | invoke (c : C) (op : Op)
  | respond (c : C) (r : R)
  | environment (e : E)

def Label.event : Label C Op R E → Option (Event C Op R E)
  | .invoke c op => some (.invoke c op)
  | .commit _ _ _ => none
  | .respond c r => some (.respond c r)
  | .environment e => some (.environment e)

def Label.caller : Label C Op R E → Option C
  | .invoke c _ => some c
  | .commit c _ _ => some c
  | .respond c _ => some c
  | .environment _ => none

def seen (ls : List (Label C Op R E)) : List (Event C Op R E) := ls.filterMap Label.event

theorem seen_append (ls ls' : List (Label C Op R E)) : seen (ls++ls') = seen ls++seen ls' :=
  List.filterMap_append

def Follows (spec : Spec Q Op R E) : List (Label C Op R E) → Q → Q → Prop
  | [], q, q' => q' = q
  | .commit _ op r::ls, q, q' => ∃ q₁, spec.effect q op q₁ r ∧ Follows spec ls q₁ q'
  | .environment e::ls, q, q' => ∃ q₁, spec.environment q e q₁ ∧ Follows spec ls q₁ q'
  | .invoke _ _::ls, q, q' => Follows spec ls q q'
  | .respond _ _::ls, q, q' => Follows spec ls q q'

/-- The newest label of the caller is the invocation of an operation. -/
def Invoked (c : C) (op : Op) (ls : List (Label C Op R E)) : Prop :=
  ∃ early late, ls = early++.invoke c op::late ∧ ∀ l ∈ late, l.caller ≠ some c

/-- The newest label of the caller is the instant of its operation, and the one
before it the invocation. -/
def Committed (c : C) (r : R) (ls : List (Label C Op R E)) : Prop :=
  ∃ op early late, ls = early++.commit c op r::late ∧ (∀ l ∈ late, l.caller ≠ some c) ∧
    Invoked c op early

/-- Instants for the calls of a history: each lies behind the invocation of its
call and before the return, a call has one at most, and the effects take the
value from `q` to `q'`. -/
structure Linearizes (spec : Spec Q Op R E) (history : List (Event C Op R E)) (q q' : Q)
    (ls : List (Label C Op R E)) : Prop where
  seen : seen ls = history
  follows : Follows spec ls q q'
  invoked : ∀ early c op r late, ls = early++.commit c op r::late → Invoked c op early
  committed : ∀ early c r late, ls = early++.respond c r::late → Committed c r early

section Follows
variable {spec : Spec Q Op R E} {ls ls' : List (Label C Op R E)} {q q' : Q}

theorem follows_append :
    Follows spec (ls++ls') q q' ↔ ∃ q₁, Follows spec ls q q₁ ∧ Follows spec ls' q₁ q' := by
  induction ls generalizing q with
  | nil => simp [Follows]
  | cons l ls ih =>
    cases l with
    | invoke c op => exact ih
    | respond c r => exact ih
    | commit c op r => simp only [List.cons_append, Follows, ih]; tauto
    | environment e => simp only [List.cons_append, Follows, ih]; tauto

theorem Linearizes.map {Q' : Type*} {spec' : Spec Q' Op R E} (f : Q → Q')
    (heffect : ∀ q op q' r, spec.effect q op q' r → spec'.effect (f q) op (f q') r)
    (henvironment : ∀ q e q', spec.environment q e q' → spec'.environment (f q) e (f q'))
    {history : List (Event C Op R E)} (h : Linearizes spec history q q' ls) :
    Linearizes spec' history (f q) (f q') ls where
  seen := h.seen
  follows := by
    have hfollows := h.follows
    clear h
    induction ls generalizing q with
    | nil => exact congrArg f hfollows
    | cons l ls ih =>
      cases l with
      | invoke c op => exact ih hfollows
      | respond c r => exact ih hfollows
      | commit c op r =>
        obtain ⟨q₁, he, hrest⟩ := hfollows
        exact ⟨f q₁, heffect _ _ _ _ he, ih hrest⟩
      | environment e =>
        obtain ⟨q₁, he, hrest⟩ := hfollows
        exact ⟨f q₁, henvironment _ _ _ he, ih hrest⟩
  invoked := h.invoked
  committed := h.committed

end Follows

inductive Phase (Op R : Type*) where
  | pending (op : Op)
  | done (r : R)

structure Object (Q C Op R : Type*) where
  value : Q
  phases : C → Option (Phase Op R)

def Object.initial (q : Q) : Object Q C Op R := { value := q, phases := fun _ => none }

section Records
variable {ls : List (Label C Op R E)} {l : Label C Op R E} {c : C}

def Recorded (ls : List (Label C Op R E)) (c : C) : Option (Phase Op R) → Prop
  | none => True
  | some (.pending op) => Invoked c op ls
  | some (.done r) => Committed c r ls

theorem Invoked.push {op : Op} (h : Invoked c op ls)
    (hl : l.caller ≠ some c) : Invoked c op (ls++[l]) := by
  obtain ⟨early, late, rfl, hlate⟩ := h
  refine ⟨early, late++[l], by simp, fun k hk => ?_⟩
  rcases List.mem_append.mp hk with hk | hk
  · exact hlate k hk
  · exact List.mem_singleton.mp hk ▸ hl

theorem Committed.push {r : R} (h : Committed c r ls)
    (hl : l.caller ≠ some c) : Committed c r (ls++[l]) := by
  obtain ⟨op, early, late, rfl, hlate, hinvoked⟩ := h
  refine ⟨op, early, late++[l], by simp, fun k hk => ?_, hinvoked⟩
  rcases List.mem_append.mp hk with hk | hk
  · exact hlate k hk
  · exact List.mem_singleton.mp hk ▸ hl

theorem Recorded.push {x : Option (Phase Op R)} (h : Recorded ls c x)
    (hl : l.caller ≠ some c) : Recorded (ls++[l]) c x := by
  match x with
  | none => trivial
  | some (.pending op) => exact Invoked.push h hl
  | some (.done r) => exact Committed.push h hl

end Records

variable [DecidableEq C]

def Object.phase (o : Object Q C Op R) (c : C) (x : Option (Phase Op R)) : Object Q C Op R :=
  { o with phases := Function.update o.phases c x }

@[simp] theorem phase_value (o : Object Q C Op R) (c : C) (x : Option (Phase Op R)) :
    (o.phase c x).value = o.value := rfl

theorem phase_phases (o : Object Q C Op R) (c d : C) (x : Option (Phase Op R)) :
    (o.phase c x).phases d = if d = c then x else o.phases d := Function.update_apply ..

@[simp] theorem phase_self (o : Object Q C Op R) (c : C) (x : Option (Phase Op R)) :
    (o.phase c x).phases c = x := Function.update_self ..

@[simp] theorem phase_other (o : Object Q C Op R) {c d : C} (x : Option (Phase Op R))
    (h : d ≠ c) : (o.phase c x).phases d = o.phases d := Function.update_of_ne h ..

inductive Move (spec : Spec Q Op R E) : Object Q C Op R → Label C Op R E → Object Q C Op R → Prop
  | invoke {o : Object Q C Op R} {c : C} (op : Op) (hc : o.phases c = none) :
      Move spec o (.invoke c op) (o.phase c (some (.pending op)))
  | commit {o : Object Q C Op R} {c : C} {op : Op} {q : Q} {r : R}
      (hc : o.phases c = some (.pending op)) (he : spec.effect o.value op q r) :
      Move spec o (.commit c op r) ({ o with value := q }.phase c (some (.done r)))
  | respond {o : Object Q C Op R} {c : C} {r : R} (hc : o.phases c = some (.done r)) :
      Move spec o (.respond c r) (o.phase c none)
  | environment {o : Object Q C Op R} {e : E} {q : Q} (he : spec.environment o.value e q) :
      Move spec o (.environment e) { o with value := q }

def Moves (spec : Spec Q Op R E) :
    List (Label C Op R E) → Object Q C Op R → Object Q C Op R → Prop
  | [], o, o' => o' = o
  | l::ls, o, o' => ∃ o₁, Move spec o l o₁ ∧ Moves spec ls o₁ o'

section Canonical
variable {spec : Spec Q Op R E} {o o' : Object Q C Op R} {ls ls' : List (Label C Op R E)}

theorem moves_one {l : Label C Op R E} : Moves spec [l] o o' ↔ Move spec o l o' := by
  constructor
  · rintro ⟨o₁, h, rfl⟩
    exact h
  · exact fun h => ⟨o', h, rfl⟩

theorem moves_append :
    Moves spec (ls++ls') o o' ↔ ∃ o₁, Moves spec ls o o₁ ∧ Moves spec ls' o₁ o' := by
  induction ls generalizing o with
  | nil => simp [Moves]
  | cons l ls ih => simp only [List.cons_append, Moves, ih]; tauto

theorem moves_answer {c : C} {op : Op} {q : Q} {r : R} (hc : o.phases c = some (.pending op))
    (he : spec.effect o.value op q r) :
    Moves spec [.commit c op r, .respond c r] o ({ o with value := q }.phase c none) := by
  refine ⟨_, .commit hc he, _, .respond (phase_self ..), ?_⟩
  simp [Moves, Object.phase]

theorem moves_follows (h : Moves spec ls o o') : Follows spec ls o.value o'.value := by
  induction ls generalizing o with
  | nil => exact congrArg Object.value h
  | cons l ls ih =>
    obtain ⟨o₁, hmove, hrest⟩ := h
    have hfollows := ih hrest
    cases hmove with
    | invoke op hc => exact hfollows
    | commit hc he => exact ⟨_, he, hfollows⟩
    | respond hc => exact hfollows
    | environment he => exact ⟨_, he, hfollows⟩

theorem move_recorded {l : Label C Op R E} (hmove : Move spec o l o')
    (h : ∀ c, Recorded ls c (o.phases c)) (c : C) : Recorded (ls++[l]) c (o'.phases c) := by
  have hother : ∀ {d : C} {p q : Option (Phase Op R)}, l.caller = some d →
      (c = d → Recorded (ls++[l]) c q) → Recorded ls c p →
      Recorded (ls++[l]) c (if c = d then q else p) := by
    intro d p q hd hself hp
    by_cases hc : c = d
    · rw [if_pos hc]
      exact hself hc
    · rw [if_neg hc]
      exact hp.push (by rw [hd]; exact fun he => hc (Option.some.inj he).symm)
  cases hmove with
  | @invoke d op hd =>
    rw [phase_phases]
    exact hother rfl (fun he => ⟨ls, [], by rw [he], by simp⟩) (h c)
  | @commit d op q r hd he =>
    have hinvoked := h d
    rw [hd] at hinvoked
    rw [phase_phases]
    exact hother rfl (fun he => ⟨op, ls, [], by rw [he], by simp, he ▸ hinvoked⟩) (h c)
  | @respond d r hd =>
    rw [phase_phases]
    exact hother rfl (fun _ => trivial) (h c)
  | environment he => exact (h c).push (by simp [Label.caller])

theorem moves_recorded {q : Q} (h : Moves spec ls (.initial q) o) (c : C) :
    Recorded ls c (o.phases c) := by
  induction ls using List.reverseRecOn generalizing o c with
  | nil =>
    cases h
    trivial
  | append_singleton ls l ih =>
    obtain ⟨o₁, hls, hl⟩ := moves_append.mp h
    exact move_recorded (moves_one.mp hl) (fun d => ih hls d) c

/-- A run of the canonical object is a linearization of what it shows. -/
theorem moves_linearizes {q : Q} (h : Moves spec ls (.initial q) o) :
    Linearizes spec (seen ls) q o.value ls where
  seen := rfl
  follows := moves_follows h
  invoked early c op r late hls := by
    rw [hls] at h
    obtain ⟨o₁, hearly, o₂, hmove, -⟩ := moves_append.mp h
    have hrecord := moves_recorded hearly c
    cases hmove with
    | commit hc he => rwa [hc] at hrecord
  committed early c r late hls := by
    rw [hls] at h
    obtain ⟨o₁, hearly, o₂, hmove, -⟩ := moves_append.mp h
    have hrecord := moves_recorded hearly c
    cases hmove with
    | respond hc => rwa [hc] at hrecord

end Canonical

section Machine
variable {S A : Type*} {step : S → A → Option S} {observe : S → A → S → List (Event C Op R E)}

def observed (step : S → A → Option S) (observe : S → A → S → List (Event C Op R E)) :
    List A → S → List (Event C Op R E)
  | [], _ => []
  | a::as, s =>
    match step s a with
    | none => []
    | some s' => observe s a s'++observed step observe as s'

/-- The canonical object can follow one step of the machine. -/
def Simulated (spec : Spec Q Op R E) (Match : S → Object Q C Op R → Prop)
    (observe : S → A → S → List (Event C Op R E)) (s : S) (a : A) (s' : S) : Prop :=
  ∀ o, Match s o → ∃ ls o', Moves spec ls o o' ∧ seen ls = observe s a s' ∧ Match s' o'

theorem run_simulated {spec : Spec Q Op R E} {ok : S → A → Prop}
    {Match : S → Object Q C Op R → Prop}
    (hstep : ∀ s a s', ok s a → step s a = some s' → Simulated spec Match observe s a s')
    {as : List A} {s t : S} {o : Object Q C Op R} (h : Match s o) (hrun : run step as s = some t)
    (hok : Admits step ok as s) :
    ∃ ls o', Moves spec ls o o' ∧ seen ls = observed step observe as s ∧ Match t o' := by
  induction as generalizing s o with
  | nil =>
    cases hrun
    exact ⟨[], o, rfl, rfl, h⟩
  | cons a as ih =>
    obtain ⟨s', hs, hrest⟩ := run_cons hrun
    obtain ⟨ha, has⟩ := admits_cons hok hs
    obtain ⟨ls, o₁, hls, hseen, hmatch⟩ := hstep s a s' ha hs o h
    obtain ⟨ls', o₂, hls', hseen', hend⟩ := ih hmatch hrest has
    refine ⟨ls++ls', o₂, moves_append.mpr ⟨o₁, hls, hls'⟩, ?_, hend⟩
    rw [seen_append, hseen, hseen', observed, hs]

end Machine

end IthmbPlugin.AtomicObject
