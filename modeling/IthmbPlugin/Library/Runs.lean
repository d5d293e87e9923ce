import Mathlib.Tactic.Basic

/-!
# Runs of a partial step function

A machine is a function giving the next state of an action, or nothing when
the action is not enabled. What the surroundings of the machine promise is a
predicate on the action and the state it is taken from; a theorem about runs
is one step lemma and the induction of this module.
-/

set_option autoImplicit false

namespace IthmbPlugin.Runs

variable {S A : Type*}

def run (step : S → A → Option S) : List A → S → Option S
  | [], s => some s
  | a::as, s => (step s a).bind (run step as)

/-- Every action of the list meets the promise in the state it is taken from. -/
def Admits (step : S → A → Option S) (ok : S → A → Prop) : List A → S → Prop
  | [], _ => True
  | a::as, s => ok s a ∧
    match step s a with
    | none => True
    | some s' => Admits step ok as s'

variable {step : S → A → Option S}

instance decidableAdmits {ok : S → A → Prop} [∀ s a, Decidable (ok s a)] :
    (as : List A) → (s : S) → Decidable (Admits step ok as s)
  | [], _ => isTrue trivial
  | a::as, s =>
    have : Decidable (match step s a with
        | none => True
        | some s' => Admits step ok as s') :=
      match step s a with
      | none => isTrue trivial
      | some s' => decidableAdmits as s'
    inferInstanceAs (Decidable (_ ∧ _))

theorem run_cons {a : A} {as : List A} {s t : S} (h : run step (a::as) s = some t) :
    ∃ s', step s a = some s' ∧ run step as s' = some t :=
  Option.bind_eq_some_iff.mp h

theorem run_append (as bs : List A) (s : S) :
    run step (as++bs) s = (run step as s).bind (run step bs) := by
  induction as generalizing s with
  | nil => rfl
  | cons a as ih =>
    rw [List.cons_append, run, run, Option.bind_assoc]
    exact Option.bind_congr fun s' _ => ih s'

theorem admits_cons {ok : S → A → Prop} {a : A} {as : List A} {s s' : S}
    (h : Admits step ok (a::as) s) (hs : step s a = some s') :
    ok s a ∧ Admits step ok as s' := by
  simpa only [Admits, hs] using h

theorem admits_of_forall {ok : S → A → Prop} {as : List A} (h : ∀ s, ∀ a ∈ as, ok s a) (s : S) :
    Admits step ok as s := by
  induction as generalizing s with
  | nil => trivial
  | cons a as ih =>
    refine ⟨h s a List.mem_cons_self, ?_⟩
    cases step s a with
    | none => trivial
    | some s' => exact ih (fun t a' ha => h t a' (List.mem_cons_of_mem a ha)) s'

theorem Admits.and {ok ok' : S → A → Prop} {as : List A} {s : S} (h : Admits step ok as s)
    (h' : Admits step ok' as s) : Admits step (fun s a => ok s a ∧ ok' s a) as s := by
  induction as generalizing s with
  | nil => trivial
  | cons a as ih =>
    refine ⟨⟨h.1, h'.1⟩, ?_⟩
    cases hs : step s a with
    | none => trivial
    | some s' => exact ih (admits_cons h hs).2 (admits_cons h' hs).2

/-- What one promised step preserves, a promised run preserves. -/
theorem run_invariant {ok : S → A → Prop} {Inv : S → Prop}
    (hstep : ∀ s a s', Inv s → ok s a → step s a = some s' → Inv s')
    (as : List A) (s t : S) (hs : Inv s) (hok : Admits step ok as s)
    (hrun : run step as s = some t) : Inv t := by
  induction as generalizing s with
  | nil => exact Option.some.inj hrun ▸ hs
  | cons a as ih =>
    obtain ⟨s', hstep', hrest⟩ := run_cons hrun
    obtain ⟨ha, has⟩ := admits_cons hok hstep'
    exact ih s' (hstep s a s' hs ha hstep') has hrest

theorem run_trail {ok : S → A → Prop} {Inv : List A → S → Prop}
    (hstep : ∀ before s a s', Inv before s → ok s a → step s a = some s' → Inv (before++[a]) s')
    (before as : List A) (s t : S) (hs : Inv before s) (hok : Admits step ok as s)
    (hrun : run step as s = some t) : Inv (before++as) t := by
  induction as generalizing before s with
  | nil =>
    rw [List.append_nil]
    exact Option.some.inj hrun ▸ hs
  | cons a as ih =>
    obtain ⟨s', hstep', hrest⟩ := run_cons hrun
    obtain ⟨ha, has⟩ := admits_cons hok hstep'
    rw [List.append_cons]
    exact ih (before++[a]) s' (hstep before s a s' hs ha hstep') has hrest

/-- The states reached by a promised run from an initial state. -/
def Reached (step : S → A → Option S) (ok : S → A → Prop) (init : S) (t : S) : Prop :=
  ∃ as, run step as init = some t ∧ Admits step ok as init

theorem reached_invariant {ok : S → A → Prop} {Inv : S → Prop} {init t : S}
    (hinit : Inv init)
    (hstep : ∀ s a s', Inv s → ok s a → step s a = some s' → Inv s')
    (h : Reached step ok init t) : Inv t := by
  obtain ⟨as, hrun, hok⟩ := h
  exact run_invariant hstep as init t hinit hok hrun

theorem admits_append {ok : S → A → Prop} {as bs : List A} {s t : S} (has : Admits step ok as s)
    (hrun : run step as s = some t) (hbs : Admits step ok bs t) : Admits step ok (as++bs) s := by
  induction as generalizing s with
  | nil =>
    cases hrun
    exact hbs
  | cons a as ih =>
    obtain ⟨s', hs, hrest⟩ := run_cons hrun
    obtain ⟨ha, has'⟩ := admits_cons has hs
    refine ⟨ha, ?_⟩
    rw [hs]
    exact ih has' hrest

theorem Reached.next {ok : S → A → Prop} {init s t : S} {a : A} (h : Reached step ok init s)
    (ha : ok s a) (hs : step s a = some t) : Reached step ok init t := by
  obtain ⟨as, hrun, hok⟩ := h
  refine ⟨as++[a], ?_, admits_append hok hrun ⟨ha, by rw [hs]; trivial⟩⟩
  rw [run_append, hrun, Option.bind_some, run, hs, Option.bind_some, run]

theorem Reached.append {ok : S → A → Prop} {init s t : S} {as : List A}
    (h : Reached step ok init s) (has : Admits step ok as s) (hrun : run step as s = some t) :
    Reached step ok init t := by
  obtain ⟨before, hbefore, hok⟩ := h
  refine ⟨before++as, ?_, admits_append hok hbefore has⟩
  rw [run_append, hbefore, Option.bind_some, hrun]

theorem Reached.start {ok : S → A → Prop} (init : S) : Reached step ok init init :=
  ⟨[], rfl, trivial⟩

end IthmbPlugin.Runs
