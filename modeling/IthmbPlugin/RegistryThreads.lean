import IthmbPlugin.Registry
import IthmbPlugin.Library.Mutex

/-!
# The registry under threads

Any number of threads call the registry at once, and each of its functions is
the sequence of steps it is in the source: take the lock, look at the poison
flag, work on the map, give the lock back. A map operation may panic before it
has done anything, which poisons the lock. What the threads see is the registry
of whole calls.
-/

set_option autoImplicit false

namespace IthmbPlugin.RegistryThreads
open IthmbPlugin.Types IthmbPlugin.Registry IthmbPlugin.Runs
open IthmbPlugin.AtomicObject IthmbPlugin.Mutex IthmbPlugin.Ranked

abbrev ThreadId := ℕ

abbrev Map := Finmap (fun _ : Addr => BufferEntry)

inductive Op where
  | register (data : Addr) (size : ℕ)
  | unregister (data : Addr)
  | contains (data : Addr)
  | len
  | isEmpty
  deriving DecidableEq, Repr

inductive Answer where
  | registered (r : Except IGStatus Unit)
  | unregistered (r : Except IGStatus BufferEntry)
  | contained (b : Bool)
  | counted (n : ℕ)
  | emptied (b : Bool)

inductive At where
  | refused (a : Answer)
  | containsKey (data : Addr) (size : ℕ)
  | insert (data : Addr) (size : ℕ)
  | remove (data : Addr)
  | answerContains (data : Addr)
  | answerLen
  | answerIsEmpty

/-- `lock().map_err(..)?` refuses a poisoned lock, `PoisonError::into_inner`
goes on with the map. -/
def enter : Op → Bool → At
  | .register data size, poisoned =>
    if poisoned then .refused (.registered (.error .internal)) else .containsKey data size
  | .unregister data, poisoned =>
    if poisoned then .refused (.unregistered (.error .internal)) else .remove data
  | .contains data, _ => .answerContains data
  | .len, _ => .answerLen
  | .isEmpty, _ => .answerIsEmpty

def next (map : Map) : At → Map × (At ⊕ Answer)
  | .refused a => (map,.inr a)
  | .containsKey data size =>
    if data ∈ map then (map,.inr (.registered (.error .invalidArg)))
    else (map,.inl (.insert data size))
  | .insert data size =>
    (map.insert data { ptr := data, size := size, freed := false },.inr (.registered (.ok ())))
  | .remove data =>
    match map.lookup data with
    | none => (map,.inr (.unregistered (.error .invalidArg)))
    | some entry => (map.erase data,.inr (.unregistered (.ok entry)))
  | .answerContains data => (map,.inr (.contained (decide (data ∈ map))))
  | .answerLen => (map,.inr (.counted map.keys.card))
  | .answerIsEmpty => (map,.inr (.emptied (map.keys.card == 0)))

def mayPanic : At → Bool
  | .refused _ => false
  | _ => true

def code : Code Map Op At Answer where
  enter := enter
  next := next
  mayPanic := mayPanic

abbrev Threads := Shared Map Op At Answer ThreadId

abbrev Action := Mutex.Action ThreadId Op

def step : Threads → Action → Option Threads := Mutex.step code

def Threads.start : Threads := .initial ∅

def registryOf (g : Guarded Map) : BufferRegistry := { entries := g.value, poisoned := g.poisoned }

def apply (r : BufferRegistry) : Op → Answer × BufferRegistry
  | .register data size => ((register r data size).map .registered id)
  | .unregister data => ((unregister r data).map .unregistered id)
  | .contains data => (.contained (contains r data),r)
  | .len => (.counted (len r),r)
  | .isEmpty => (.emptied (isEmpty r),r)

/-- What the two functions that change the map answer once it is poisoned. -/
def Op.refusal : Op → Option Answer
  | .register _ _ => some (.registered (.error .internal))
  | .unregister _ => some (.unregistered (.error .internal))
  | _ => none

def Effect (r : BufferRegistry) (op : Op) (r' : BufferRegistry) : Option Answer → Prop
  | some a => apply r op = (a,r')
  | none => (r.poisoned = true → op.refusal = none) ∧ r' = { r with poisoned := true }

def registrySpec : Spec BufferRegistry Op (Option Answer) Empty where
  effect := Effect
  environment _ e _ := e.elim

theorem section_last {map map' : Map} {a : At} {r : Option Answer} {ans : Answer} {m : Map}
    (hnext : next map a = (m,.inr ans)) (h : Section code map a map' r) :
    (mayPanic a = true ∧ r = none ∧ map' = map) ∨ (r = some ans ∧ map' = m) := by
  cases h with
  | panics hpanics => exact Or.inl ⟨hpanics, rfl, rfl⟩
  | ends hends =>
    cases hnext.symm.trans hends
    exact Or.inr ⟨rfl, rfl⟩
  | goes hgoes hrest => cases hnext.symm.trans hgoes

theorem effect_panics {r : BufferRegistry} {op : Op} (h : r.poisoned = true → op.refusal = none) :
    Effect r op ⟨r.entries,r.poisoned || (none : Option Answer).isNone⟩ none :=
  ⟨h, by rw [Option.isNone_none, Bool.or_true]⟩

theorem effect_answers {r : BufferRegistry} {op : Op} {a : Answer} {map : Map}
    (h : apply r op = (a,⟨map,r.poisoned⟩)) :
    Effect r op ⟨map,r.poisoned || (some a).isNone⟩ (some a) := by
  rw [Option.isNone_some, Bool.or_false]
  exact h

theorem effect_unchanged {r : BufferRegistry} {op : Op} {a : Answer} (h : apply r op = (a,r)) :
    Effect r op ⟨r.entries,r.poisoned || (some a).isNone⟩ (some a) := effect_answers h

section Sections
variable {r : BufferRegistry} {map : Map} {a : Option Answer} {data : Addr}

theorem register_section {size : ℕ}
    (h : Section code r.entries (enter (.register data size) r.poisoned) map a) :
    Effect r (.register data size) ⟨map,r.poisoned || a.isNone⟩ a := by
  cases hp : r.poisoned with
  | true =>
    rw [hp] at h
    rcases section_last rfl h with ⟨hpanics, -⟩ | ⟨rfl, rfl⟩
    · cases hpanics
    · rw [← hp]
      exact effect_unchanged (by simp [apply, register, hp])
  | false =>
    have hopen : r.poisoned = true → (Op.register data size).refusal = none := by simp [hp]
    rw [hp] at h
    rw [← hp]
    by_cases hkey : data ∈ r.entries
    · have hnext : next r.entries (.containsKey data size) =
          (r.entries,.inr (.registered (.error .invalidArg))) := if_pos hkey
      rcases section_last hnext h with ⟨-, rfl, rfl⟩ | ⟨rfl, rfl⟩
      · exact effect_panics hopen
      · exact effect_unchanged (by simp [apply, register, hp, hkey])
    · have hnext : next r.entries (.containsKey data size) =
          (r.entries,.inl (.insert data size)) := if_neg hkey
      cases h with
      | panics hpanics => exact effect_panics hopen
      | ends hends => cases hnext.symm.trans hends
      | goes hgoes hrest =>
        cases hnext.symm.trans hgoes
        rcases section_last rfl hrest with ⟨-, rfl, rfl⟩ | ⟨rfl, rfl⟩
        · exact effect_panics hopen
        · exact effect_answers (by simp [apply, register, hp, hkey, BufferRegistry.track])

theorem unregister_section
    (h : Section code r.entries (enter (.unregister data) r.poisoned) map a) :
    Effect r (.unregister data) ⟨map,r.poisoned || a.isNone⟩ a := by
  cases hp : r.poisoned with
  | true =>
    rw [hp] at h
    rcases section_last rfl h with ⟨hpanics, -⟩ | ⟨rfl, rfl⟩
    · cases hpanics
    · rw [← hp]
      exact effect_unchanged (by simp [apply, unregister, hp])
  | false =>
    have hopen : r.poisoned = true → (Op.unregister data).refusal = none := by simp [hp]
    rw [hp] at h
    rw [← hp]
    cases hkey : r.entries.lookup data with
    | none =>
      have hnext : next r.entries (.remove data) =
          (r.entries,.inr (.unregistered (.error .invalidArg))) := by simp [next, hkey]
      rcases section_last hnext h with ⟨-, rfl, rfl⟩ | ⟨rfl, rfl⟩
      · exact effect_panics hopen
      · exact effect_unchanged (by simp [apply, unregister, hp, hkey])
    | some entry =>
      have hnext : next r.entries (.remove data) =
          (r.entries.erase data,.inr (.unregistered (.ok entry))) := by simp [next, hkey]
      rcases section_last hnext h with ⟨-, rfl, rfl⟩ | ⟨rfl, rfl⟩
      · exact effect_panics hopen
      · exact effect_answers (by simp [apply, unregister, hp, hkey, BufferRegistry.untrack])

theorem question_section {op : Op} {b : At} {ans : Answer} (hop : op.refusal = none)
    (hnext : next r.entries b = (r.entries,.inr ans)) (happly : apply r op = (ans,r))
    (h : Section code r.entries b map a) : Effect r op ⟨map,r.poisoned || a.isNone⟩ a := by
  rcases section_last hnext h with ⟨-, rfl, rfl⟩ | ⟨rfl, rfl⟩
  · exact effect_panics fun _ => hop
  · exact effect_unchanged happly

end Sections

/-- The steps of a function together are the function. -/
theorem section_effect (q : Guarded Map) (op : Op) (q' : Guarded Map) (a : Option Answer)
    (h : (Mutex.spec code).effect q op q' a) : Effect (registryOf q) op (registryOf q') a := by
  obtain ⟨hsection, hpoisoned⟩ := h
  have hafter : registryOf q' = ⟨q'.value,q.poisoned || a.isNone⟩ := by rw [registryOf, hpoisoned]
  rw [hafter]
  cases op with
  | register data size => exact register_section (r := registryOf q) hsection
  | unregister data => exact unregister_section (r := registryOf q) hsection
  | contains data => exact question_section (r := registryOf q) rfl rfl rfl hsection
  | len => exact question_section (r := registryOf q) rfl rfl rfl hsection
  | isEmpty => exact question_section (r := registryOf q) rfl rfl rfl hsection

theorem effect_stays_poisoned (r : BufferRegistry) (op : Op) (r' : BufferRegistry)
    (a : Option Answer) (hp : r.poisoned = true) (h : Effect r op r' a) :
    r'.poisoned = true ∧ r'.entries = r.entries ∧ (op.refusal = none ∨ a = op.refusal) := by
  cases a with
  | none => exact ⟨by rw [h.2], by rw [h.2], Or.inl (h.1 hp)⟩
  | some a =>
    cases op <;> simp only [Effect, apply, register, unregister, hp, if_true, Prod.map, id,
      Prod.mk.injEq] at h <;> obtain ⟨rfl, rfl⟩ := h <;> simp [Op.refusal, hp]

theorem poisoned_follows {ls : List (Label ThreadId Op (Option Answer) Empty)}
    {r r' : BufferRegistry} (hp : r.poisoned = true) (h : Follows registrySpec ls r r') :
    r'.entries = r.entries ∧
      ∀ t op a, .commit t op a ∈ ls → op.refusal = none ∨ a = op.refusal := by
  induction ls generalizing r with
  | nil =>
    cases h
    exact ⟨rfl, fun _ _ _ ha => by cases ha⟩
  | cons l ls ih =>
    cases l with
    | invoke t op =>
      obtain ⟨hentries, hrest⟩ := ih hp h
      exact ⟨hentries, fun t' op' a ha => hrest t' op' a ((List.mem_cons.mp ha).resolve_left nofun)⟩
    | respond t a =>
      obtain ⟨hentries, hrest⟩ := ih hp h
      exact ⟨hentries, fun t' op' a ha => hrest t' op' a ((List.mem_cons.mp ha).resolve_left nofun)⟩
    | commit t op a =>
      obtain ⟨r₁, heffect, hfollows⟩ := h
      obtain ⟨hp₁, hkept, hanswer⟩ := effect_stays_poisoned r op r₁ a hp heffect
      obtain ⟨hentries, hrest⟩ := ih hp₁ hfollows
      refine ⟨hentries.trans hkept, fun t' op' a' ha => ?_⟩
      rcases List.mem_cons.mp ha with he | ha
      · cases he
        exact hanswer
      · exact hrest t' op' a' ha
    | environment e => cases e

/-- The registry is atomic. Whatever its threads do, step by step, in any order
and with any panics, there are instants, each inside its own call, in which
whole calls on a new registry give the answers the threads got; while no thread
holds the lock the registry is the one those calls have made. Behind the
instant of a panic no registration and no removal succeeds, and the map stays
what it was. -/
theorem registry_atomic (as : List Action) (s : Threads) (hrun : run step as .start = some s) :
    ∃ ls r, Linearizes registrySpec (observed step observe as .start) .new r ls ∧
      (s.owner = none → registryOf s.guarded = r) ∧
      ∀ early t op late, ls = early++.commit t op none::late →
        (∃ r₁, Follows registrySpec early .new r₁ ∧ r.entries = r₁.entries) ∧
        ∀ t' op' a, .commit t' op' a ∈ late → op'.refusal = none ∨ a = op'.refusal := by
  obtain ⟨ls, o, hmoves, hseen, hmatch⟩ := run_simulated
    (fun s a s' (_ : True) hs => step_simulated s a s' hs) (initial_match code ∅) hrun
    (admits_of_forall (fun _ _ _ => trivial) _)
  have hlin : Linearizes registrySpec (seen ls) .new (registryOf o.value) ls :=
    (moves_linearizes hmoves).map registryOf section_effect (fun _ e _ => e.elim)
  rw [hseen] at hlin
  refine ⟨ls, registryOf o.value, hlin, fun hfree => ?_, fun early t op late hls => ?_⟩
  · rw [hmatch.free hfree]
  · have hfollows := hlin.follows
    rw [hls] at hfollows
    obtain ⟨r₁, hearly, r₂, heffect, hlate⟩ := follows_append.mp hfollows
    obtain ⟨hentries, hrest⟩ := poisoned_follows (by rw [heffect.2]) hlate
    exact ⟨⟨r₁, hearly, hentries.trans (by rw [heffect.2])⟩, hrest⟩

def panicking : List Action :=
  [.call 0 (.register 64 4), .call 1 (.register 64 8), .advance 0 false, .advance 0 false,
    .advance 0 true, .advance 0 false, .advance 1 false, .advance 1 false, .advance 1 false]

theorem registry_atomic_panicking :
    ∃ s ls r, run step panicking .start = some s ∧
      Linearizes registrySpec (observed step observe panicking .start) .new r ls ∧
      r.poisoned = true := by
  obtain ⟨s, hs⟩ : ∃ s, run step panicking .start = some s :=
    Option.isSome_iff_exists.mp (by decide)
  have hend : (run step panicking .start).map (fun s => (s.owner,s.guarded.poisoned)) =
      some (none,true) := by decide
  rw [hs, Option.map_some, Option.some.injEq, Prod.mk.injEq] at hend
  obtain ⟨ls, r, hlin, hfree, -⟩ := registry_atomic panicking s hs
  refine ⟨s, ls, r, hs, hlin, ?_⟩
  rw [← hfree hend.1]
  exact hend.2

def sectionRank : At → ℕ
  | .containsKey _ _ => 1
  | _ => 0

theorem sectionRank_le (b : At) : sectionRank b ≤ 1 := by
  cases b <;> simp [sectionRank]

theorem sectionRank_next (map : Map) (b : At) (map' : Map) (b' : At)
    (h : code.next map b = (map',.inl b')) : sectionRank b' < sectionRank b := by
  cases b with
  | containsKey data size =>
    simp only [code, next] at h
    split_ifs at h <;> cases h
    exact Nat.zero_lt_one
  | remove data =>
    simp only [code, next] at h
    split at h <;> cases h
  | refused a => cases h
  | insert data size => cases h
  | answerContains data => cases h
  | answerLen => cases h
  | answerIsEmpty => cases h

/-- In every state any threads can reach, panics included: one of them at most
holds the lock; four steps of its own bring a call to its return, however the
others come in between, so the calls in progress take four steps each at most;
and where none of them can take a step all have returned and the lock is free. -/
theorem registry_live (s : Threads) (h : Reached step (fun _ _ => True) .start s) :
    (∀ t t' p p', s.calls.lookup t = some p → s.calls.lookup t' = some p' →
      p.holds = true → p'.holds = true → t = t') ∧
    (∀ t as s', t ∈ s.calls → run step as s = some s' →
      4 ≤ as.countP (fun a => mover a = some t) →
      ∃ early late v, as = early++late ∧ run step early s = some v ∧ t ∉ v.calls) ∧
    (∀ as s', (∀ a ∈ as, (mover a).isSome = true) → run step as s = some s' →
      as.length ≤ s.calls.keys.card*4) ∧
    (∀ as s', run step as s = some s' → (∀ t panics, step s' (.advance t panics) = none) →
      s'.calls = ∅ ∧ s'.owner = none) := by
  have howned : Owned s :=
    reached_invariant (initial_owned ∅) (fun s a s' hs _ hstep => step_owned s a s' hs hstep) h
  have hschedule := mutex_schedule (C := ThreadId) sectionRank_le sectionRank_next
  refine ⟨fun t t' p p' ht ht' hp hp' => ?_, fun t as s' ht hrun hsteps => ?_,
    fun as s' hmoves hrun => ?_, fun as s' hrun hstuck => ?_⟩
  · have howner := howned.holder t p ht hp
    exact Option.some.inj (howner.symm.trans (howned.holder t' p' ht' hp'))
  · obtain ⟨p, hp⟩ := Finmap.mem_iff.mp ht
    obtain ⟨early, late, v, has, hv, hnone⟩ :=
      ends_within hschedule as hp hrun ((remaining_le sectionRank_le p).trans hsteps)
    exact ⟨early, late, v, has, hv, Finmap.lookup_eq_none.mp hnone⟩
  · have hbound := schedule_bounded hschedule as hmoves
      (fun k hk => lookup_keys hk) hrun
    have htotal : total (remaining sectionRank 1) s.calls.keys s.calls.lookup ≤
        s.calls.keys.card*4 := total_le (remaining_le sectionRank_le)
    omega
  · have hok : Admits step (fun _ _ => True) as s := admits_of_forall (fun _ _ _ => trivial) s
    have howned' := run_invariant (fun s a s' hs _ hstep => step_owned s a s' hs hstep) as s s'
      howned hok hrun
    exact stuck_quiet howned' hstuck

theorem registry_live_blocked :
    ∃ s, run step (panicking.take 3) .start = some s ∧
      (∀ as s', run step as s = some s' → 4 ≤ as.countP (fun a => mover a = some 1) →
        ∃ early late v, as = early++late ∧ run step early s = some v ∧ 1 ∉ v.calls) ∧
      ∀ as s', (∀ a ∈ as, (mover a).isSome = true) → run step as s = some s' → as.length ≤ 8 := by
  obtain ⟨s, hs⟩ : ∃ s, run step (panicking.take 3) .start = some s :=
    Option.isSome_iff_exists.mp (by decide)
  have hcalls : (run step (panicking.take 3) .start).map
      (fun s => (decide (1 ∈ s.calls),s.calls.keys.card)) = some (true,2) := by decide
  rw [hs, Option.map_some, Option.some.injEq, Prod.mk.injEq] at hcalls
  obtain ⟨hone, hcard⟩ := hcalls
  have hreached : Reached step (fun _ _ => True) .start s :=
    ⟨_, hs, admits_of_forall (fun _ _ _ => trivial) _⟩
  obtain ⟨-, heach, htotal, -⟩ := registry_live s hreached
  refine ⟨s, hs, fun as s' => heach 1 as s' (of_decide_eq_true hone), fun as s' hmoves hrun => ?_⟩
  have hbound := htotal as s' hmoves hrun
  rwa [hcard] at hbound

end IthmbPlugin.RegistryThreads
