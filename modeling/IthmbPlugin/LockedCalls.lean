import IthmbPlugin.Poisoned
import IthmbPlugin.RegistryThreads

/-!
# Calls at the registry's lock

The machine of the calls with the lock in it. A call that comes to `register` or
`unregister` is a thread of the registry: it asks for the lock, waits while
another call holds it, works on the map one operation at a time, any of which
may panic, and goes on with the answer when it has given the lock back. The
machine in which a critical section is one step has the same runs.
-/

set_option autoImplicit false

namespace IthmbPlugin.LockedCalls
open IthmbPlugin.Types IthmbPlugin.Registry IthmbPlugin.Ownership IthmbPlugin.Runs
open IthmbPlugin.Calls IthmbPlugin.Discipline IthmbPlugin.DecodeContract IthmbPlugin.Phases
open IthmbPlugin.Ranked
open IthmbPlugin.Mutex (Point Behind Owned Advanced)
open IthmbPlugin.RegistryThreads (Op At Answer Threads registryOf code sectionRank)

/-- `points` has the calls that are in a function of the registry. -/
structure Locked where
  world : World
  owner : Option CallId
  points : Finmap (fun _ : CallId => Point Op At Answer)

namespace Locked

def initial (slots : SlotId → IGPixelBuffer) : Locked where
  world := .initial slots
  owner := none
  points := ∅

def threads (s : Locked) : Threads where
  guarded := { value := s.world.registry.entries, poisoned := s.world.registry.poisoned }
  owner := s.owner
  calls := s.points

def put (s : Locked) (t : Threads) : Locked where
  world := { s.world with registry := registryOf t.guarded }
  owner := t.owner
  points := t.calls

end Locked

def request : Call → Option Op
  | .copied _ f p => some (.register p f.bufSize)
  | .cleared _ p _ => some (.unregister p)
  | _ => none

/-- A call goes on with the answer of the registry. Without one its
`catch_unwind` ends it. -/
def resume (w : World) (c : CallId) : Call → Option Answer → Option World
  | .copied s f p,some (.registered (.ok ())) => some (w.setCall c (.registered s f p))
  | .copied s _ p,some (.registered (.error _)) => some (w.setCall c (.rejected s p))
  | .copied s _ _,none => some (w.endCall c (.refused (some s) .internal))
  | .cleared s p _,some (.unregistered (.ok _)) => some (w.setCall c (.unregistered s p))
  | .cleared s _ _,some (.unregistered (.error _)) => some (w.endCall c (.freed (some s)))
  | .cleared s _ _,none => some (w.endCall c (.freed (some s)))
  | _,_ => none

def outside : Call → ℕ
  | .decoding _ _ => 8
  | .allocated _ _ _ => 7
  | .freeing _ => 7
  | _ => 1

/-- `act` is a step outside the registry, `turn` a step of a call inside it. -/
inductive Move where
  | act (a : Calls.Action)
  | turn (c : CallId) (panics : Bool)

def mover : Move → Option CallId
  | .act (.advance c _) => some c
  | .act _ => none
  | .turn c _ => some c

def turn (s : Locked) (c : CallId) (panics : Bool) (call : Call) (op : Op) : Option Locked :=
  match s.points.lookup c with
  | none => (RegistryThreads.step s.threads (.call c op)).map s.put
  | some (.leaving r) => do
    let t ← RegistryThreads.step s.threads (.advance c panics)
    let w ← resume (s.put t).world c call r
    return { s.put t with world := w }
  | some _ => (RegistryThreads.step s.threads (.advance c panics)).map s.put

def atRegistry (w : World) : Calls.Action → Bool
  | .advance c _ => (holder request w.calls c).isSome
  | _ => false

def step (s : Locked) : Move → Option Locked
  | .act a =>
    if atRegistry s.world a then none
    else (Calls.step s.world a).map fun w => { s with world := w }
  | .turn c panics => do
    let call ← s.world.calls.lookup c
    let op ← request call
    turn s c panics call op

def Fresh (s : Locked) : Move → Prop
  | .act a => MallocFresh s.world a
  | .turn _ _ => True

instance (s : Locked) : (m : Move) → Decidable (Fresh s m)
  | .act a => inferInstanceAs (Decidable (MallocFresh s.world a))
  | .turn _ _ => isTrue trivial

theorem unlock_step {s : Locked} {c : CallId} {r : Option Answer}
    (hp : s.points.lookup c = some (.leaving r)) (panics : Bool) :
    RegistryThreads.step s.threads (.advance c panics) = some (s.threads.unlock c r) :=
  congrArg (Option.bind · (Mutex.advance code s.threads c panics)) hp

theorem step_cases {s s' : Locked} {m : Move} (h : step s m = some s') :
    (∃ a w', m = .act a ∧ atRegistry s.world a = false ∧ Calls.step s.world a = some w' ∧
      s' = { s with world := w' }) ∨
    (∃ c panics call op, m = .turn c panics ∧ s.world.calls.lookup c = some call ∧
      request call = some op ∧
      ((∃ t, s.points.lookup c = none ∧ RegistryThreads.step s.threads (.call c op) = some t ∧
        s' = s.put t) ∨
      (∃ p t, s.points.lookup c = some p ∧ (∀ r, p ≠ .leaving r) ∧
        RegistryThreads.step s.threads (.advance c panics) = some t ∧ s' = s.put t) ∨
      (∃ r w', s.points.lookup c = some (.leaving r) ∧
        resume (s.put (s.threads.unlock c r)).world c call r = some w' ∧
        s' = { s.put (s.threads.unlock c r) with world := w' }))) := by
  cases m with
  | act a =>
    obtain ⟨ha, hs⟩ := Option.ite_none_left_eq_some.mp h
    obtain ⟨w', hw, rfl⟩ := Option.map_eq_some_iff.mp hs
    exact Or.inl ⟨a, w', rfl, by simpa using ha, hw, rfl⟩
  | turn c panics =>
    obtain ⟨call, hc, h⟩ := Option.bind_eq_some_iff.mp h
    obtain ⟨op, hop, h⟩ := Option.bind_eq_some_iff.mp h
    refine Or.inr ⟨c, panics, call, op, rfl, hc, hop, ?_⟩
    cases hp : s.points.lookup c with
    | none =>
      simp only [turn, hp] at h
      obtain ⟨t, ht, rfl⟩ := Option.map_eq_some_iff.mp h
      exact Or.inl ⟨t, rfl, ht, rfl⟩
    | some p =>
      cases p with
      | leaving r =>
        simp only [turn, hp] at h
        obtain ⟨t, ht, h⟩ := Option.bind_eq_some_iff.mp h
        cases (unlock_step hp panics).symm.trans ht
        obtain ⟨w', hw, he⟩ := Option.bind_eq_some_iff.mp h
        cases he
        exact Or.inr (Or.inr ⟨r, w', rfl, hw, rfl⟩)
      | waiting op' =>
        simp only [turn, hp] at h
        obtain ⟨t, ht, rfl⟩ := Option.map_eq_some_iff.mp h
        exact Or.inr (Or.inl ⟨_, t, rfl, nofun, ht, rfl⟩)
      | inside b =>
        simp only [turn, hp] at h
        obtain ⟨t, ht, rfl⟩ := Option.map_eq_some_iff.mp h
        exact Or.inr (Or.inl ⟨_, t, rfl, nofun, ht, rfl⟩)

def onRegistry (w : World) (r : BufferRegistry) : World := { w with registry := r }

@[simp] theorem onRegistry_slots (w : World) (r : BufferRegistry) :
    (onRegistry w r).slots = w.slots := rfl

@[simp] theorem onRegistry_registry (w : World) (r : BufferRegistry) :
    (onRegistry w r).registry = r := rfl

section Steps
variable {w w' : World} {c : CallId} {call : Call} {op : Op} {r r' : BufferRegistry}

theorem advance_onRegistry (answer : Addr) (hcall : request call = none) (r : BufferRegistry) :
    (onRegistry w r).advance c answer call = onRegistry (w.advance c answer call) r ∧
      (w.advance c answer call).registry = w.registry := by
  cases call with
  | decoding s f =>
    simp only [World.advance]
    split_ifs <;> exact ⟨rfl, rfl⟩
  | freeing s =>
    by_cases hnull : (w.slots s).data = null <;>
      simp only [World.advance, onRegistry_slots, hnull, if_true, if_false] <;> exact ⟨rfl, rfl⟩
  | copied s f p => cases hcall
  | cleared s p origin => cases hcall
  | _ => exact ⟨rfl, rfl⟩

theorem startDecode_onRegistry (slot : Option SlotId)
    (decoded : Except IGStatus Decode.DecodedImage) (r : BufferRegistry) :
    (onRegistry w r).startDecode c slot decoded = onRegistry (w.startDecode c slot decoded) r ∧
      (w.startDecode c slot decoded).registry = w.registry := by
  cases decoded with
  | error status => exact ⟨rfl, rfl⟩
  | ok img =>
    cases slot with
    | none => exact ⟨rfl, rfl⟩
    | some s =>
      cases hf : Decode.frameOf img <;> simp only [World.startDecode, hf] <;> exact ⟨rfl, rfl⟩

theorem act_onRegistry {a : Calls.Action} (hs : Calls.step w a = some w')
    (ha : atRegistry w a = false) (r : BufferRegistry) :
    Calls.step (onRegistry w r) a = some (onRegistry w' r) ∧ w'.registry = w.registry := by
  cases a with
  | hostWrite s b =>
    cases hs
    exact ⟨rfl, rfl⟩
  | hostCopy source target =>
    cases hs
    exact ⟨rfl, rfl⟩
  | beginDecode c slot env path frameIndex =>
    obtain ⟨hc, he⟩ := Option.ite_none_left_eq_some.mp hs
    cases he
    obtain ⟨heq, hreg⟩ := startDecode_onRegistry (w := w) (c := c) slot
      (Decode.decodeImage env path frameIndex slot.isNone).1 r
    exact ⟨(if_neg hc).trans (congrArg some heq), hreg⟩
  | beginFree c slot =>
    obtain ⟨hc, he⟩ := Option.ite_none_left_eq_some.mp hs
    cases slot <;> cases he <;> exact ⟨if_neg hc, rfl⟩
  | advance c answer =>
    obtain ⟨call, hcall, rfl⟩ := Option.map_eq_some_iff.mp hs
    rw [atRegistry, holder_of_lookup hcall] at ha
    have hnone : request call = none := by simpa using ha
    obtain ⟨heq, hreg⟩ := advance_onRegistry (w := w) (c := c) answer hnone r
    refine ⟨?_, hreg⟩
    rw [← heq]
    exact congrArg (Option.map ((onRegistry w r).advance c answer)) hcall

/-- A section in the registry and what the call makes of its answer are the
critical section of the machine that takes it in one step. -/
theorem section_step {a : Option Answer} (hc : w.calls.lookup c = some call)
    (hop : request call = some op) (h : RegistryThreads.Effect r op r' a) :
    ∃ w' m, resume (onRegistry w r') c call a = some w' ∧
      Poisoned.Fresh (onRegistry w r) m ∧ Poisoned.step (onRegistry w r) m = some w' := by
  cases a with
  | none =>
    obtain ⟨hopen, rfl⟩ := h
    have hhealthy : r.poisoned = false := by
      by_contra hp
      have hrefusal := hopen (by simpa using hp)
      cases call <;> cases hop <;> cases hrefusal
    have hstep : Poisoned.step (onRegistry w r) (.panicked c) =
        (w.calls.lookup c).bind (Poisoned.unwound (onRegistry w r) c) :=
      if_neg (by simp [onRegistry, hhealthy])
    rw [hc, Option.bind_some] at hstep
    cases call <;> cases hop <;> exact ⟨_, .panicked c, rfl, trivial, hstep⟩
  | some a =>
    have hstep : Poisoned.step (onRegistry w r) (.act (.advance c null)) =
        some ((onRegistry w r).advance c null call) :=
      congrArg (Option.map ((onRegistry w r).advance c null)) hc
    cases call with
    | copied s f p =>
      cases hop
      refine ⟨_, .act (.advance c null), ?_, Or.inl rfl, hstep⟩
      rcases register_cases r p f.bufSize with ⟨-, -, hreg⟩ | ⟨status, hreg, -⟩ <;>
        simp only [RegistryThreads.Effect, RegistryThreads.apply, hreg] at h <;> cases h <;>
        simp only [World.advance, onRegistry_registry, hreg] <;> rfl
    | cleared s p origin =>
      cases hop
      refine ⟨_, .act (.advance c null), ?_, Or.inl rfl, hstep⟩
      rcases unregister_cases r p with ⟨entry, -, -, hreg⟩ | ⟨status, hreg, -⟩ <;>
        simp only [RegistryThreads.Effect, RegistryThreads.apply, hreg] at h <;> cases h <;>
        simp only [World.advance, onRegistry_registry, hreg] <;> rfl
    | _ => cases hop

theorem resume_cases {a : Option Answer} (h : resume w c call a = some w') :
    w'.registry = w.registry ∧ (w'.calls = w.calls.erase c ∨
      ∃ next, w'.calls = w.calls.insert c next ∧ request next = none ∧ outside next = 1) := by
  cases call with
  | copied s f p =>
    rcases a with _ | ⟨_ | _⟩ | _ | _ | _ | _ <;> cases h
    · exact ⟨rfl, Or.inl rfl⟩
    · exact ⟨rfl, Or.inr ⟨_, rfl, rfl, rfl⟩⟩
    · exact ⟨rfl, Or.inr ⟨_, rfl, rfl, rfl⟩⟩
  | cleared s p origin =>
    rcases a with _ | _ | ⟨_ | _⟩ | _ | _ | _ <;> cases h
    · exact ⟨rfl, Or.inl rfl⟩
    · exact ⟨rfl, Or.inl rfl⟩
    · exact ⟨rfl, Or.inr ⟨_, rfl, rfl, rfl⟩⟩
  | _ => cases h

theorem resume_request {a : Option Answer} (h : resume w c call a = some w') {d : CallId}
    (hd : d ≠ c) : holder request w'.calls d = holder request w.calls d := by
  obtain ⟨-, heq | ⟨next, heq, -⟩⟩ := resume_cases h <;> rw [heq, holder, holder]
  · rw [Finmap.lookup_erase_ne hd]
  · rw [Finmap.lookup_insert_of_ne _ hd]

/-- What a call has asked of the registry is not changed from outside. -/
theorem act_request {a : Calls.Action} (hs : Calls.step w a = some w')
    (ha : atRegistry w a = false) (hop : holder request w.calls c = some op) :
    holder request w'.calls c = some op := by
  obtain ⟨call, hcall, hreq⟩ := holder_some hop
  have hother : ∀ answer, a ≠ .advance c answer := by
    rintro answer rfl
    rw [atRegistry, hop] at ha
    cases ha
  rw [holder_of_lookup (step_other hs hother hcall), hreq]

end Steps

theorem act_threads {s : Locked} {w' : World} {a : Calls.Action}
    (hs : Calls.step s.world a = some w') (ha : atRegistry s.world a = false) :
    ({ s with world := w' } : Locked).threads = s.threads := by
  simp only [Locked.threads, (act_onRegistry hs ha s.world.registry).2]

theorem put_resumed {s : Locked} {t : Threads} {w' : World} {c : CallId} {call : Call}
    {a : Option Answer} (h : resume (s.put t).world c call a = some w') :
    ({ s.put t with world := w' } : Locked).threads = t := by
  simp only [Locked.threads, (resume_cases h).1]
  rfl

theorem step_threads (s : Locked) (m : Move) (s' : Locked) (hs : step s m = some s') :
    s'.threads = s.threads ∨ ∃ a, RegistryThreads.step s.threads a = some s'.threads := by
  rcases step_cases hs with ⟨a, w', rfl, ha, hw, rfl⟩ | ⟨c, panics, call, op, rfl, hc, hop, hturn⟩
  · exact Or.inl (act_threads hw ha)
  · rcases hturn with ⟨t, -, ht, rfl⟩ | ⟨p, t, hp, -, ht, rfl⟩ | ⟨r, w', hp, hw, rfl⟩
    · exact Or.inr ⟨_, ht⟩
    · exact Or.inr ⟨_, ht⟩
    · rw [put_resumed hw]
      exact Or.inr ⟨_, unlock_step hp panics⟩

theorem reached_threads {slots : SlotId → IGPixelBuffer} {s : Locked}
    (h : Reached step Fresh (.initial slots) s) :
    Reached RegistryThreads.step (fun _ _ => True) .start s.threads := by
  have hstart : Reached RegistryThreads.step (fun _ _ => True) .start
      (Locked.initial slots).threads := .start _
  apply @reached_invariant _ _ step Fresh
    (fun s => Reached RegistryThreads.step (fun _ _ => True) .start s.threads) _ _ hstart ?_ h
  intro s m s' ih _ hs
  rcases step_threads s m s' hs with heq | ⟨a, ha⟩
  · rwa [heq]
  · exact ih.next trivial ha

/-- The machine with whole critical sections is at the same point, save that the
section under the lock has not begun there. -/
def Matched (slots : SlotId → IGPixelBuffer) (s : Locked) : Prop :=
  ∃ g, Behind code (holder request s.world.calls) g s.threads ∧
    Reached Poisoned.step Poisoned.Fresh (.initial slots) (onRegistry s.world (registryOf g))

theorem initial_matched (slots : SlotId → IGPixelBuffer) : Matched slots (.initial slots) :=
  ⟨{ value := ∅, poisoned := false }, Mutex.initial_behind code _ ∅, .start _⟩

theorem step_matched {slots : SlotId → IGPixelBuffer} (s : Locked) (m : Move) (s' : Locked)
    (h : Matched slots s) (hok : Fresh s m) (hs : step s m = some s') : Matched slots s' := by
  obtain ⟨g, hbehind, hreached⟩ := h
  rcases step_cases hs with ⟨a, w', rfl, ha, hw, rfl⟩ | ⟨c, panics, call, op, rfl, hc, hop, hturn⟩
  · obtain ⟨hstep, -⟩ := act_onRegistry hw ha (registryOf g)
    refine ⟨g, ?_, hreached.next (a := .act a) ?_ hstep⟩
    · rw [act_threads hw ha]
      exact hbehind.congr fun d op _ hop => act_request hw ha hop
    · cases a <;> exact hok
  · have hrequest : holder request s.world.calls c = some op := (holder_of_lookup hc).trans hop
    rcases hturn with ⟨t, -, ht, rfl⟩ | ⟨p, t, hp, hstays, ht, rfl⟩ | ⟨r, w', hp, hw, rfl⟩
    · exact ⟨g, hbehind.called hrequest ht, hreached⟩
    · rcases Mutex.step_cases ht with ⟨d, op', he, -⟩ | ⟨d, panics', p', he, hp', hadvanced⟩ <;>
        cases he
      cases hp.symm.trans hp'
      exact ⟨g, hbehind.advanced hp hstays hadvanced, hreached⟩
    · -- the section takes effect here, on the registry the last one left
      obtain ⟨⟨op', hop', heffect⟩, hafter⟩ :=
        hbehind.unlocked hp fun d hd => resume_request hw hd
      cases hrequest.symm.trans hop'
      obtain ⟨v, m, hv, hfresh, hstep⟩ := section_step hc hop
        (RegistryThreads.section_effect g op _ r heffect)
      cases hw.symm.trans hv
      have hworld : onRegistry w' (registryOf (s.threads.unlock c r).guarded) = w' := by
        change { w' with registry := (s.put (s.threads.unlock c r)).world.registry } = w'
        rw [← (resume_cases hw).1]
      refine ⟨(s.threads.unlock c r).guarded, ?_, ?_⟩
      · rw [put_resumed hw]
        exact hafter
      · rw [hworld]
        exact hreached.next hfresh hstep

theorem reached_matched {slots : SlotId → IGPixelBuffer} {s : Locked}
    (h : Reached step Fresh (.initial slots) s) : Matched slots s :=
  reached_invariant (initial_matched slots) step_matched h

def inProgress (s : Locked) (c : CallId) : Option (Call × Option (Point Op At Answer)) :=
  (s.world.calls.lookup c).map fun call => (call,s.points.lookup c)

def remaining (x : Call × Option (Point Op At Answer)) : ℕ :=
  match request x.1 with
  | none => outside x.1
  | some _ => x.2.elim 6 fun p => Mutex.remaining sectionRank 1 p+1

theorem remaining_pos (x : Call × Option (Point Op At Answer)) : 0 < remaining x := by
  obtain ⟨call, p⟩ := x
  cases call <;> cases p <;> simp [remaining, request, outside]

theorem remaining_registry {call : Call} {op : Op} (hop : request call = some op)
    (p : Option (Point Op At Answer)) : remaining (call,p) ≤ 6 := by
  simp only [remaining, hop]
  cases p with
  | none => exact Nat.le_refl 6
  | some p =>
    have hpoint := Mutex.remaining_le (n := 1) RegistryThreads.sectionRank_le p
    exact Nat.succ_le_succ (hpoint.trans (by decide))

theorem remaining_le (x : Call × Option (Point Op At Answer)) : remaining x ≤ 8 := by
  obtain ⟨call, p⟩ := x
  cases hreq : request call with
  | none =>
    simp only [remaining, hreq]
    cases call <;> simp [outside]
  | some op => exact (remaining_registry hreq p).trans (by decide)

theorem remaining_follows {w : World} {call next : Call} (h : Phases.Follows w call next)
    (hcall : request call = none) (p : Option (Point Op At Answer)) :
    remaining (next,p) < remaining (call,p) := by
  cases h with
  | allocates hp => exact Nat.lt_succ_self 7
  | copies => exact Nat.lt_succ_of_le (remaining_registry rfl p)
  | registers hp hkey => cases hcall
  | rejects hwhy => cases hcall
  | clears hnull => exact Nat.lt_succ_of_le (remaining_registry rfl p)
  | unregisters hp hkey => cases hcall

theorem moved_inProgress {s s' : Locked} {c : CallId} {x : Call × Option (Point Op At Answer)}
    (hcalls : ∀ d, d ≠ c → s'.world.calls.lookup d = s.world.calls.lookup d)
    (hpoints : ∀ d, d ≠ c → s'.points.lookup d = s.points.lookup d)
    (hself : s'.world.calls.lookup c = none ∨ ∃ next, s'.world.calls.lookup c = some next ∧
      remaining (next,s'.points.lookup c) < remaining x) :
    Moved remaining (inProgress s) c x (inProgress s') where
  other d hd := by rw [inProgress, inProgress, hcalls d hd, hpoints d hd]
  self := by
    rcases hself with hnone | ⟨next, hnext, hlt⟩
    · exact Or.inl (by rw [inProgress, hnone, Option.map_none])
    · exact Or.inr ⟨_, by rw [inProgress, hnext, Option.map_some], hlt⟩

theorem step_moved {s s' : Locked} {m : Move} {c : CallId} (hm : mover m = some c)
    (hs : step s m = some s') :
    ∃ x, inProgress s c = some x ∧ Moved remaining (inProgress s) c x (inProgress s') := by
  rcases step_cases hs with ⟨a, w', rfl, ha, hw, rfl⟩ | ⟨d, panics, call, op, rfl, hc, hop, hturn⟩
  · cases a <;> cases hm
    obtain ⟨call, hcall, rfl⟩ := Option.map_eq_some_iff.mp hw
    rw [atRegistry, holder_of_lookup hcall] at ha
    have hnone : request call = none := by simpa using ha
    refine ⟨_, by rw [inProgress, hcall, Option.map_some], ?_⟩
    rcases advance_follows s.world c _ call with heq | ⟨next, heq, hnext⟩
    · refine moved_inProgress (fun d hd => ?_) (fun _ _ => rfl) (Or.inl ?_) <;> rw [heq]
      · exact Finmap.lookup_erase_ne hd
      · exact Finmap.lookup_erase ..
    · refine moved_inProgress (fun d hd => ?_) (fun _ _ => rfl)
        (Or.inr ⟨next, ?_, remaining_follows hnext hnone _⟩) <;> rw [heq]
      · exact Finmap.lookup_insert_of_ne _ hd
      · exact Finmap.lookup_insert ..
  · cases hm
    refine ⟨_, by rw [inProgress, hc, Option.map_some], ?_⟩
    rcases hturn with ⟨t, hp, ht, rfl⟩ | ⟨p, t, hp, hstays, ht, rfl⟩ | ⟨r, w', hp, hw, rfl⟩ <;>
      rw [hp]
    · rcases Mutex.step_cases ht with ⟨d, op', he, -, rfl⟩ | ⟨d, panics', p', he, -⟩ <;> cases he
      refine moved_inProgress (fun _ _ => rfl) (fun d hd => Finmap.lookup_insert_of_ne _ hd)
        (Or.inr ⟨call, hc, ?_⟩)
      have hself : (s.put (s.threads.setPoint c (.waiting op))).points.lookup c =
          some (.waiting op) := Finmap.lookup_insert ..
      rw [hself]
      simp [remaining, hop, Mutex.remaining]
    · rcases Mutex.step_cases ht with ⟨d, op', he, -⟩ | ⟨d, panics', p', he, hp', hadvanced⟩ <;>
        cases he
      cases hp.symm.trans hp'
      obtain ⟨p', hcalls, hlt⟩ := Mutex.advanced_remaining RegistryThreads.sectionRank_le
        RegistryThreads.sectionRank_next hstays hadvanced
      have hself : (s.put t).points.lookup c = some p' :=
        (congrArg (Finmap.lookup c) hcalls).trans (Finmap.lookup_insert ..)
      refine moved_inProgress (fun _ _ => rfl) (fun d hd => Mutex.advanced_other hd hadvanced)
        (Or.inr ⟨call, hc, ?_⟩)
      rw [hself]
      simpa [remaining, hop] using hlt
    · have hpoints : ∀ d, d ≠ c → (s.threads.unlock c r).calls.lookup d = s.points.lookup d :=
        fun d hd => Finmap.lookup_erase_ne hd
      obtain ⟨-, heq | ⟨next, heq, hnone, hone⟩⟩ := resume_cases hw
      · refine moved_inProgress (fun d hd => ?_) hpoints (Or.inl ?_) <;> rw [heq]
        · exact Finmap.lookup_erase_ne hd
        · exact Finmap.lookup_erase ..
      · refine moved_inProgress (fun d hd => ?_) hpoints (Or.inr ⟨next, ?_, ?_⟩)
        · rw [heq]
          exact Finmap.lookup_insert_of_ne _ hd
        · rw [heq]
          exact Finmap.lookup_insert ..
        · simp [remaining, hop, hnone, hone, Mutex.remaining]

theorem calls_schedule : Schedules step inProgress mover remaining where
  positive _ _ x _ := remaining_pos x
  moves _ _ _ _ hm hs := step_moved hm hs
  stays s m s' c x hm hs hx := by
    obtain ⟨call, hcall, rfl⟩ := Option.map_eq_some_iff.mp hx
    by_cases hmoves : ∃ d, mover m = some d
    · obtain ⟨d, hd⟩ := hmoves
      have hne : c ≠ d := fun he => hm (he ▸ hd)
      obtain ⟨y, -, hmoved⟩ := step_moved hd hs
      exact (hmoved.other c hne).trans hx
    · rcases step_cases hs with ⟨a, w', rfl, -, hw, rfl⟩ | ⟨d, panics, -, -, rfl, -⟩
      · have hother : ∀ answer, a ≠ .advance c answer := by
          rintro answer rfl
          exact hm rfl
        rw [inProgress, step_other hw hother hcall, Option.map_some]
      · exact absurd ⟨d, rfl⟩ hmoves

/-- A call has a step before it for some answer of malloc. -/
def Enabled (s : Locked) (c : CallId) : Prop :=
  ∃ m s', mover m = some c ∧ Fresh s m ∧ step s m = some s'

theorem turn_enabled {s s' : Locked} {c : CallId} {call : Call} {op : Op}
    (hc : s.world.calls.lookup c = some call) (hop : request call = some op)
    (hturn : turn s c false call op = some s') : Enabled s c := by
  refine ⟨.turn c false, s', rfl, trivial, ?_⟩
  rw [← hturn]
  exact (congrArg (Option.bind · _) hc).trans (congrArg (Option.bind · _) hop)

section Progress
variable {s : Locked} {c : CallId} {g : Mutex.Guarded RegistryThreads.Map}

theorem point_enabled (h : Behind code (holder request s.world.calls) g s.threads)
    {p : Point Op At Answer} (hp : s.points.lookup c = some p)
    (hmoves : p.holds = true ∨ s.owner = none) : Enabled s c := by
  obtain ⟨op, hop, hsince⟩ := h.since c p hp
  obtain ⟨call, hc, hreq⟩ := holder_some hop
  have hsteps : ∃ t, RegistryThreads.step s.threads (.advance c false) = some t :=
    Mutex.caller_steps hp hmoves
  obtain ⟨t, ht⟩ := hsteps
  cases p with
  | waiting op' =>
    have hturn : turn s c false call op = some (s.put t) := by
      simp only [turn, hp, ht, Option.map_some]
    exact turn_enabled hc hreq hturn
  | inside b =>
    have hturn : turn s c false call op = some (s.put t) := by
      simp only [turn, hp, ht, Option.map_some]
    exact turn_enabled hc hreq hturn
  | leaving r =>
    obtain ⟨w', m, hw, -, -⟩ := section_step hc hreq
      (RegistryThreads.section_effect g op _ r hsince.effect)
    have hturn : turn s c false call op =
        some { s.put (s.threads.unlock c r) with world := w' } := by
      simp only [turn, hp, unlock_step hp]
      exact congrArg (Option.bind · _) hw
    exact turn_enabled hc hreq hturn

/-- A call can step or waits for the lock, whose owner can. -/
theorem call_enabled (h : Behind code (holder request s.world.calls) g s.threads)
    (hc : c ∈ s.world.calls) : Enabled s c ∨ ∃ d, d ≠ c ∧ s.owner = some d ∧ Enabled s d := by
  obtain ⟨call, hcall⟩ := Finmap.mem_iff.mp hc
  cases hreq : request call with
  | none =>
    have hoff : atRegistry s.world (.advance c null) = false := by
      rw [atRegistry, holder_of_lookup hcall, hreq]
      rfl
    refine Or.inl ⟨.act (.advance c null), { s with world := s.world.advance c null call }, rfl,
      Or.inl rfl, ?_⟩
    rw [step, if_neg (by simp [hoff]), Calls.step, hcall, Option.map_some, Option.map_some]
  | some op =>
    cases hp : s.points.lookup c with
    | none =>
      have ht : RegistryThreads.step s.threads (.call c op) =
          some (s.threads.setPoint c (.waiting op)) := if_neg (Finmap.lookup_eq_none.mp hp)
      have hturn : turn s c false call op = some (s.put (s.threads.setPoint c (.waiting op))) := by
        simp only [turn, hp, ht, Option.map_some]
      exact Or.inl (turn_enabled hcall hreq hturn)
    | some p =>
      by_cases hmoves : p.holds = true ∨ s.owner = none
      · exact Or.inl (point_enabled h hp hmoves)
      · obtain ⟨hholds, howner⟩ := not_or.mp hmoves
        obtain ⟨d, hd⟩ := Option.ne_none_iff_exists'.mp howner
        obtain ⟨q, hq, hqholds⟩ := h.owned.owner d hd
        have hne : d ≠ c := by
          rintro rfl
          cases hp.symm.trans hq
          exact hholds hqholds
        exact Or.inr ⟨d, hne, hd, point_enabled h hq (Or.inl hqholds)⟩

end Progress

/-- Calls that wait for the registry's lock refine the machine in which a
critical section is one step, are free of deadlock and return. In every state
that any number of calls can reach, any of whose map operations may panic under
the lock: the threads of the registry are at a point of theirs, and while the
lock is free the world is one the machine of whole critical sections reaches,
without a panic if none has struck; each call can step or waits for the owner of
the lock, which can; eight steps of its own bring a call to its return, however
the others and the host come in between, and the calls in progress take no more
altogether; and where none can step, all have returned, the lock is free, and
the live blocks are the registered ones and, behind a panic, at most one that is
lost. -/
theorem calls_finish (slots : SlotId → IGPixelBuffer) (s : Locked)
    (h : Reached step Fresh (.initial slots) s) :
    Reached RegistryThreads.step (fun _ _ => True) .start s.threads ∧
    (∃ r, (s.owner = none → r = s.world.registry) ∧
      Reached Poisoned.step Poisoned.Fresh (.initial slots) (onRegistry s.world r) ∧
      (r.poisoned = false → Reached Calls.step MallocFresh (.initial slots)
        (onRegistry s.world r))) ∧
    (∀ c, c ∈ s.world.calls → Enabled s c ∨ ∃ d, d ≠ c ∧ s.owner = some d ∧ Enabled s d) ∧
    (∀ c as s', c ∈ s.world.calls → run step as s = some s' →
      8 ≤ as.countP (fun m => mover m = some c) →
      ∃ early late v, as = early++late ∧ run step early s = some v ∧ c ∉ v.world.calls) ∧
    (∀ as s', (∀ m ∈ as, (mover m).isSome = true) → run step as s = some s' →
      as.length ≤ s.world.calls.keys.card*8) ∧
    ((∀ c, ¬ Enabled s c) → s.world.calls = ∅ ∧ s.points = ∅ ∧ s.owner = none ∧
      ∃ lost : Option Addr, (s.world.registry.poisoned = false → lost = none) ∧
        ∀ p, p ∈ s.world.memory.live ↔ p ∈ s.world.registry.entries ∨ lost = some p) := by
  obtain ⟨g, hbehind, hreached⟩ := reached_matched h
  have hfree : s.owner = none → registryOf g = s.world.registry := fun howner => by
    rw [hbehind.free howner]
    rfl
  refine ⟨reached_threads h, ⟨registryOf g, hfree, hreached, Poisoned.healthy_reached hreached⟩,
    fun c hc => call_enabled hbehind hc, fun c as s' hc hrun hsteps => ?_,
    fun as s' hmoves hrun => ?_, fun hstuck => ?_⟩
  · obtain ⟨call, hcall⟩ := Finmap.mem_iff.mp hc
    have hx : inProgress s c = some (call,s.points.lookup c) := by
      rw [inProgress, hcall, Option.map_some]
    obtain ⟨early, late, v, has, hv, hnone⟩ :=
      ends_within calls_schedule as hx hrun ((remaining_le _).trans hsteps)
    exact ⟨early, late, v, has, hv, Finmap.lookup_eq_none.mp (Option.map_eq_none_iff.mp hnone)⟩
  · have hkeys : ∀ c, inProgress s c ≠ none → c ∈ s.world.calls.keys := fun c hc =>
      lookup_keys fun hnone => hc (Option.map_eq_none_iff.mpr hnone)
    have hbound := schedule_bounded calls_schedule as hmoves hkeys hrun
    have htotal : total remaining s.world.calls.keys (inProgress s) ≤
        s.world.calls.keys.card*8 := total_le remaining_le
    omega
  · have hquiet : s.world.calls = ∅ := by
      refine Finmap.ext_lookup fun c => ?_
      rw [Finmap.lookup_empty, Finmap.lookup_eq_none]
      intro hc
      rcases call_enabled hbehind hc with hself | ⟨d, -, -, hd⟩
      · exact hstuck c hself
      · exact hstuck d hd
    have hpoints : s.points = ∅ := by
      refine Finmap.ext_lookup fun c => ?_
      rw [Finmap.lookup_empty, Finmap.lookup_eq_none]
      intro hc
      obtain ⟨p, hp⟩ := Finmap.mem_iff.mp hc
      obtain ⟨op, hop, -⟩ := hbehind.since c p hp
      rw [hquiet, holder_none_of_lookup (Finmap.lookup_empty c)] at hop
      cases hop
    have howner : s.owner = none := by
      cases ho : s.owner with
      | none => rfl
      | some c =>
        obtain ⟨p, hp, -⟩ := hbehind.owned.owner c ho
        change s.points.lookup c = some p at hp
        rw [hpoints, Finmap.lookup_empty] at hp
        cases hp
    obtain ⟨lost, hkept⟩ := Poisoned.reached_kept hreached
    rw [hfree howner] at hkept
    exact ⟨hquiet, hpoints, howner, lost, hkept.healthy, Poisoned.quiet_lost hkept hquiet⟩

def contending : List Move :=
  ((decodeAt 0 0 8).take 3++(decodeAt 1 1 16).take 3).map .act++
    [.turn 0 false, .turn 1 false, .turn 0 false]

theorem calls_finish_contending :
    ∃ s, run step contending (.initial fun _ => emptyBuffer) = some s ∧
      step s (.turn 1 false) = none ∧ s.owner = some 0 ∧ Enabled s 0 ∧
      ∀ as s', (∀ m ∈ as, (mover m).isSome = true) → run step as s = some s' →
        as.length ≤ 16 := by
  obtain ⟨s, hs⟩ : ∃ s, run step contending (.initial fun _ => emptyBuffer) = some s :=
    Option.isSome_iff_exists.mp (by decide)
  have hend : (run step contending (.initial fun _ => emptyBuffer)).map (fun s =>
      ((step s (.turn 1 false)).isNone,s.owner,decide (0 ∈ s.world.calls),
        s.world.calls.keys.card)) = some (true,some 0,true,2) := by decide
  rw [hs, Option.map_some, Option.some.injEq] at hend
  simp only [Prod.mk.injEq, Option.isNone_iff_eq_none, decide_eq_true_eq] at hend
  obtain ⟨hwaits, howner, hzero, hcard⟩ := hend
  obtain ⟨-, -, hmoves, -, htotal, -⟩ := calls_finish _ s ⟨contending, hs, by decide⟩
  have henabled : Enabled s 0 := by
    rcases hmoves 0 hzero with hself | ⟨d, hne, hd, -⟩
    · exact hself
    · exact absurd (Option.some.inj (hd.symm.trans howner)) hne
  refine ⟨s, hs, hwaits, howner, henabled, fun as s' hall hrun => ?_⟩
  have hbound := htotal as s' hall hrun
  rwa [hcard] at hbound

end IthmbPlugin.LockedCalls
