import IthmbPlugin.Registry

/-!
# The registry and its history

A log keeps every call made on a new registry with its answer. What the
registry holds is read off the log: a pointer is tracked when its successful
registrations outnumber its successful removals, which they do by one at the
most, under the size of the latest of them.
-/

set_option autoImplicit false

namespace IthmbPlugin.RegistryHistory
open IthmbPlugin.Types IthmbPlugin.Registry

inductive Op where
  | register (data : Addr) (size : ℕ)
  | unregister (data : Addr)
  deriving DecidableEq, Repr

inductive Call where
  | register (data : Addr) (size : ℕ) (answer : Except IGStatus Unit)
  | unregister (data : Addr) (answer : Except IGStatus BufferEntry)

structure Log where
  registry : BufferRegistry
  calls : List Call

def Log.new : Log := { registry := BufferRegistry.new, calls := [] }

def Log.step (log : Log) : Op → Log
  | .register data size =>
    { registry := (register log.registry data size).2
      calls := .register data size (register log.registry data size).1::log.calls }
  | .unregister data =>
    { registry := (unregister log.registry data).2
      calls := .unregister data (unregister log.registry data).1::log.calls }

def Log.after (ops : List Op) : Log := ops.foldl Log.step Log.new

@[simp] def Call.registered (data : Addr) : Call → Option ℕ
  | .register data' size (.ok ()) => if data' = data then some size else none
  | _ => none

@[simp] def Call.removed (data : Addr) : Call → Bool
  | .unregister data' (.ok _) => data' == data
  | _ => false

def registers (calls : List Call) (data : Addr) : ℕ :=
  calls.countP fun call => (call.registered data).isSome

def unregisters (calls : List Call) (data : Addr) : ℕ := calls.countP (Call.removed data)

def lastSize (calls : List Call) (data : Addr) : Option ℕ := calls.findSome? (Call.registered data)

section Counts
variable (calls : List Call) (call : Call) (data : Addr)

@[simp] theorem registers_cons :
    registers (call::calls) data =
      registers calls data+if (call.registered data).isSome then 1 else 0 :=
  List.countP_cons

@[simp] theorem unregisters_cons :
    unregisters (call::calls) data =
      unregisters calls data+if call.removed data then 1 else 0 :=
  List.countP_cons

@[simp] theorem lastSize_cons :
    lastSize (call::calls) data = (call.registered data).or (lastSize calls data) := by
  rw [lastSize, lastSize, List.findSome?_cons]
  cases call.registered data <;> rfl

end Counts

/-- What the registry and the counts agree on about one pointer. -/
def Agrees (log : Log) (data : Addr) : Prop :=
  (log.registry.entries.lookup data = none ∧
    registers log.calls data = unregisters log.calls data) ∨
  ∃ size, log.registry.entries.lookup data = some { ptr := data, size := size, freed := false } ∧
    registers log.calls data = unregisters log.calls data+1 ∧ lastSize log.calls data = some size

structure Follows (log : Log) : Prop where
  healthy : log.registry.poisoned = false
  agrees : ∀ data, Agrees log data

theorem new_follows : Follows Log.new where
  healthy := rfl
  agrees _ := .inl ⟨rfl, rfl⟩

theorem Agrees.keep {log log' : Log} {data : Addr} (h : Agrees log data)
    (hlookup : log'.registry.entries.lookup data = log.registry.entries.lookup data)
    (hreg : registers log'.calls data = registers log.calls data)
    (hunreg : unregisters log'.calls data = unregisters log.calls data)
    (hsize : lastSize log'.calls data = lastSize log.calls data) : Agrees log' data := by
  rw [Agrees, hlookup, hreg, hunreg, hsize]
  exact h

theorem register_follows {log : Log} (h : Follows log) (data : Addr) (size : ℕ) :
    Follows (log.step (.register data size)) := by
  rcases h.agrees data with ⟨hl, hcount⟩ | ⟨old, hl, hcount, hsize⟩
  · rw [Log.step, register_untracked h.healthy hl]
    refine ⟨h.healthy, fun q => ?_⟩
    by_cases hq : data = q
    · subst q
      exact .inr ⟨size, Finmap.lookup_insert .., by simp [hcount], by simp⟩
    · apply (h.agrees q).keep
      · exact Finmap.lookup_insert_of_ne _ (Ne.symm hq)
      · simp [hq]
      · simp
      · simp [hq]
  · rw [Log.step, register_tracked h.healthy hl]
    exact ⟨h.healthy, fun q => (h.agrees q).keep rfl (by simp) (by simp) (by simp)⟩

theorem unregister_follows {log : Log} (h : Follows log) (data : Addr) :
    Follows (log.step (.unregister data)) := by
  rcases h.agrees data with ⟨hl, hcount⟩ | ⟨size, hl, hcount, hsize⟩
  · rw [Log.step, unregister_untracked h.healthy hl]
    exact ⟨h.healthy, fun q => (h.agrees q).keep rfl (by simp) (by simp) (by simp)⟩
  · rw [Log.step, unregister_tracked h.healthy hl]
    refine ⟨h.healthy, fun q => ?_⟩
    by_cases hq : data = q
    · subst q
      exact .inl ⟨Finmap.lookup_erase .., by simp [hcount]⟩
    · apply (h.agrees q).keep
      · exact Finmap.lookup_erase_ne (Ne.symm hq)
      · simp
      · simp [hq]
      · simp

theorem step_follows {log : Log} (h : Follows log) (op : Op) : Follows (log.step op) := by
  cases op with
  | register data size => exact register_follows h data size
  | unregister data => exact unregister_follows h data

theorem after_follows (ops : List Op) : Follows (Log.after ops) := by
  induction ops using List.reverseRecOn with
  | nil => exact new_follows
  | append_singleton ops op ih =>
    rw [Log.after, List.foldl_append]
    exact step_follows ih op

section Reading
variable {log : Log} (h : Follows log) (data : Addr)
include h

theorem untracked_iff :
    log.registry.entries.lookup data = none ↔
      registers log.calls data = unregisters log.calls data := by
  rcases h.agrees data with ⟨hl, hcount⟩ | ⟨size, hl, hcount, -⟩
  · exact iff_of_true hl hcount
  · apply iff_of_false
    · rw [hl]
      exact Option.some_ne_none _
    · omega

theorem tracked_iff :
    data ∈ log.registry.entries ↔
      registers log.calls data = unregisters log.calls data+1 := by
  rcases h.agrees data with ⟨hl, hcount⟩ | ⟨size, hl, hcount, -⟩
  · apply iff_of_false
    · exact Finmap.lookup_eq_none.mp hl
    · omega
  · exact iff_of_true (Finmap.mem_of_lookup_eq_some hl) hcount

theorem entry_of_lookup {data : Addr} {entry : BufferEntry}
    (hl : log.registry.entries.lookup data = some entry) :
    ∃ size, lastSize log.calls data = some size ∧
      entry = { ptr := data, size := size, freed := false } := by
  rcases h.agrees data with ⟨hnone, -⟩ | ⟨size, hsome, -, hsize⟩
  · rw [hnone] at hl
    cases hl
  · rw [hsome] at hl
    exact ⟨size, hsize, (Option.some.inj hl).symm⟩

theorem register_ok_iff (size : ℕ) :
    (register log.registry data size).1 = .ok () ↔
      registers log.calls data = unregisters log.calls data := by
  rw [← untracked_iff h]
  cases hl : log.registry.entries.lookup data with
  | none => simp [register_untracked h.healthy hl]
  | some entry => simp [register_tracked h.healthy hl]

theorem register_refused (size : ℕ)
    (hcount : registers log.calls data ≠ unregisters log.calls data) :
    register log.registry data size = (.error .invalidArg,log.registry) := by
  obtain ⟨entry, hl⟩ := Option.ne_none_iff_exists'.mp (mt (untracked_iff h data).mp hcount)
  exact register_tracked h.healthy hl size

theorem unregister_ok (hcount : registers log.calls data = unregisters log.calls data+1) :
    ∃ size, lastSize log.calls data = some size ∧
      (unregister log.registry data).1 = .ok { ptr := data, size := size, freed := false } := by
  obtain ⟨entry, hl⟩ := Finmap.mem_iff.mp ((tracked_iff h data).mpr hcount)
  obtain ⟨size, hsize, rfl⟩ := entry_of_lookup h hl
  exact ⟨size, hsize, by rw [unregister_tracked h.healthy hl]⟩

theorem unregister_refused (hcount : registers log.calls data ≠ unregisters log.calls data+1) :
    unregister log.registry data = (.error .invalidArg,log.registry) := by
  apply unregister_untracked h.healthy
  exact Finmap.lookup_eq_none.mpr (mt (tracked_iff h data).mp hcount)

theorem isEmpty_iff :
    isEmpty log.registry = true ↔
      ∀ data, registers log.calls data = unregisters log.calls data := by
  rw [isEmpty, beq_iff_eq, len, Finset.card_eq_zero, Finset.eq_empty_iff_forall_notMem]
  apply forall_congr'
  intro data
  rw [← untracked_iff h, Finmap.lookup_eq_none, Finmap.mem_keys]

end Reading

/-- Every answer of the registry is what the history of its calls says. -/
theorem registry_refines_history (ops : List Op) :
    let log := Log.after ops
    (∀ data size,
      ((register log.registry data size).1 = .ok () ↔
        registers log.calls data = unregisters log.calls data) ∧
      (registers log.calls data ≠ unregisters log.calls data →
        register log.registry data size = (.error .invalidArg,log.registry))) ∧
    (∀ data,
      (registers log.calls data = unregisters log.calls data+1 →
        ∃ size, lastSize log.calls data = some size ∧
          (unregister log.registry data).1 =
            .ok { ptr := data, size := size, freed := false }) ∧
      (registers log.calls data ≠ unregisters log.calls data+1 →
        unregister log.registry data = (.error .invalidArg,log.registry))) ∧
    (∀ data, contains log.registry data = true ↔
      registers log.calls data = unregisters log.calls data+1) ∧
    (∃ tracked : Finset Addr,
      (∀ data, data ∈ tracked ↔ registers log.calls data = unregisters log.calls data+1) ∧
      len log.registry = tracked.card) ∧
    (isEmpty log.registry = true ↔
      ∀ data, registers log.calls data = unregisters log.calls data) ∧
    (∀ data entry, log.registry.entries.lookup data = some entry → entry.ptr = data) := by
  intro log
  have h : Follows log := after_follows ops
  refine ⟨?_, ?_, ?_, ?_, isEmpty_iff h, ?_⟩
  · exact fun data size => ⟨register_ok_iff h data size, register_refused h data size⟩
  · exact fun data => ⟨unregister_ok h data, unregister_refused h data⟩
  · intro data
    rw [contains, decide_eq_true_iff]
    exact tracked_iff h data
  · refine ⟨log.registry.entries.keys, fun data => ?_, rfl⟩
    rw [Finmap.mem_keys]
    exact tracked_iff h data
  · intro data entry hl
    obtain ⟨size, -, rfl⟩ := entry_of_lookup h hl
    rfl

end IthmbPlugin.RegistryHistory
