import IthmbPlugin.FileLimit
import IthmbPlugin.Library.Runs
import Mathlib.Logic.Function.Basic
import Mathlib.Tactic.TFAE

/-!
# Reading a file that others write

Between any two steps of the reader, others may bind the name to another
object or change what an object holds, and a stat or open call may fail on
whatever the name is bound to. An opened object stays open under a name that is
gone. Whatever the interleaving, the result is what reading
computes from the answers it met; and it keeps to the limit when no read finds
more than the limit, not when only the stat call did. The answers met are no
part of the reader and decide nothing in it.
-/

set_option autoImplicit false

namespace IthmbPlugin.FileRace
open IthmbPlugin.Types IthmbPlugin.ByteStream IthmbPlugin.FileIo IthmbPlugin.FileLimit
open IthmbPlugin.Runs

abbrev Inode := ℕ

/-- A device or a pipe reports some length and yields anything. -/
inductive Node where
  | regular (bytes : List UInt8)
  | special (reported : UInt64)

def Node.reported : Node → UInt64
  | .regular bytes => UInt64.ofNat bytes.length
  | .special n => n

/-- Whether a read at an offset can meet an event. A regular file hands over
some of what lies behind the offset, nothing only when nothing does. -/
def Node.yields (node : Node) (offset : ℕ) : ReadEvent UInt8 → Bool
  | .data chunk =>
    match node with
    | .regular bytes =>
      chunk.isPrefixOf (bytes.drop offset) && (chunk ≠ [] || bytes.length ≤ offset)
    | .special _ => true
  | .interrupted => true
  | .failed => true

structure Disk where
  names : Str → Option Inode
  nodes : Inode → Node

def Disk.relink (disk : Disk) (name : Str) (inode : Option Inode) : Disk :=
  { disk with names := Function.update disk.names name inode }

def Disk.rewrite (disk : Disk) (inode : Inode) (node : Node) : Disk :=
  { disk with nodes := Function.update disk.nodes inode node }

def Disk.stat (disk : Disk) : FileSystem where
  metadata := fun name => (disk.names name).map fun inode => (disk.nodes inode).reported
  openFile := fun _ => none

inductive Reader where
  | start
  | checked (fileSize : UInt64)
  | opened (fileSize : UInt64) (inode : Inode) (buf : List UInt8)
  | done (result : Except IGStatus (List UInt8))

structure Met where
  reported : Option UInt64
  file : Option (List (ReadEvent UInt8))

def Met.fileSystem (met : Met) : FileSystem where
  metadata := fun _ => met.reported
  openFile := fun _ => met.file

structure Race where
  disk : Disk
  reader : Reader
  met : Met

def Race.initial (disk : Disk) : Race :=
  { disk := disk, reader := .start, met := { reported := none, file := none } }

def Race.meetStat (w : Race) (pathStr : Str) (reader : Reader) : Race :=
  { w with reader := reader
           met := { reported := w.disk.stat.metadata pathStr, file := none } }

def Race.unanswered (w : Race) : Race :=
  { w with reader := .done (.error .ioError), met := { reported := none, file := none } }

def Race.meetOpen (w : Race) (file : Option (List (ReadEvent UInt8))) (reader : Reader) : Race :=
  { w with reader := reader, met := { w.met with file := file } }

def Race.meetRead (w : Race) (event : ReadEvent UInt8) (reader : Reader) : Race :=
  { w with reader := reader
           met := { w.met with file := w.met.file.map fun events => events++[event] } }

/-- `fails` is the stat or open call ahead, when it fails for a reason of its own
such as a missing permission. -/
inductive Action where
  | relink (name : Str) (inode : Option Inode)
  | rewrite (inode : Inode) (node : Node)
  | stat
  | openPath
  | fails
  | read (event : ReadEvent UInt8)

def resultOf : Option (List UInt8) → Except IGStatus (List UInt8)
  | none => .error .ioError
  | some bytes => if bytes.length < 4 then .error .decodeFailed else .ok bytes

def received (fileSize : UInt64) (inode : Inode) (buf : List UInt8) : ReadEvent UInt8 → Reader
  | .data [] => .done (resultOf (some buf))
  | .data (b::bs) => .opened fileSize inode (buf++b::bs)
  | .interrupted => .opened fileSize inode buf
  | .failed => .done (resultOf none)

def step (pathStr : Str) (w : Race) : Action → Option Race
  | .relink name inode => some { w with disk := w.disk.relink name inode }
  | .rewrite inode node => some { w with disk := w.disk.rewrite inode node }
  | .stat =>
    match w.reader with
    | .start =>
      match checkFileSize w.disk.stat pathStr with
      | .error status => some (w.meetStat pathStr (.done (.error status)))
      | .ok fileSize => some (w.meetStat pathStr (.checked fileSize))
    | _ => none
  | .openPath =>
    match w.reader with
    | .checked fileSize =>
      match w.disk.names pathStr with
      | none => some (w.meetOpen none (.done (.error .ioError)))
      | some inode => some (w.meetOpen (some []) (.opened fileSize inode []))
    | _ => none
  | .fails =>
    match w.reader with
    | .start => some w.unanswered
    | .checked _ => some (w.meetOpen none (.done (.error .ioError)))
    | _ => none
  | .read event =>
    match w.reader with
    | .opened fileSize inode buf =>
      if (w.disk.nodes inode).yields buf.length event then
        some (w.meetRead event (received fileSize inode buf event)) else none
    | _ => none

theorem step_cases {pathStr : Str} {w w' : Race} {a : Action} (h : step pathStr w a = some w') :
    ((∃ name inode, a = .relink name inode) ∨ (∃ inode node, a = .rewrite inode node)) ∧
      w'.reader = w.reader ∧ w'.met = w.met ∨
    (∃ status, w.reader = .start ∧ checkFileSize w.disk.stat pathStr = .error status ∧
      w' = w.meetStat pathStr (.done (.error status))) ∨
    (∃ fileSize, w.reader = .start ∧ checkFileSize w.disk.stat pathStr = .ok fileSize ∧
      w' = w.meetStat pathStr (.checked fileSize)) ∨
    (a = .fails ∧ w.reader = .start ∧ w' = w.unanswered) ∨
    (∃ fileSize, w.reader = .checked fileSize ∧ (w.disk.names pathStr = none ∨ a = .fails) ∧
      w' = w.meetOpen none (.done (.error .ioError))) ∨
    (∃ fileSize inode, w.reader = .checked fileSize ∧ w.disk.names pathStr = some inode ∧
      w' = w.meetOpen (some []) (.opened fileSize inode [])) ∨
    (∃ fileSize inode buf event, a = .read event ∧ w.reader = .opened fileSize inode buf ∧
      (w.disk.nodes inode).yields buf.length event = true ∧
      w' = w.meetRead event (received fileSize inode buf event)) := by
  cases a with
  | relink name inode =>
    cases h
    exact .inl ⟨.inl ⟨name, inode, rfl⟩, rfl, rfl⟩
  | rewrite inode node =>
    cases h
    exact .inl ⟨.inr ⟨inode, node, rfl⟩, rfl, rfl⟩
  | stat =>
    simp only [step] at h
    split at h
    · next hstart =>
      split at h
      · next status hcheck =>
        cases h
        exact .inr (.inl ⟨status, hstart, hcheck, rfl⟩)
      · next fileSize hcheck =>
        cases h
        exact .inr (.inr (.inl ⟨fileSize, hstart, hcheck, rfl⟩))
    · cases h
  | openPath =>
    simp only [step] at h
    split at h
    · next fileSize hchecked =>
      split at h
      · next hname =>
        cases h
        exact .inr (.inr (.inr (.inr (.inl ⟨fileSize, hchecked, .inl hname, rfl⟩))))
      · next inode hname =>
        cases h
        exact .inr (.inr (.inr (.inr (.inr (.inl ⟨fileSize, inode, hchecked, hname, rfl⟩)))))
    · cases h
  | fails =>
    simp only [step] at h
    split at h
    · next hstart =>
      cases h
      exact .inr (.inr (.inr (.inl ⟨rfl, hstart, rfl⟩)))
    · next fileSize hchecked =>
      cases h
      exact .inr (.inr (.inr (.inr (.inl ⟨fileSize, hchecked, .inr rfl, rfl⟩))))
    · cases h
  | read event =>
    simp only [step] at h
    split at h
    · next fileSize inode buf hopened =>
      split_ifs at h with hyields
      cases h
      exact .inr (.inr (.inr (.inr (.inr (.inr
        ⟨fileSize, inode, buf, event, rfl, hopened, hyields, rfl⟩)))))
    · cases h

theorem read_checked {fs : FileSystem} {pathStr : Str} {fileSize : UInt64}
    (h : checkFileSize fs pathStr = .ok fileSize) :
    readIthmbFile fs pathStr = resultOf ((fs.openFile pathStr).bind readToEnd) := by
  simp only [readIthmbFile, h, fsRead]
  cases fs.openFile pathStr with
  | none => rfl
  | some events => cases hread : readToEnd events <;> simp [hread, resultOf]

def Accounts (pathStr : Str) (w : Race) : Prop :=
  match w.reader with
  | .start => True
  | .checked fileSize => checkFileSize w.met.fileSystem pathStr = .ok fileSize
  | .opened fileSize _ buf => checkFileSize w.met.fileSystem pathStr = .ok fileSize ∧
    ∃ events, w.met.file = some events ∧ Continues events ∧ delivered events = buf
  | .done result => readIthmbFile w.met.fileSystem pathStr = result

theorem stat_accounts (w : Race) (pathStr : Str) (reader : Reader) :
    checkFileSize (w.meetStat pathStr reader).met.fileSystem pathStr =
      checkFileSize w.disk.stat pathStr := rfl

theorem read_accounts {pathStr : Str} {w : Race} {fileSize : UInt64}
    {events : List (ReadEvent UInt8)} (hevents : Continues events)
    (hcheck : checkFileSize w.met.fileSystem pathStr = .ok fileSize)
    (hfile : w.met.file = some events) (inode : Inode) (event : ReadEvent UInt8) :
    Accounts pathStr (w.meetRead event (received fileSize inode (delivered events) event)) := by
  have hmet : ∀ reader, (w.meetRead event reader).met.file = some (events++[event]) := by
    intro reader
    simp [Race.meetRead, hfile]
  have hread : ∀ reader, readIthmbFile (w.meetRead event reader).met.fileSystem pathStr =
      resultOf ((readToEnd [event]).map fun tail => delivered events++tail) := by
    intro reader
    have hcheck' : checkFileSize (w.meetRead event reader).met.fileSystem pathStr =
        .ok fileSize := hcheck
    rw [read_checked hcheck', ← readToEnd_append hevents, Met.fileSystem, hmet, Option.bind_some]
  cases event with
  | data chunk =>
    cases chunk with
    | nil =>
      have hend := hread (.done (resultOf (some (delivered events))))
      rw [readToEnd, Option.map_some, List.append_nil] at hend
      exact hend
    | cons b bs =>
      refine ⟨hcheck, _, hmet _, hevents.append (by simp [Continues]), ?_⟩
      rw [delivered_append hevents]
      simp [delivered]
  | interrupted =>
    refine ⟨hcheck, _, hmet _, hevents.append (by simp [Continues]), ?_⟩
    rw [delivered_append hevents]
    simp [delivered]
  | failed => exact hread (.done (resultOf none))

theorem step_accounts {pathStr : Str} {w w' : Race} {a : Action} (h : Accounts pathStr w)
    (hstep : step pathStr w a = some w') : Accounts pathStr w' := by
  rcases step_cases hstep with ⟨-, hreader, hmet⟩ | ⟨status, hr, hcheck, rfl⟩ |
    ⟨fileSize, hr, hcheck, rfl⟩ | ⟨-, -, rfl⟩ | ⟨fileSize, hr, -, rfl⟩ |
    ⟨fileSize, inode, hr, hname, rfl⟩ | ⟨fileSize, inode, buf, event, -, hr, -, rfl⟩
  · rwa [Accounts, hreader, hmet]
  · show readIthmbFile _ pathStr = _
    rw [readIthmbFile, stat_accounts, hcheck]
  · exact hcheck
  · show readIthmbFile _ pathStr = _
    rfl
  · rw [Accounts, hr] at h
    exact read_checked h
  · rw [Accounts, hr] at h
    exact ⟨h, [], rfl, by simp [Continues], rfl⟩
  · rw [Accounts, hr] at h
    obtain ⟨hcheck, events, hfile, hevents, rfl⟩ := h
    exact read_accounts hevents hcheck hfile inode event

/-- In every interleaving the reader's result is that of reading the answers it
met, so what holds of all answers holds of all interleavings. -/
theorem race_observed {pathStr : Str} {ok : Race → Action → Prop} {disk : Disk} {w : Race}
    {result : Except IGStatus (List UInt8)}
    (h : Reached (step pathStr) ok (.initial disk) w)
    (hdone : w.reader = .done result) : readIthmbFile w.met.fileSystem pathStr = result := by
  have hstep : ∀ s a s', Accounts pathStr s → ok s a → step pathStr s a = some s' →
      Accounts pathStr s' := fun _ _ _ hs _ hstep => step_accounts hs hstep
  have hinit : Accounts pathStr (.initial disk) := trivial
  have hw : Accounts pathStr w := reached_invariant hinit hstep h
  rwa [Accounts, hdone] at hw

/-- A step of another process that makes a regular file or moves a name, or a
step of the reader. -/
def RegularWrite (a : Action) : Prop :=
  ∀ inode node, a = .rewrite inode node → ∃ bytes, node = .regular bytes

def Race.written (w : Race) (inode : Inode) (bytes : List UInt8) : Race :=
  { w with disk := w.disk.rewrite inode (.regular bytes) }

theorem run_read {w : Race} {fileSize : UInt64} {inode : Inode} {buf : List UInt8}
    {event : ReadEvent UInt8} (hr : w.reader = .opened fileSize inode buf)
    (hyields : (w.disk.nodes inode).yields buf.length event = true) (pathStr : Str)
    (as : List Action) :
    run (step pathStr) (.read event::as) w =
      run (step pathStr) as (w.meetRead event (received fileSize inode buf event)) := by
  simp [run, step, hr, hyields]

theorem run_write_read {w : Race} {fileSize : UInt64} {inode : Inode} {buf : List UInt8}
    (hr : w.reader = .opened fileSize inode buf) (chunk : List UInt8) (pathStr : Str)
    (as : List Action) :
    run (step pathStr) (.rewrite inode (.regular (buf++chunk))::.read (.data chunk)::as) w =
      run (step pathStr) as ((w.written inode (buf++chunk)).meetRead (.data chunk)
        (received fileSize inode buf (.data chunk))) := by
  have hyields : ((w.written inode (buf++chunk)).disk.nodes inode).yields buf.length
      (.data chunk) = true := by
    cases chunk <;> simp [Race.written, Disk.rewrite, Node.yields]
  exact run_read (w := w.written inode (buf++chunk)) hr hyields pathStr as

theorem end_realised {w : Race} {fileSize : UInt64} {inode : Inode} {buf : List UInt8}
    (hr : w.reader = .opened fileSize inode buf) (pathStr : Str) :
    ∃ as w', (∀ a ∈ as, RegularWrite a) ∧ run (step pathStr) as w = some w' ∧
      w'.reader = .done (resultOf (some buf)) :=
  ⟨[.rewrite inode (.regular (buf++[])), .read (.data [])],
    (w.written inode (buf++[])).meetRead (.data []) (.done (resultOf (some buf))),
    by simp [RegularWrite], run_write_read hr [] pathStr [], rfl⟩

theorem reads_realised (pathStr : Str) {fileSize : UInt64} {inode : Inode}
    (file : List (ReadEvent UInt8)) {w : Race} {buf : List UInt8}
    (hr : w.reader = .opened fileSize inode buf) :
    ∃ as w', (∀ a ∈ as, RegularWrite a) ∧ run (step pathStr) as w = some w' ∧
      w'.reader = .done (resultOf ((readToEnd file).map fun tail => buf++tail)) := by
  induction file generalizing w buf with
  | nil => simpa [readToEnd] using end_realised hr pathStr
  | cons event file ih =>
    cases event with
    | data chunk =>
      cases chunk with
      | nil => simpa [readToEnd] using end_realised hr pathStr
      | cons b bs =>
        obtain ⟨as, w', has, hrun, hdone⟩ :=
          ih (w := (w.written inode (buf++b::bs)).meetRead (.data (b::bs))
            (.opened fileSize inode (buf++b::bs))) rfl
        refine ⟨.rewrite inode (.regular (buf++b::bs))::.read (.data (b::bs))::as, w',
          by simpa [RegularWrite] using has, ?_, ?_⟩
        · rw [run_write_read hr]
          exact hrun
        · rw [hdone, readToEnd, Option.map_map]
          simp [Function.comp_def]
    | interrupted =>
      obtain ⟨as, w', has, hrun, hdone⟩ :=
        ih (w := w.meetRead .interrupted (.opened fileSize inode buf)) rfl
      refine ⟨.read .interrupted::as, w', by simpa [RegularWrite] using has, ?_, hdone⟩
      rw [run_read hr rfl]
      exact hrun
    | failed =>
      refine ⟨[.read .failed], w.meetRead .failed (.done (resultOf none)), by simp [RegularWrite],
        ?_, rfl⟩
      rw [run_read hr rfl]
      rfl

def Disk.reporting (disk : Disk) (pathStr : Str) : Option UInt64 → Disk
  | none => disk.relink pathStr none
  | some n => (disk.relink pathStr (some 0)).rewrite 0 (.regular (List.replicate n.toNat 0))

theorem reporting_check (disk : Disk) (fs : FileSystem) (pathStr : Str) :
    checkFileSize (disk.reporting pathStr (fs.metadata pathStr)).stat pathStr =
      checkFileSize fs pathStr := by
  have hmeta : (disk.reporting pathStr (fs.metadata pathStr)).stat.metadata pathStr =
      fs.metadata pathStr := by
    cases fs.metadata pathStr <;>
      simp [Disk.reporting, Disk.stat, Disk.relink, Disk.rewrite, Node.reported]
  rw [checkFileSize, hmeta, checkFileSize]

theorem reporting_realised (w : Race) (pathStr : Str) (reported : Option UInt64) :
    ∃ as, (∀ a ∈ as, RegularWrite a) ∧ run (step pathStr) as w =
      some { w with disk := w.disk.reporting pathStr reported } := by
  cases reported with
  | none => exact ⟨[.relink pathStr none], by simp [RegularWrite], rfl⟩
  | some n =>
    refine ⟨[.relink pathStr (some 0), .rewrite 0 (.regular (List.replicate n.toNat 0))], ?_, rfl⟩
    simp [RegularWrite]

theorem open_realised (pathStr : Str) {fileSize : UInt64} {w : Race}
    (hr : w.reader = .checked fileSize) (file : Option (List (ReadEvent UInt8))) :
    ∃ as w', (∀ a ∈ as, RegularWrite a) ∧ run (step pathStr) as w = some w' ∧
      w'.reader = .done (resultOf (file.bind readToEnd)) := by
  cases file with
  | none =>
    refine ⟨[.relink pathStr none, .openPath],
      Race.meetOpen { w with disk := w.disk.relink pathStr none } none (.done (resultOf none)),
      by simp [RegularWrite], ?_, rfl⟩
    simp [run, step, hr, Disk.relink, resultOf]
  | some events =>
    obtain ⟨as, w', has, hrun, hdone⟩ := reads_realised pathStr events
      (w := Race.meetOpen { w with disk := w.disk.relink pathStr (some 0) } (some [])
        (.opened fileSize 0 [])) rfl
    refine ⟨.relink pathStr (some 0)::.openPath::as, w', by simpa [RegularWrite] using has, ?_, ?_⟩
    · rw [← hrun]
      simp [run, step, hr, Disk.relink]
    · simpa using hdone

/-- Nothing but writes to regular files is needed to let a reader meet any
answers at all. -/
theorem race_realises (disk : Disk) (fs : FileSystem) (pathStr : Str) :
    ∃ as w, (∀ a ∈ as, RegularWrite a) ∧ run (step pathStr) as (.initial disk) = some w ∧
      w.reader = .done (readIthmbFile fs pathStr) := by
  obtain ⟨as, has, hrun⟩ := reporting_realised (.initial disk) pathStr (fs.metadata pathStr)
  have hcheck : checkFileSize (disk.reporting pathStr (fs.metadata pathStr)).stat pathStr =
      checkFileSize fs pathStr := reporting_check disk fs pathStr
  have hstat : RegularWrite .stat := fun _ _ h => by cases h
  cases hfs : checkFileSize fs pathStr with
  | error status =>
    rw [hfs] at hcheck
    refine ⟨as++[.stat], Race.meetStat { Race.initial disk with
      disk := disk.reporting pathStr (fs.metadata pathStr) } pathStr (.done (.error status)),
      ?_, ?_, ?_⟩
    · exact List.forall_mem_append.mpr ⟨has, by simpa using hstat⟩
    · rw [run_append, hrun]
      simp [run, step, Race.initial, hcheck]
    · rw [readIthmbFile, hfs]
      rfl
  | ok fileSize =>
    rw [hfs] at hcheck
    obtain ⟨bs, w, hbs, hrest, hdone⟩ := open_realised pathStr
      (w := Race.meetStat { Race.initial disk with
        disk := disk.reporting pathStr (fs.metadata pathStr) } pathStr (.checked fileSize)) rfl
      (fs.openFile pathStr)
    refine ⟨as++.stat::bs, w, ?_, ?_, ?_⟩
    · exact List.forall_mem_append.mpr ⟨has, List.forall_mem_cons.mpr ⟨hstat, hbs⟩⟩
    · rw [run_append, hrun, ← hrest]
      simp [run, step, Race.initial, hcheck]
    · rw [hdone, read_checked hfs]

/-- Writers can bring about just the results of reading from scripted answers,
and regular files suffice for all of them. -/
theorem race_results (disk : Disk) (pathStr : Str) (result : Except IGStatus (List UInt8)) :
    [∃ fs, readIthmbFile fs pathStr = result,
      ∃ w, Reached (step pathStr) (fun _ => RegularWrite) (.initial disk) w ∧
        w.reader = .done result,
      ∃ w, Reached (step pathStr) (fun _ _ => True) (.initial disk) w ∧
        w.reader = .done result].TFAE := by
  tfae_have 1 → 2 := by
    rintro ⟨fs, rfl⟩
    obtain ⟨as, w, has, hrun, hdone⟩ := race_realises disk fs pathStr
    exact ⟨w, ⟨as, hrun, admits_of_forall (fun _ => has) _⟩, hdone⟩
  tfae_have 2 → 3 := by
    rintro ⟨w, ⟨as, hrun, -⟩, hdone⟩
    exact ⟨w, ⟨as, hrun, admits_of_forall (fun _ _ _ => trivial) _⟩, hdone⟩
  tfae_have 3 → 1 := by
    rintro ⟨w, h, hdone⟩
    exact ⟨w.met.fileSystem, race_observed h hdone⟩
  tfae_finish

/-- A result past the limit is the mark of an object that outgrew its check. -/
theorem race_exceeds_iff {pathStr : Str} {ok : Race → Action → Prop} {disk : Disk} {w : Race}
    {bytes : List UInt8} (h : Reached (step pathStr) ok (.initial disk) w)
    (hdone : w.reader = .done (.ok bytes)) :
    maxLength < bytes.length ↔ Outgrows w.met.fileSystem pathStr := by
  have hread := race_observed h hdone
  constructor
  · intro hlong
    by_contra hgrow
    exact absurd ((reads_within_iff _ _).mpr hgrow bytes hread).2 (Nat.not_le.mpr hlong)
  · intro hgrow
    obtain ⟨bytes', hread', hlong⟩ := outgrows_reads hgrow
    cases hread.symm.trans hread'
    exact hlong

/-- Under any name on any disk, writers can get more than the limit read. -/
theorem race_outgrows (disk : Disk) (pathStr : Str) :
    ∃ as w bytes, (∀ a ∈ as, RegularWrite a) ∧ run (step pathStr) as (.initial disk) = some w ∧
      w.reader = .done (.ok bytes) ∧ maxLength < bytes.length := by
  have hgrow := grown_outgrows (Nat.lt_succ_self maxLength) pathStr
  obtain ⟨bytes, hok, hlong⟩ := outgrows_reads hgrow
  obtain ⟨as, w, has, hrun, hdone⟩ := race_realises disk (grownFile (maxLength+1)) pathStr
  exact ⟨as, w, bytes, has, hrun, hdone.trans (congrArg Reader.done hok), hlong⟩

def FindsWithinLimit (w : Race) (a : Action) : Prop :=
  ∀ event fileSize inode buf, a = .read event → w.reader = .opened fileSize inode buf →
    ∃ bytes, w.disk.nodes inode = .regular bytes ∧ bytes.length ≤ maxLength

def Within (w : Race) : Prop :=
  match w.reader with
  | .opened _ _ buf => buf.length ≤ maxLength
  | .done (.ok bytes) => 4 ≤ bytes.length ∧ bytes.length ≤ maxLength
  | _ => True

theorem yields_length {bytes chunk : List UInt8} {offset : ℕ} (hchunk : chunk ≠ [])
    (h : (Node.regular bytes).yields offset (.data chunk) = true) :
    offset+chunk.length ≤ bytes.length := by
  simp only [Node.yields, Bool.and_eq_true, List.isPrefixOf_iff_prefix] at h
  have hle := h.1.length_le
  rw [List.length_drop] at hle
  have hpos := List.length_pos_of_ne_nil hchunk
  omega

theorem read_within {w : Race} {fileSize : UInt64} {inode : Inode} {buf : List UInt8}
    {node : Node} {event : ReadEvent UInt8} (hbuf : buf.length ≤ maxLength)
    (hnode : ∃ bytes, node = .regular bytes ∧ bytes.length ≤ maxLength)
    (hyields : node.yields buf.length event = true) :
    Within (w.meetRead event (received fileSize inode buf event)) := by
  obtain ⟨bytes, rfl, hlen⟩ := hnode
  cases event with
  | data chunk =>
    cases chunk with
    | nil =>
      by_cases hshort : buf.length < 4
      · simp [Within, Race.meetRead, received, resultOf, hshort]
      · simp only [Within, Race.meetRead, received, resultOf, if_neg hshort]
        exact ⟨Nat.not_lt.mp hshort, hbuf⟩
    | cons b bs =>
      have hend := yields_length (List.cons_ne_nil b bs) hyields
      simp only [Within, Race.meetRead, received, List.length_append]
      omega
  | interrupted => exact hbuf
  | failed => trivial

theorem step_within {pathStr : Str} {w w' : Race} {a : Action} (h : Within w)
    (hok : FindsWithinLimit w a) (hstep : step pathStr w a = some w') : Within w' := by
  rcases step_cases hstep with ⟨-, hreader, -⟩ | ⟨status, -, -, rfl⟩ | ⟨fileSize, -, -, rfl⟩ |
    ⟨-, -, rfl⟩ | ⟨fileSize, -, -, rfl⟩ | ⟨fileSize, inode, -, -, rfl⟩ |
    ⟨fileSize, inode, buf, event, rfl, hr, hyields, rfl⟩
  · rwa [Within, hreader]
  · trivial
  · trivial
  · trivial
  · trivial
  · exact Nat.zero_le maxLength
  · rw [Within, hr] at h
    exact read_within h (hok event fileSize inode buf rfl hr) hyields

/-- In every interleaving in which each read finds the object within the limit,
the result is within the limit. The stat call alone is not enough. -/
theorem race_within {pathStr : Str} {disk : Disk} {w : Race} {bytes : List UInt8}
    (h : Reached (step pathStr) FindsWithinLimit (.initial disk) w)
    (hdone : w.reader = .done (.ok bytes)) : 4 ≤ bytes.length ∧ bytes.length ≤ maxLength := by
  have hinit : Within (.initial disk) := trivial
  have hw : Within w := reached_invariant hinit (fun _ _ _ => step_within) h
  rwa [Within, hdone] at hw

theorem finds_regular {w : Race} {a : Action} {fileSize : UInt64} {inode : Inode}
    {buf bytes : List UInt8} (hr : w.reader = .opened fileSize inode buf)
    (hnode : w.disk.nodes inode = .regular bytes) (hlen : bytes.length ≤ maxLength) :
    FindsWithinLimit w a := by
  intro event fileSize' inode' buf' _ hr'
  cases hr.symm.trans hr'
  exact ⟨bytes, hnode, hlen⟩

def readWhileGrowing : List Action :=
  [.stat, .openPath, .read (.data [1,2,3]), .rewrite 0 (.regular [1,2,3,4,5]),
    .read (.data [4,5]), .read (.data [])]

theorem race_within_growing :
    ∃ w, run (step []) readWhileGrowing
        (.initial { names := fun _ => some 0, nodes := fun _ => .regular [1,2,3] }) = some w ∧
      w.reader = .done (.ok [1,2,3,4,5]) ∧ 4 ≤ [1,2,3,4,5].length := by
  obtain ⟨w, hw, hdone⟩ : ∃ w, run (step []) readWhileGrowing
        (.initial { names := fun _ => some 0, nodes := fun _ => .regular [1,2,3] }) = some w ∧
      w.reader = .done (.ok [1,2,3,4,5]) := ⟨_, rfl, rfl⟩
  have hok : Admits (step []) FindsWithinLimit readWhileGrowing
      (.initial { names := fun _ => some 0, nodes := fun _ => .regular [1,2,3] }) :=
    ⟨(fun _ _ _ _ ha => by cases ha), (fun _ _ _ _ ha => by cases ha),
      finds_regular rfl rfl (by decide), (fun _ _ _ _ ha => by cases ha),
      finds_regular rfl rfl (by decide), finds_regular rfl rfl (by decide), trivial⟩
  exact ⟨w, hw, hdone, (race_within ⟨readWhileGrowing, hw, hok⟩ hdone).1⟩

def Undisturbed (_ : Race) : Action → Prop
  | .relink _ _ => False
  | .rewrite _ _ => False
  | _ => True

structure Faithful (disk : Disk) (inode : Inode) (content : List UInt8) (w : Race) : Prop where
  disk_kept : w.disk = disk
  reader : match w.reader with
    | .start => True
    | .checked _ => content.length ≤ maxLength
    | .opened _ inode' buf => inode' = inode ∧ buf <+: content ∧ content.length ≤ maxLength
    | .done (.ok bytes) => bytes = content ∧ 4 ≤ content.length ∧ content.length ≤ maxLength
    | .done (.error _) => True

theorem stat_faithful {disk : Disk} {pathStr : Str} {inode : Inode} {content : List UInt8}
    {fileSize : UInt64} (hname : disk.names pathStr = some inode)
    (hnode : disk.nodes inode = .regular content) (hword : content.length < UInt64.size)
    (hcheck : checkFileSize disk.stat pathStr = .ok fileSize) : content.length ≤ maxLength := by
  obtain ⟨hmeta, hle⟩ := (checkFileSize_ok_iff disk.stat pathStr fileSize).mp hcheck
  have hreported : UInt64.ofNat content.length = fileSize := by
    simpa [Disk.stat, hname, hnode, Node.reported] using hmeta
  rw [← hreported, UInt64.le_iff_toNat_le, UInt64.toNat_ofNat_of_lt' hword] at hle
  exact hle

theorem yields_prefix {now buf chunk : List UInt8} (hbuf : buf <+: now)
    (h : (Node.regular now).yields buf.length (.data chunk) = true) :
    buf++chunk <+: now ∧ (chunk = [] → buf = now) := by
  obtain ⟨rest, rfl⟩ := hbuf
  simp only [Node.yields, List.drop_left, Bool.and_eq_true, List.isPrefixOf_iff_prefix] at h
  refine ⟨(List.prefix_append_right_inj buf).mpr h.1, ?_⟩
  rintro rfl
  simpa using h.2

theorem read_faithful {w : Race} {inode : Inode} {content buf : List UInt8}
    {event : ReadEvent UInt8} (hbuf : buf <+: content) (hlen : content.length ≤ maxLength)
    (hyields : (Node.regular content).yields buf.length event = true) (fileSize : UInt64) :
    Faithful w.disk inode content (w.meetRead event (received fileSize inode buf event)) := by
  refine ⟨rfl, ?_⟩
  cases event with
  | data chunk =>
    obtain ⟨hmore, hend⟩ := yields_prefix hbuf hyields
    cases chunk with
    | nil =>
      obtain rfl := hend rfl
      by_cases hshort : buf.length < 4
      · simp [Race.meetRead, received, resultOf, hshort]
      · simp only [Race.meetRead, received, resultOf, if_neg hshort]
        exact ⟨trivial, Nat.not_lt.mp hshort, hlen⟩
    | cons b bs => exact ⟨rfl, hmore, hlen⟩
  | interrupted => exact ⟨rfl, hbuf, hlen⟩
  | failed => trivial

theorem step_faithful {pathStr : Str} {disk : Disk} {inode : Inode} {content : List UInt8}
    (hname : disk.names pathStr = some inode) (hnode : disk.nodes inode = .regular content)
    (hword : content.length < UInt64.size) {w w' : Race} {a : Action}
    (h : Faithful disk inode content w) (hok : Undisturbed w a)
    (hstep : step pathStr w a = some w') : Faithful disk inode content w' := by
  obtain ⟨rfl, hreader⟩ := h
  rcases step_cases hstep with ⟨hwrite, -⟩ | ⟨status, -, -, rfl⟩ | ⟨fileSize, -, hcheck, rfl⟩ |
    ⟨-, -, rfl⟩ | ⟨fileSize, -, -, rfl⟩ | ⟨fileSize, inode', hr, hname', rfl⟩ |
    ⟨fileSize, inode', buf, event, -, hr, hyields, rfl⟩
  · rcases hwrite with ⟨_, _, rfl⟩ | ⟨_, _, rfl⟩ <;> exact hok.elim
  · exact ⟨rfl, trivial⟩
  · exact ⟨rfl, stat_faithful hname hnode hword hcheck⟩
  · exact ⟨rfl, trivial⟩
  · exact ⟨rfl, trivial⟩
  · rw [hr] at hreader
    cases hname.symm.trans hname'
    exact ⟨rfl, rfl, List.nil_prefix, hreader⟩
  · rw [hr] at hreader
    obtain ⟨rfl, hbuf, hlen⟩ := hreader
    rw [hnode] at hyields
    exact read_faithful hbuf hlen hyields fileSize

/-- A regular file that nobody touches is read as it is, within the limit, or
not at all. -/
theorem race_undisturbed {pathStr : Str} {disk : Disk} {inode : Inode} {content bytes : List UInt8}
    {w : Race} (hname : disk.names pathStr = some inode)
    (hnode : disk.nodes inode = .regular content) (hword : content.length < UInt64.size)
    (h : Reached (step pathStr) Undisturbed (.initial disk) w)
    (hdone : w.reader = .done (.ok bytes)) :
    bytes = content ∧ 4 ≤ content.length ∧ content.length ≤ maxLength := by
  have hinit : Faithful disk inode content (.initial disk) := ⟨rfl, trivial⟩
  have hstep : ∀ s a s', Faithful disk inode content s → Undisturbed s a →
      step pathStr s a = some s' → Faithful disk inode content s' :=
    fun _ _ _ => step_faithful hname hnode hword
  have hw := (reached_invariant hinit hstep h).reader
  rwa [hdone] at hw

theorem stat_passes {disk : Disk} {pathStr : Str} {inode : Inode} {content : List UInt8}
    (hname : disk.names pathStr = some inode) (hnode : disk.nodes inode = .regular content)
    (hmax : content.length ≤ maxLength) :
    checkFileSize disk.stat pathStr = .ok (UInt64.ofNat content.length) := by
  have hword : content.length < UInt64.size := Nat.lt_of_le_of_lt hmax (by decide)
  apply (checkFileSize_ok_iff disk.stat pathStr _).mpr
  constructor
  · simp [Disk.stat, hname, hnode, Node.reported]
  · rw [UInt64.le_iff_toNat_le, UInt64.toNat_ofNat_of_lt' hword]
    exact hmax

theorem undisturbed_reads {pathStr : Str} {disk : Disk} {inode : Inode} {content : List UInt8}
    (hname : disk.names pathStr = some inode) (hnode : disk.nodes inode = .regular content)
    (hmin : 4 ≤ content.length) (hmax : content.length ≤ maxLength) :
    ∃ w, Reached (step pathStr) Undisturbed (.initial disk) w ∧
      w.reader = .done (.ok content) := by
  let n := UInt64.ofNat content.length
  let w₁ := (Race.initial disk).meetStat pathStr (.checked n)
  let w₂ := w₁.meetOpen (some []) (.opened n inode [])
  let w₃ := w₂.meetRead (.data content) (.opened n inode content)
  let w₄ := w₃.meetRead (.data []) (.done (resultOf (some content)))
  have hstat : step pathStr (.initial disk) .stat = some w₁ := by
    simp [step, Race.initial, stat_passes hname hnode hmax, w₁, n]
  have hopen : step pathStr w₁ .openPath = some w₂ := by
    simp [step, w₁, w₂, Race.meetStat, Race.initial, hname]
  have hread : step pathStr w₂ (.read (.data content)) = some w₃ := by
    have hyields : (w₂.disk.nodes inode).yields 0 (.data content) = true := by
      have hnode₂ : w₂.disk.nodes inode = .regular content := hnode
      have hne : content ≠ [] := List.ne_nil_of_length_pos (Nat.lt_of_lt_of_le (by decide) hmin)
      simp [hnode₂, Node.yields, hne]
    cases content with
    | nil => exact absurd hmin (by decide)
    | cons b bs => exact if_pos hyields
  have hend : step pathStr w₃ (.read (.data [])) = some w₄ := by
    have hyields : (w₃.disk.nodes inode).yields content.length (.data []) = true := by
      have hnode₃ : w₃.disk.nodes inode = .regular content := hnode
      simp [hnode₃, Node.yields]
    exact if_pos hyields
  refine ⟨w₄, ⟨[.stat, .openPath, .read (.data content), .read (.data [])], ?_, ?_⟩, ?_⟩
  · simp only [run, hstat, hopen, hread, hend, Option.bind_some]
  · simp only [Admits, hstat, hopen, hread, hend]
    exact ⟨trivial, trivial, trivial, trivial, trivial⟩
  · show Reader.done (resultOf (some content)) = _
    rw [resultOf, if_neg (Nat.not_lt.mpr hmin)]

/-- All that a reader that is not disturbed can make of a regular file. -/
theorem undisturbed_result_iff {disk : Disk} {pathStr : Str} {inode : Inode}
    {content : List UInt8} (hname : disk.names pathStr = some inode)
    (hnode : disk.nodes inode = .regular content) (hword : content.length < UInt64.size)
    (bytes : List UInt8) :
    (∃ w, Reached (step pathStr) Undisturbed (.initial disk) w ∧ w.reader = .done (.ok bytes)) ↔
      bytes = content ∧ 4 ≤ content.length ∧ content.length ≤ maxLength := by
  constructor
  · rintro ⟨w, h, hdone⟩
    exact race_undisturbed hname hnode hword h hdone
  · rintro ⟨rfl, hmin, hmax⟩
    exact undisturbed_reads hname hnode hmin hmax

theorem undisturbed_result_four :
    ∃ w, Reached (step []) Undisturbed
        (.initial { names := fun _ => some 0, nodes := fun _ => .regular [1,2,3,4] }) w ∧
      w.reader = .done (.ok [1,2,3,4]) :=
  (undisturbed_result_iff rfl rfl (by decide) [1,2,3,4]).mpr ⟨rfl, by decide, by decide⟩

end IthmbPlugin.FileRace
