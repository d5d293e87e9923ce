import IthmbPlugin.FileRace
import IthmbPlugin.Metadata
import IthmbPlugin.Decode
import IthmbPlugin.Library.Clients

/-!
# Calls that read one path at once

Loading metadata reads the first four bytes, decoding reads the whole file, and
any number of both may be at work on one path while others write. Without a
promise about the writers nothing ties what one call answers to what another
does. When they only append, every answer is that of one still file.
-/

set_option autoImplicit false

namespace IthmbPlugin.Readers
open IthmbPlugin.Types IthmbPlugin.Strings IthmbPlugin.ByteStream IthmbPlugin.FileIo
open IthmbPlugin.FileLimit IthmbPlugin.Metadata IthmbPlugin.Decode IthmbPlugin.Registry
open IthmbPlugin.Allocator IthmbPlugin.Runs IthmbPlugin.Clients
open IthmbPlugin.FileRace (Inode Node Disk Met Reader Race)

inductive PrefixReader where
  | start
  | checked (fileSize : UInt64)
  | opened (fileSize : UInt64) (inode : Inode) (buf : List UInt8)
  | done (result : Except IGStatus (List UInt8 × UInt64))

/-- A call and the answers it has met. -/
inductive Call where
  | first (reader : PrefixReader) (met : Met)
  | whole (reader : Reader) (met : Met)

inductive CallId where
  | metadata (n : ℕ)
  | decode (n : ℕ)
  deriving DecidableEq, Repr

def unasked : Met := { reported := none, file := none }

def Call.initial : CallId → Call
  | .metadata _ => .first .start unasked
  | .decode _ => .whole .start unasked

inductive Write where
  | relink (name : Str) (inode : Option Inode)
  | rewrite (inode : Inode) (node : Node)

def Write.apply (disk : Disk) : Write → Disk
  | .relink name inode => disk.relink name inode
  | .rewrite inode node => disk.rewrite inode node

inductive Move where
  | stat
  | openPath
  | fails
  | read (event : ReadEvent UInt8)

def fits (buf : List UInt8) : ReadEvent UInt8 → Bool
  | .data chunk => buf.length+chunk.length ≤ 4
  | .interrupted => true
  | .failed => true

def received (fileSize : UInt64) (inode : Inode) (buf : List UInt8) :
    ReadEvent UInt8 → PrefixReader
  | .data [] => .done (.error .decodeFailed)
  | .data (b::bs) =>
    if (buf++b::bs).length < 4 then .opened fileSize inode (buf++b::bs)
    else .done (.ok (buf++b::bs,fileSize))
  | .interrupted => .opened fileSize inode buf
  | .failed => .done (.error .decodeFailed)

def firstStep (pathStr : Str) (disk : Disk) (reader : PrefixReader) (met : Met) :
    Move → Option Call
  | .stat =>
    match reader with
    | .start =>
      match checkFileSize disk.stat pathStr with
      | .error status =>
        some (.first (.done (.error status)) ⟨disk.stat.metadata pathStr, none⟩)
      | .ok fileSize => some (.first (.checked fileSize) ⟨disk.stat.metadata pathStr, none⟩)
    | _ => none
  | .openPath =>
    match reader with
    | .checked fileSize =>
      match disk.names pathStr with
      | none => some (.first (.done (.error .ioError)) { met with file := none })
      | some inode => some (.first (.opened fileSize inode []) { met with file := some [] })
    | _ => none
  | .fails =>
    match reader with
    | .start => some (.first (.done (.error .ioError)) unasked)
    | .checked _ => some (.first (.done (.error .ioError)) { met with file := none })
    | _ => none
  | .read event =>
    match reader with
    | .opened fileSize inode buf =>
      if (disk.nodes inode).yields buf.length event && fits buf event then
        some (.first (received fileSize inode buf event)
          { met with file := met.file.map fun events => events++[event] }) else none
    | _ => none

def Move.action : Move → FileRace.Action
  | .stat => .stat
  | .openPath => .openPath
  | .fails => .fails
  | .read event => .read event

def wholeStep (pathStr : Str) (disk : Disk) (reader : Reader) (met : Met) (a : Move) :
    Option Call :=
  (FileRace.step pathStr ⟨disk, reader, met⟩ a.action).map fun w => .whole w.reader w.met

def Call.step (pathStr : Str) (disk : Disk) : Call → Move → Option Call
  | .first reader met => firstStep pathStr disk reader met
  | .whole reader met => wholeStep pathStr disk reader met

abbrev Calls := Shared CallId Disk Call

abbrev Event := Clients.Event CallId Write Move

def step (pathStr : Str) : Calls → Event → Option Calls :=
  Clients.step Write.apply (Call.step pathStr)

def loaded (disk : Disk) : Calls := ⟨disk, Call.initial⟩

def Call.met : Call → Met
  | .first _ met => met
  | .whole _ met => met

def Call.head : Call → Option (Except IGStatus (List UInt8 × UInt64))
  | .first (.done result) _ => some result
  | _ => none

def Call.file : Call → Option (Except IGStatus (List UInt8))
  | .whole (.done result) _ => some result
  | _ => none

theorem Call.head_eq_some {c : Call} {result : Except IGStatus (List UInt8 × UInt64)} :
    c.head = some result ↔ ∃ met, c = .first (.done result) met := by
  constructor
  · intro h
    unfold Call.head at h
    split at h <;> cases h
    exact ⟨_, rfl⟩
  · rintro ⟨met, rfl⟩
    rfl

theorem Call.file_eq_some {c : Call} {result : Except IGStatus (List UInt8)} :
    c.file = some result ↔ ∃ met, c = .whole (.done result) met := by
  constructor
  · intro h
    unfold Call.file at h
    split at h <;> cases h
    exact ⟨_, rfl⟩
  · rintro ⟨met, rfl⟩
    rfl

theorem firstStep_cases {pathStr : Str} {disk : Disk} {reader : PrefixReader} {met : Met}
    {a : Move} {c : Call} (h : firstStep pathStr disk reader met a = some c) :
    (∃ status, reader = .start ∧ checkFileSize disk.stat pathStr = .error status ∧
      c = .first (.done (.error status)) ⟨disk.stat.metadata pathStr, none⟩) ∨
    (∃ fileSize, reader = .start ∧ checkFileSize disk.stat pathStr = .ok fileSize ∧
      c = .first (.checked fileSize) ⟨disk.stat.metadata pathStr, none⟩) ∨
    (reader = .start ∧ c = .first (.done (.error .ioError)) unasked) ∨
    (∃ fileSize, reader = .checked fileSize ∧ (disk.names pathStr = none ∨ a = .fails) ∧
      c = .first (.done (.error .ioError)) { met with file := none }) ∨
    (∃ fileSize inode, reader = .checked fileSize ∧ disk.names pathStr = some inode ∧
      c = .first (.opened fileSize inode []) { met with file := some [] }) ∨
    (∃ fileSize inode buf event, a = .read event ∧ reader = .opened fileSize inode buf ∧
      (disk.nodes inode).yields buf.length event = true ∧ fits buf event = true ∧
      c = .first (received fileSize inode buf event)
        { met with file := met.file.map fun events => events++[event] }) := by
  cases a with
  | stat =>
    simp only [firstStep] at h
    split at h
    · split at h
      · next status hcheck =>
        cases h
        exact .inl ⟨status, rfl, hcheck, rfl⟩
      · next fileSize hcheck =>
        cases h
        exact .inr (.inl ⟨fileSize, rfl, hcheck, rfl⟩)
    · cases h
  | openPath =>
    simp only [firstStep] at h
    split at h
    · next fileSize =>
      split at h
      · next hname =>
        cases h
        exact .inr (.inr (.inr (.inl ⟨fileSize, rfl, .inl hname, rfl⟩)))
      · next inode hname =>
        cases h
        exact .inr (.inr (.inr (.inr (.inl ⟨fileSize, inode, rfl, hname, rfl⟩))))
    · cases h
  | fails =>
    simp only [firstStep] at h
    split at h
    · cases h
      exact .inr (.inr (.inl ⟨rfl, rfl⟩))
    · next fileSize =>
      cases h
      exact .inr (.inr (.inr (.inl ⟨fileSize, rfl, .inr rfl, rfl⟩)))
    · cases h
  | read event =>
    simp only [firstStep] at h
    split at h
    · next fileSize inode buf =>
      split_ifs at h with hread
      cases h
      obtain ⟨hyields, hfits⟩ := Bool.and_eq_true_iff.mp hread
      exact .inr (.inr (.inr (.inr (.inr
        ⟨fileSize, inode, buf, event, rfl, rfl, hyields, hfits, rfl⟩))))
    · cases h

theorem wholeStep_cases {pathStr : Str} {disk : Disk} {reader : Reader} {met : Met} {a : Move}
    {c : Call} (h : wholeStep pathStr disk reader met a = some c) :
    ∃ reader' met', c = .whole reader' met' ∧
      FileRace.step pathStr ⟨disk, reader, met⟩ a.action = some ⟨disk, reader', met'⟩ := by
  obtain ⟨w, hw, rfl⟩ := Option.map_eq_some_iff.mp h
  have hdisk : w.disk = disk := by
    rcases FileRace.step_cases hw with ⟨hwrite, -⟩ | ⟨_, -, -, rfl⟩ | ⟨_, -, -, rfl⟩ |
      ⟨-, -, rfl⟩ | ⟨_, -, -, rfl⟩ | ⟨_, _, -, -, rfl⟩ | ⟨_, _, _, _, -, -, -, rfl⟩
    · cases a <;> simp [Move.action] at hwrite
    all_goals rfl
  subst hdisk
  exact ⟨w.reader, w.met, rfl, hw⟩

def prefixOf (fileSize : UInt64) : Option (List (ReadEvent UInt8)) →
    Except IGStatus (List UInt8 × UInt64)
  | none => .error .ioError
  | some file =>
    if 4 ≤ (delivered file).length then .ok ((delivered file).take 4,fileSize)
    else .error .decodeFailed

theorem prefix_checked {fs : FileSystem} {pathStr : Str} {fileSize : UInt64}
    (h : checkFileSize fs pathStr = .ok fileSize) :
    readIthmbPrefix fs pathStr = prefixOf fileSize (fs.openFile pathStr) := by
  simp only [readIthmbPrefix, h]
  cases fs.openFile pathStr with
  | none => rfl
  | some file =>
    by_cases hlen : 4 ≤ (delivered file).length <;> simp [prefixOf, readExact_eq, hlen]

def Accounts (pathStr : Str) (met : Met) : PrefixReader → Prop
  | .start => True
  | .checked fileSize => checkFileSize met.fileSystem pathStr = .ok fileSize
  | .opened fileSize _ buf => checkFileSize met.fileSystem pathStr = .ok fileSize ∧
    buf.length < 4 ∧ ∃ events, met.file = some events ∧ Continues events ∧ delivered events = buf
  | .done result => readIthmbPrefix met.fileSystem pathStr = result

theorem received_accounts {pathStr : Str} {met : Met} {fileSize : UInt64}
    {events : List (ReadEvent UInt8)} {event : ReadEvent UInt8}
    (hcheck : checkFileSize met.fileSystem pathStr = .ok fileSize)
    (hshort : (delivered events).length < 4) (hevents : Continues events)
    (hfits : fits (delivered events) event = true) (inode : Inode) :
    Accounts pathStr { met with file := some (events++[event]) }
      (received fileSize inode (delivered events) event) := by
  have hread : readIthmbPrefix { met with file := some (events++[event]) : Met }.fileSystem
      pathStr = prefixOf fileSize (some (events++[event])) := prefix_checked hcheck
  have hdelivered := delivered_append hevents [event]
  cases event with
  | data chunk =>
    cases chunk with
    | nil =>
      rw [received, Accounts, hread, prefixOf, hdelivered]
      simp [delivered, Nat.not_le.mpr hshort]
    | cons b bs =>
      have hbuf : delivered (events++[.data (b::bs)]) = delivered events++b::bs := by
        simpa [delivered] using hdelivered
      rw [received]
      split_ifs with hmore
      · exact ⟨hcheck, hmore, _, rfl, hevents.append (by simp [Continues]), hbuf⟩
      · have hfull : (delivered events++b::bs).length = 4 := by
          have hle : (delivered events).length+(b::bs).length ≤ 4 := by simpa [fits] using hfits
          rw [List.length_append] at hmore ⊢
          omega
        rw [Accounts, hread, prefixOf, hbuf, if_pos hfull.ge, List.take_of_length_le hfull.le]
  | interrupted =>
    refine ⟨hcheck, hshort, _, rfl, hevents.append (by simp [Continues]), ?_⟩
    rw [hdelivered]
    simp [delivered]
  | failed =>
    rw [received, Accounts, hread, prefixOf, hdelivered]
    simp [delivered, Nat.not_le.mpr hshort]

/-- The answers of a call account for it, whoever else reads. -/
def Observed (pathStr : Str) (disk now : Disk) : CallId → Call → Prop
  | _, .first reader met => Accounts pathStr met reader
  | _, .whole reader met =>
    Reached (FileRace.step pathStr) (fun _ _ => True) (.initial disk) ⟨now, reader, met⟩

theorem firstStep_observed {pathStr : Str} {disk : Disk} {reader : PrefixReader} {met : Met}
    {a : Move} {c : Call} (h : Accounts pathStr met reader)
    (hstep : firstStep pathStr disk reader met a = some c) :
    ∃ reader' met', c = .first reader' met' ∧ Accounts pathStr met' reader' := by
  rcases firstStep_cases hstep with ⟨status, -, hcheck, rfl⟩ | ⟨fileSize, -, hcheck, rfl⟩ |
    ⟨-, rfl⟩ | ⟨fileSize, rfl, -, rfl⟩ | ⟨fileSize, inode, rfl, -, rfl⟩ |
    ⟨fileSize, inode, buf, event, -, rfl, -, hfits, rfl⟩
  · refine ⟨_, _, rfl, ?_⟩
    have hcheck' : checkFileSize (Met.fileSystem ⟨disk.stat.metadata pathStr, none⟩) pathStr =
        .error status := hcheck
    rw [Accounts, readIthmbPrefix, hcheck']
  · exact ⟨_, _, rfl, hcheck⟩
  · exact ⟨_, _, rfl, rfl⟩
  · exact ⟨_, _, rfl, prefix_checked h⟩
  · exact ⟨_, _, rfl, h, by simp, [], rfl, by simp [Continues], rfl⟩
  · obtain ⟨hcheck, hshort, events, hfile, hevents, rfl⟩ := h
    refine ⟨_, _, rfl, ?_⟩
    rw [hfile, Option.map_some]
    exact received_accounts hcheck hshort hevents hfits inode

/-- In every interleaving of any number of calls, the result of each is that of
reading the answers it met itself. -/
theorem calls_observed {pathStr : Str} {ok : Calls → Event → Prop} {disk : Disk} {v : Calls}
    (h : Reached (step pathStr) ok (loaded disk) v) (i : CallId) :
    (∀ result, (v.clients i).head = some result →
      readIthmbPrefix (v.clients i).met.fileSystem pathStr = result) ∧
    ∀ result, (v.clients i).file = some result →
      readIthmbFile (v.clients i).met.fileSystem pathStr = result := by
  have hinit : Keeps (fun _ => True) (Observed pathStr disk) (loaded disk) := by
    refine ⟨trivial, fun i => ?_⟩
    cases i with
    | metadata n => trivial
    | decode n => exact Reached.start (Race.initial disk)
  have hkeeps : Keeps (fun _ => True) (Observed pathStr disk) v := by
    refine reached_keeps hinit ?_ ?_ h
    · refine fun s b _ _ => ⟨trivial, fun i c hc => ?_⟩
      cases c with
      | first reader met => exact hc
      | whole reader met =>
        cases b with
        | relink name inode => exact Reached.next (a := .relink name inode) hc trivial rfl
        | rewrite inode node => exact Reached.next (a := .rewrite inode node) hc trivial rfl
    · intro s i a c _ _ hc hact
      cases hi : s.clients i with
      | first reader met =>
        rw [hi] at hc hact
        obtain ⟨reader', met', rfl, hacc⟩ := firstStep_observed hc hact
        exact hacc
      | whole reader met =>
        rw [hi] at hc hact
        obtain ⟨reader', met', rfl, hread⟩ := wholeStep_cases hact
        exact Reached.next hc trivial hread
  have hcall := hkeeps.2 i
  constructor
  · intro result hresult
    obtain ⟨met, hi⟩ := Call.head_eq_some.mp hresult
    rw [hi] at hcall ⊢
    exact hcall
  · intro result hresult
    obtain ⟨met, hi⟩ := Call.file_eq_some.mp hresult
    rw [hi] at hcall ⊢
    exact FileRace.race_observed hcall rfl

def PrefixResult : Except IGStatus (List UInt8 × UInt64) → Prop
  | .error status => status = .ioError ∨ status = .decodeFailed
  | .ok (buf,fileSize) => buf.length = 4 ∧ fileSize ≤ maxFileSizeBytes

def FileResult : Except IGStatus (List UInt8) → Prop
  | .error status => status = .ioError ∨ status = .decodeFailed
  | .ok bytes => 4 ≤ bytes.length

theorem prefix_result (fs : FileSystem) (pathStr : Str) :
    PrefixResult (readIthmbPrefix fs pathStr) := by
  cases hcheck : checkFileSize fs pathStr with
  | error status =>
    have hstatus : readIthmbFile fs pathStr = .error status := by rw [readIthmbFile, hcheck]
    rw [readIthmbPrefix, hcheck]
    exact readIthmbFile_error hstatus
  | ok fileSize =>
    rw [prefix_checked hcheck]
    cases fs.openFile pathStr with
    | none => exact .inl rfl
    | some file =>
      rw [prefixOf]
      split_ifs with hlen
      · exact ⟨List.length_take_of_le hlen, ((checkFileSize_ok_iff _ _ _).mp hcheck).2⟩
      · exact .inr rfl

theorem file_result (fs : FileSystem) (pathStr : Str) : FileResult (readIthmbFile fs pathStr) := by
  cases hread : readIthmbFile fs pathStr with
  | error status => exact readIthmbFile_error hread
  | ok bytes => exact ((readIthmbFile_ok_iff fs pathStr bytes).mp hread).2.2

theorem file_result_read {result : Except IGStatus (List UInt8)} (h : FileResult result)
    (pathStr : Str) : ∃ fs, readIthmbFile fs pathStr = result := by
  cases result with
  | error status =>
    rcases h with rfl | rfl
    · exact ⟨⟨fun _ => none, fun _ => none⟩, rfl⟩
    · exact ⟨⟨fun _ => some 0, fun _ => some []⟩, rfl⟩
  | ok bytes =>
    refine ⟨⟨fun _ => some 0, fun _ => some [.data bytes]⟩, ?_⟩
    refine (readIthmbFile_ok_iff _ _ _).mpr ⟨⟨0, rfl⟩, ?_, h⟩
    cases bytes with
    | nil => rfl
    | cons b bs => simp [fsRead, readToEnd]

def RegularWrite : Event → Prop
  | .outside (.rewrite _ node) => ∃ bytes, node = .regular bytes
  | _ => True

def ofRace (i : CallId) : FileRace.Action → Event
  | .relink name inode => .outside (.relink name inode)
  | .rewrite inode node => .outside (.rewrite inode node)
  | .stat => .client i .stat
  | .openPath => .client i .openPath
  | .fails => .client i .fails
  | .read event => .client i (.read event)

theorem ofRace_regular {a : FileRace.Action} (h : FileRace.RegularWrite a) (i : CallId) :
    RegularWrite (ofRace i a) := by
  cases a with
  | rewrite inode node => exact h inode node rfl
  | _ => trivial

theorem run_move {pathStr : Str} {v : Calls} {i : CallId} {reader : Reader} {met : Met} {w : Race}
    {a : Move} (hi : v.clients i = .whole reader met)
    (h : FileRace.step pathStr ⟨v.world, reader, met⟩ a.action = some w) (es : List Event) :
    w.disk = v.world ∧ run (step pathStr) (.client i a::es) v =
      run (step pathStr) es (v.learns i (.whole w.reader w.met)) := by
  have hact : Call.step pathStr v.world (v.clients i) a = some (.whole w.reader w.met) := by
    rw [hi, Call.step, wholeStep, h, Option.map_some]
  refine ⟨?_, run_client hact es⟩
  rw [hi] at hact
  obtain ⟨reader', met', -, hstep⟩ := wholeStep_cases hact
  cases h.symm.trans hstep
  rfl

theorem run_ofRace (pathStr : Str) {i : CallId} (as : List FileRace.Action) {v : Calls}
    {reader : Reader} {met : Met} {w : Race} (hi : v.clients i = .whole reader met)
    (h : run (FileRace.step pathStr) as ⟨v.world, reader, met⟩ = some w) :
    run (step pathStr) (as.map (ofRace i)) v =
      some (Shared.learns ⟨w.disk, v.clients⟩ i (.whole w.reader w.met)) := by
  induction as generalizing v reader met with
  | nil =>
    cases h
    simp [run, Shared.learns, ← hi]
  | cons a as ih =>
    obtain ⟨w', hw', hrest⟩ := run_cons h
    have hmove : ∀ b : Move, a = b.action → run (step pathStr)
        (.client i b::as.map (ofRace i)) v =
          some (Shared.learns ⟨w.disk, v.clients⟩ i (.whole w.reader w.met)) := by
      rintro b rfl
      obtain ⟨hdisk, hrun⟩ := run_move hi hw' (as.map (ofRace i))
      rw [hrun, ih (v := v.learns i (.whole w'.reader w'.met)) (learns_self _ _ _)
        (by rwa [learns_world, ← hdisk])]
      simp [Shared.learns]
    cases a with
    | relink name inode =>
      cases hw'
      exact ih (v := ⟨v.world.relink name inode, v.clients⟩) hi hrest
    | rewrite inode node =>
      cases hw'
      exact ih (v := ⟨v.world.rewrite inode node, v.clients⟩) hi hrest
    | stat => exact hmove .stat rfl
    | openPath => exact hmove .openPath rfl
    | fails => exact hmove .fails rfl
    | read event => exact hmove (.read event) rfl

/-- Between the steps of a metadata call others can give the path any length
for its stat call, and any content for its read. -/
theorem first_realised (pathStr : Str) {v : Calls} {i : CallId} {met : Met} {n : UInt64}
    {buf : List UInt8} (hi : v.clients i = .first .start met) (hn : n ≤ maxFileSizeBytes)
    (hbuf : buf.length ≤ 4) :
    ∃ es disk met', (∀ e ∈ es, RegularWrite e) ∧ run (step pathStr) es v =
      some (Shared.learns ⟨disk, v.clients⟩ i (.first (received n 0 [] (.data buf)) met')) := by
  let told := v.world.reporting pathStr (some n)
  let read := told.rewrite 0 (.regular buf)
  have hcheck : checkFileSize told.stat pathStr = .ok n :=
    (FileRace.reporting_check v.world ⟨fun _ => some n, fun _ => none⟩ pathStr).trans
      ((checkFileSize_ok_iff _ _ _).mpr ⟨rfl, hn⟩)
  have hname : read.names pathStr = some 0 := by
    simp [read, told, FileRace.Disk.reporting, FileRace.Disk.relink, FileRace.Disk.rewrite]
  have hyields : ((read.nodes 0).yields 0 (.data buf) && fits [] (.data buf)) = true := by
    cases buf <;> simp_all [read, FileRace.Disk.rewrite, FileRace.Node.yields, fits]
  let met' : Met := ⟨told.stat.metadata pathStr, none⟩
  have hstat : Call.step pathStr told (v.clients i) .stat = some (.first (.checked n) met') := by
    rw [hi, Call.step, firstStep, hcheck]
  have hopen : Call.step pathStr read (.first (.checked n) met') .openPath =
      some (.first (.opened n 0 []) { met' with file := some [] }) := by
    rw [Call.step, firstStep, hname]
  have hread : Call.step pathStr read (.first (.opened n 0 []) { met' with file := some [] })
      (.read (.data buf)) = some (.first (received n 0 [] (.data buf))
        { met' with file := some [.data buf] }) := if_pos hyields
  let close : List Event := [.client i .openPath, .client i (.read (.data buf))]
  refine ⟨.outside (.relink pathStr (some 0))::
      .outside (.rewrite 0 (.regular (List.replicate n.toNat 0)))::.client i .stat::
      .outside (.rewrite 0 (.regular buf))::close,
    read, { met' with file := some [.data buf] }, by simp [RegularWrite, close], ?_⟩
  calc run (step pathStr) _ v
      = run (step pathStr) (.client i .stat::.outside (.rewrite 0 (.regular buf))::close)
          ⟨told, v.clients⟩ := rfl
    _ = run (step pathStr) close (Shared.learns ⟨read, v.clients⟩ i (.first (.checked n) met')) :=
        run_client (s := ⟨told, v.clients⟩) hstat _
    _ = run (step pathStr) [.client i (.read (.data buf))]
          (Shared.learns ⟨read, v.clients⟩ i
            (.first (.opened n 0 []) { met' with file := some [] })) :=
        run_learned (s := ⟨read, v.clients⟩) hopen _
    _ = _ := run_learned (s := ⟨read, v.clients⟩) hread []

theorem head_realised (pathStr : Str) {v : Calls} {i : CallId} {met : Met}
    {result : Except IGStatus (List UInt8 × UInt64)} (hi : v.clients i = .first .start met)
    (h : PrefixResult result) :
    ∃ es disk met', (∀ e ∈ es, RegularWrite e) ∧ run (step pathStr) es v =
      some (Shared.learns ⟨disk, v.clients⟩ i (.first (.done result) met')) := by
  cases result with
  | error status =>
    rcases h with rfl | rfl
    · let gone := v.world.relink pathStr none
      have hcheck : checkFileSize gone.stat pathStr = .error .ioError := by
        simp [checkFileSize, gone, FileRace.Disk.stat, FileRace.Disk.relink]
      have hstat : Call.step pathStr gone (v.clients i) .stat =
          some (.first (.done (.error .ioError)) ⟨gone.stat.metadata pathStr, none⟩) := by
        rw [hi, Call.step, firstStep, hcheck]
      exact ⟨[.outside (.relink pathStr none), .client i .stat], gone, _, by simp [RegularWrite],
        run_client (s := ⟨gone, v.clients⟩) hstat []⟩
    · have hempty : received 0 0 [] (.data []) = .done (.error .decodeFailed) := rfl
      rw [← hempty]
      exact first_realised pathStr hi (by decide) (by decide)
  | ok read =>
    obtain ⟨buf, n⟩ := read
    obtain ⟨hlen, hn⟩ := h
    have hfull : received n 0 [] (.data buf) = .done (.ok (buf,n)) := by
      cases buf with
      | nil => cases hlen
      | cons b bs => exact if_neg hlen.not_lt
    rw [← hfull]
    exact first_realised pathStr hi hn hlen.le

/-- Nothing ties a metadata call to a decode call on the same path: every prefix
and size the one can answer goes with every content the other can read, and
regular files suffice for all of it. -/
theorem answers_unrelated (disk : Disk) (pathStr : Str) (m n : ℕ)
    (head : Except IGStatus (List UInt8 × UInt64)) (file : Except IGStatus (List UInt8)) :
    [PrefixResult head ∧ FileResult file,
      ∃ v, Reached (step pathStr) (fun _ => RegularWrite) (loaded disk) v ∧
        (v.clients (.metadata m)).head = some head ∧ (v.clients (.decode n)).file = some file,
      ∃ v, Reached (step pathStr) (fun _ _ => True) (loaded disk) v ∧
        (v.clients (.metadata m)).head = some head ∧
        (v.clients (.decode n)).file = some file].TFAE := by
  tfae_have 1 → 2 := by
    rintro ⟨hhead, hfile⟩
    obtain ⟨es, told, met, hes, hfirst⟩ :=
      head_realised pathStr (v := loaded disk) (i := .metadata m) rfl hhead
    obtain ⟨fs, hfs⟩ := file_result_read hfile pathStr
    obtain ⟨as, w, has, hrace, hdone⟩ := FileRace.race_realises told fs pathStr
    have hother : (CallId.metadata m) ≠ .decode n := by simp
    let described : Calls :=
      Shared.learns ⟨told, Call.initial⟩ (.metadata m) (.first (.done head) met)
    have halone : run (FileRace.step pathStr) as ⟨described.world, .start, unasked⟩ = some w :=
      hrace
    have hwhole := run_ofRace pathStr as (v := described) (learns_other _ hother.symm _) halone
    have hrun : run (step pathStr) (es++as.map (ofRace (.decode n))) (loaded disk) =
        some (Shared.learns ⟨w.disk, described.clients⟩ (.decode n) (.whole w.reader w.met)) := by
      rw [run_append, hfirst]
      exact hwhole
    have hregular : ∀ e ∈ es++as.map (ofRace (.decode n)), RegularWrite e :=
      List.forall_mem_append.mpr ⟨hes,
        List.forall_mem_map.mpr fun a ha => ofRace_regular (has a ha) _⟩
    refine ⟨_, ⟨_, hrun, admits_of_forall (fun _ => hregular) _⟩, ?_, ?_⟩
    · rw [learns_other _ hother, learns_self]
      rfl
    · rw [learns_self, hdone, hfs]
      rfl
  tfae_have 2 → 3 := by
    rintro ⟨v, ⟨es, hrun, -⟩, hresults⟩
    exact ⟨v, ⟨es, hrun, admits_of_forall (fun _ _ _ => trivial) _⟩, hresults⟩
  tfae_have 3 → 1 := by
    rintro ⟨v, h, hhead, hfile⟩
    rw [← (calls_observed h (.metadata m)).1 head hhead,
      ← (calls_observed h (.decode n)).2 file hfile]
    exact ⟨prefix_result _ _, file_result _ _⟩
  tfae_finish

structure Grown (pathStr : Str) (inode : Inode) (content now : List UInt8) (disk : Disk) :
    Prop where
  name : disk.names pathStr = some inode
  node : disk.nodes inode = .regular now
  kept : content <+: now
  word : now.length < UInt64.size

/-- Others leave the name alone, and append to the file or write elsewhere. -/
def Appends (pathStr : Str) (inode : Inode) (v : Calls) : Event → Prop
  | .outside (.relink name _) => name ≠ pathStr
  | .outside (.rewrite inode' node) => inode' = inode → ∃ now more,
      v.world.nodes inode = .regular now ∧ node = .regular (now++more) ∧
        (now++more).length < UInt64.size
  | .client _ _ => True

def Sized (content now : List UInt8) (n : UInt64) : Prop :=
  n ≤ maxFileSizeBytes ∧ content.length ≤ n.toNat ∧ n.toNat ≤ now.length

/-- A call is refused for the length of the file, because its stat or open call
failed, or with a status of its own for a read that failed. -/
def Refusal (failure : IGStatus) (content now : List UInt8) (met : Met) (status : IGStatus) :
    Prop :=
  status = .decodeFailed ∧ (content.length < 4 ∨ maxLength < now.length) ∨
    status = .ioError ∧ met.file = none ∨
    status = failure ∧ ∃ events, met.file = some events ∧ .failed ∈ events

def Sees (inode : Inode) (content now : List UInt8) : Call → Prop
  | .first (.checked n) _ => Sized content now n
  | .first (.opened n inode' buf) met =>
    Sized content now n ∧ inode' = inode ∧ buf <+: now ∧ buf.length < 4 ∧ met.file.isSome
  | .first (.done (.ok (buf,n))) _ => Sized content now n ∧ buf <+: now ∧ buf.length = 4
  | .first (.done (.error status)) met => Refusal .decodeFailed content now met status
  | .whole (.opened _ inode' buf) met => inode' = inode ∧ buf <+: now ∧ met.file.isSome
  | .whole (.done (.ok bytes)) _ => content <+: bytes ∧ bytes <+: now ∧ 4 ≤ bytes.length
  | .whole (.done (.error status)) met => Refusal .ioError content now met status
  | _ => True

section Growing
variable {pathStr : Str} {inode : Inode} {content now : List UInt8} {disk : Disk}

theorem Grown.stat (h : Grown pathStr inode content now disk) :
    disk.stat.metadata pathStr = some (UInt64.ofNat now.length) := by
  simp [FileRace.Disk.stat, h.name, h.node, FileRace.Node.reported]

theorem Grown.checked (h : Grown pathStr inode content now disk) {n : UInt64}
    (hcheck : checkFileSize disk.stat pathStr = .ok n) : Sized content now n := by
  obtain ⟨hmeta, hn⟩ := (checkFileSize_ok_iff _ _ _).mp hcheck
  cases h.stat.symm.trans hmeta
  refine ⟨hn, ?_⟩
  rw [UInt64.toNat_ofNat_of_lt' h.word]
  exact ⟨h.kept.length_le, le_rfl⟩

theorem Grown.refused (h : Grown pathStr inode content now disk) {status : IGStatus}
    (hcheck : checkFileSize disk.stat pathStr = .error status) :
    status = .decodeFailed ∧ maxLength < now.length := by
  simp only [checkFileSize, h.stat] at hcheck
  split_ifs at hcheck with hlarge
  cases hcheck
  refine ⟨rfl, ?_⟩
  rwa [gt_iff_lt, UInt64.lt_iff_toNat_lt, UInt64.toNat_ofNat_of_lt' h.word] at hlarge

theorem Grown.write (h : Grown pathStr inode content now disk) {v : Calls} {b : Write}
    (hv : v.world = disk) (hb : Appends pathStr inode v (.outside b)) :
    ∃ now', now <+: now' ∧ Grown pathStr inode content now' (b.apply disk) := by
  subst hv
  cases b with
  | relink name inode' =>
    refine ⟨now, List.prefix_rfl, ?_, h.node, h.kept, h.word⟩
    have hother : pathStr ≠ name := Ne.symm hb
    simpa [Write.apply, FileRace.Disk.relink, hother] using h.name
  | rewrite inode' node =>
    by_cases hi : inode' = inode
    · obtain ⟨now', more, hnode, rfl, hword⟩ := hb hi
      cases h.node.symm.trans hnode
      subst hi
      refine ⟨now++more, List.prefix_append now more, h.name, ?_, h.kept.trans ?_, hword⟩
      · simp [Write.apply, FileRace.Disk.rewrite]
      · exact List.prefix_append now more
    · refine ⟨now, List.prefix_rfl, h.name, ?_, h.kept, h.word⟩
      simpa [Write.apply, FileRace.Disk.rewrite, Ne.symm hi] using h.node

theorem Sized.grown {n : UInt64} (h : Sized content now n) {now' : List UInt8}
    (hgrow : now <+: now') : Sized content now' n :=
  ⟨h.1, h.2.1, h.2.2.trans hgrow.length_le⟩

theorem Refusal.grown {failure status : IGStatus} {met : Met}
    (h : Refusal failure content now met status) {now' : List UInt8} (hgrow : now <+: now') :
    Refusal failure content now' met status :=
  h.imp_left fun hlen => ⟨hlen.1, hlen.2.imp_right fun hlarge => hlarge.trans_le hgrow.length_le⟩

theorem Sees.grown {c : Call} (h : Sees inode content now c) {now' : List UInt8}
    (hgrow : now <+: now') : Sees inode content now' c := by
  unfold Sees at h ⊢
  split at h
  · exact h.grown hgrow
  · exact ⟨h.1.grown hgrow, h.2.1, h.2.2.1.trans hgrow, h.2.2.2⟩
  · exact ⟨h.1.grown hgrow, h.2.1.trans hgrow, h.2.2⟩
  · exact h.grown hgrow
  · exact ⟨h.1, h.2.1.trans hgrow, h.2.2⟩
  · exact ⟨h.1, h.2.1.trans hgrow, h.2.2⟩
  · exact h.grown hgrow
  · trivial

theorem received_sees {n : UInt64} {buf : List UInt8} {events : List (ReadEvent UInt8)}
    {event : ReadEvent UInt8} (hkept : content <+: now) (hsize : Sized content now n)
    (hbuf : buf <+: now) (hshort : buf.length < 4)
    (hyields : (Node.regular now).yields buf.length event = true) (hfits : fits buf event = true)
    (reported : Option UInt64) :
    Sees inode content now (.first (received n inode buf event)
      ⟨reported, some (events++[event])⟩) := by
  cases event with
  | data chunk =>
    obtain ⟨hmore, hend⟩ := FileRace.yields_prefix hbuf hyields
    cases chunk with
    | nil =>
      obtain rfl := hend rfl
      exact .inl ⟨rfl, .inl (hkept.length_le.trans_lt hshort)⟩
    | cons b bs =>
      rw [received]
      split_ifs with hless
      · exact ⟨hsize, rfl, hmore, hless, rfl⟩
      · have hle : buf.length+(b::bs).length ≤ 4 := by simpa [fits] using hfits
        rw [List.length_append] at hless
        exact ⟨hsize, hmore, by rw [List.length_append]; omega⟩
  | interrupted => exact ⟨hsize, rfl, hbuf, hshort, rfl⟩
  | failed => exact .inr (.inr ⟨rfl, _, rfl, by simp⟩)

theorem firstStep_sees {reader : PrefixReader} {met : Met} {a : Move} {c : Call}
    (hdisk : Grown pathStr inode content now disk)
    (h : Sees inode content now (.first reader met))
    (hstep : firstStep pathStr disk reader met a = some c) : Sees inode content now c := by
  rcases firstStep_cases hstep with ⟨status, -, hcheck, rfl⟩ | ⟨n, -, hcheck, rfl⟩ |
    ⟨-, rfl⟩ | ⟨n, -, -, rfl⟩ | ⟨n, inode', rfl, hname, rfl⟩ |
    ⟨n, inode', buf, event, -, rfl, hyields, hfits, rfl⟩
  · obtain ⟨rfl, hlarge⟩ := hdisk.refused hcheck
    exact .inl ⟨rfl, .inr hlarge⟩
  · exact hdisk.checked hcheck
  · exact .inr (.inl ⟨rfl, rfl⟩)
  · exact .inr (.inl ⟨rfl, rfl⟩)
  · cases hdisk.name.symm.trans hname
    exact ⟨h, rfl, List.nil_prefix, by decide, rfl⟩
  · obtain ⟨hsize, rfl, hbuf, hshort, hfile⟩ := h
    obtain ⟨events, hevents⟩ := Option.isSome_iff_exists.mp hfile
    rw [hdisk.node] at hyields
    rw [hevents, Option.map_some]
    exact received_sees hdisk.kept hsize hbuf hshort hyields hfits met.reported

theorem race_received_sees {fileSize : UInt64} {buf : List UInt8}
    {events : List (ReadEvent UInt8)} {event : ReadEvent UInt8} (hkept : content <+: now)
    (hbuf : buf <+: now) (hyields : (Node.regular now).yields buf.length event = true)
    (reported : Option UInt64) :
    Sees inode content now (.whole (FileRace.received fileSize inode buf event)
      ⟨reported, some (events++[event])⟩) := by
  cases event with
  | data chunk =>
    obtain ⟨hmore, hend⟩ := FileRace.yields_prefix hbuf hyields
    cases chunk with
    | nil =>
      obtain rfl := hend rfl
      rw [FileRace.received, FileRace.resultOf]
      split_ifs with hshort
      · exact .inl ⟨rfl, .inl (hkept.length_le.trans_lt hshort)⟩
      · exact ⟨hkept, hbuf, Nat.not_lt.mp hshort⟩
    | cons b bs => exact ⟨rfl, hmore, rfl⟩
  | interrupted => exact ⟨rfl, hbuf, rfl⟩
  | failed => exact .inr (.inr ⟨rfl, _, rfl, by simp⟩)

theorem wholeStep_sees {reader : Reader} {met : Met} {a : Move} {c : Call}
    (hdisk : Grown pathStr inode content now disk)
    (h : Sees inode content now (.whole reader met))
    (hstep : wholeStep pathStr disk reader met a = some c) : Sees inode content now c := by
  obtain ⟨reader', met', rfl, hrace⟩ := wholeStep_cases hstep
  rcases FileRace.step_cases hrace with ⟨hwrite, -⟩ | ⟨status, -, hcheck, hw⟩ | ⟨n, -, -, hw⟩ |
    ⟨-, -, hw⟩ | ⟨n, -, -, hw⟩ | ⟨n, inode', -, hname, hw⟩ |
    ⟨n, inode', buf, event, -, hr, hyields, hw⟩
  · cases a <;> simp [Move.action] at hwrite
  · cases hw
    obtain ⟨rfl, hlarge⟩ := hdisk.refused hcheck
    exact .inl ⟨rfl, .inr hlarge⟩
  · cases hw
    trivial
  · cases hw
    exact .inr (.inl ⟨rfl, rfl⟩)
  · cases hw
    exact .inr (.inl ⟨rfl, rfl⟩)
  · cases hw
    cases hdisk.name.symm.trans hname
    exact ⟨rfl, List.nil_prefix, rfl⟩
  · cases hw
    obtain rfl : reader = .opened n inode' buf := hr
    obtain ⟨rfl, hbuf, hfile⟩ := h
    obtain ⟨events, hevents⟩ := Option.isSome_iff_exists.mp hfile
    replace hyields : (disk.nodes inode').yields buf.length event = true := hyields
    rw [hdisk.node] at hyields
    have hsees : Sees inode' content now (.whole (FileRace.received n inode' buf event)
        ⟨met.reported, some (events++[event])⟩) :=
      race_received_sees hdisk.kept hbuf hyields met.reported
    simpa [Race.meetRead, hevents] using hsees

/-- Whatever the calls and the writers do, the file has grown, and each call
sees of it what it was at some moment. -/
theorem growing_sees {v : Calls} (hdisk : Grown pathStr inode content content disk)
    (h : Reached (step pathStr) (Appends pathStr inode) (loaded disk) v) :
    ∃ now, Grown pathStr inode content now v.world ∧
      ∀ i, Sees inode content now (v.clients i) := by
  let World (disk : Disk) : Prop := ∃ now, Grown pathStr inode content now disk
  let Each (disk : Disk) (_ : CallId) (c : Call) : Prop :=
    ∀ now, disk.nodes inode = .regular now → Sees inode content now c
  have hinit : Keeps World Each (loaded disk) := by
    refine ⟨⟨content, hdisk⟩, fun i now _ => ?_⟩
    cases i <;> trivial
  have hkeeps : Keeps World Each v := by
    refine reached_keeps hinit ?_ ?_ h
    · rintro s b hb ⟨now, hnow⟩
      obtain ⟨now', hgrow, hnow'⟩ := hnow.write rfl hb
      refine ⟨⟨now', hnow'⟩, fun i c hc now'' hnode => ?_⟩
      cases hnow'.node.symm.trans hnode
      exact (hc now hnow.node).grown hgrow
    · rintro s i a c - ⟨now, hnow⟩ hc hact now' hnode
      cases hnow.node.symm.trans hnode
      have hsees := hc now hnow.node
      cases hi : s.clients i with
      | first reader met =>
        rw [hi] at hsees hact
        exact firstStep_sees hnow hsees hact
      | whole reader met =>
        rw [hi] at hsees hact
        exact wholeStep_sees hnow hsees hact
  obtain ⟨⟨now, hnow⟩, hcalls⟩ := hkeeps
  exact ⟨now, hnow, fun i => hcalls i now hnow.node⟩

theorem Sees.head {c : Call} (h : Sees inode content now c) {buf : List UInt8} {n : UInt64}
    (hhead : c.head = some (.ok (buf,n))) :
    buf = now.take 4 ∧ buf.length = 4 ∧ Sized content now n := by
  obtain ⟨met, rfl⟩ := Call.head_eq_some.mp hhead
  obtain ⟨hsize, hbuf, hlen⟩ := h
  exact ⟨hlen ▸ List.prefix_iff_eq_take.mp hbuf, hlen, hsize⟩

theorem Sees.file {c : Call} (h : Sees inode content now c) {bytes : List UInt8}
    (hfile : c.file = some (.ok bytes)) :
    content <+: bytes ∧ bytes <+: now ∧ 4 ≤ bytes.length := by
  obtain ⟨met, rfl⟩ := Call.file_eq_some.mp hfile
  exact h

def arriving : Disk where
  names := fun _ => some 0
  nodes := fun _ => .regular [0,0,4,0]

def arrival : List Event :=
  [.client (.metadata 0) .stat, .client (.decode 0) .stat, .client (.metadata 0) .openPath,
    .client (.decode 0) .openPath, .client (.decode 0) (.read (.data [0,0])),
    .outside (.rewrite 0 (.regular [0,0,4,0,7])), .client (.metadata 0) (.read (.data [0,0,4,0])),
    .client (.decode 0) (.read (.data [4,0,7])), .client (.decode 0) (.read (.data []))]

theorem arriving_grown : Grown ['a'] 0 [0,0,4,0] [0,0,4,0] arriving where
  name := rfl
  node := rfl
  kept := List.prefix_rfl
  word := by decide

theorem arrival_reached : ∃ v, Reached (step ['a']) (Appends ['a'] 0) (loaded arriving) v ∧
    (v.clients (.metadata 0)).head = some (.ok ([0,0,4,0],4)) ∧
    (v.clients (.decode 0)).file = some (.ok [0,0,4,0,7]) := by
  refine ⟨_, ⟨arrival, rfl, ?_⟩, rfl, rfl⟩
  have happend (v : Calls) (hv : v.world.nodes 0 = .regular [0,0,4,0]) :
      Appends ['a'] 0 v (.outside (.rewrite 0 (.regular [0,0,4,0,7]))) :=
    fun _ => ⟨[0,0,4,0], [7], hv, rfl, by decide⟩
  exact ⟨trivial, trivial, trivial, trivial, trivial, happend _ rfl, trivial, trivial, trivial,
    trivial⟩

def stillFile (bytes : List UInt8) (size : UInt64) : FileSystem where
  metadata := fun _ => some size
  openFile := fun _ => some [.data bytes]

theorem still_read {bytes : List UInt8} {size : UInt64} (hsize : size ≤ maxFileSizeBytes)
    (hlen : 4 ≤ bytes.length) (pathStr : Str) :
    readIthmbPrefix (stillFile bytes size) pathStr = .ok (bytes.take 4,size) ∧
      readIthmbFile (stillFile bytes size) pathStr = .ok bytes := by
  have hcheck : checkFileSize (stillFile bytes size) pathStr = .ok size :=
    (checkFileSize_ok_iff _ _ _).mpr ⟨rfl, hsize⟩
  obtain ⟨b, bs, rfl⟩ : ∃ b bs, bytes = b::bs :=
    List.exists_cons_of_length_pos (Nat.lt_of_lt_of_le (by decide) hlen)
  constructor
  · rw [prefix_checked hcheck, stillFile, prefixOf]
    simp only [delivered, List.append_nil, if_pos hlen]
  · refine (readIthmbFile_ok_iff _ _ _).mpr ⟨⟨size, hcheck⟩, ?_, hlen⟩
    simp [fsRead, stillFile, readToEnd]

theorem metadata_congr {fs fs' : FileSystem} {path : IGStringRef}
    (hpath : utf16ToString path = some pathStr)
    (h : readIthmbPrefix fs pathStr = readIthmbPrefix fs' pathStr) (core : IthmbCore)
    (info : Option IGImageInfo) :
    codecLoadMetadata core fs path info = codecLoadMetadata core fs' path info := by
  cases info <;> simp only [codecLoadMetadata, hpath, h]

theorem decode_congr {fs fs' : FileSystem} {path : IGStringRef}
    (hpath : utf16ToString path = some pathStr)
    (h : readIthmbFile fs pathStr = readIthmbFile fs' pathStr) (hostApi : Option IGHostApi)
    (decodeIthmb : List UInt8 → Bool → DecodeOutcome) (malloc : ℕ → Addr) (frameIndex : Int32)
    (buffer : Option IGPixelBuffer) (registry : Option BufferRegistry) (memory : Memory) :
    codecDecodeStaticRaster ⟨fs, hostApi, decodeIthmb⟩ malloc path frameIndex buffer registry
        memory =
      codecDecodeStaticRaster ⟨fs', hostApi, decodeIthmb⟩ malloc path frameIndex buffer registry
        memory := by
  have himage : decodeImage ⟨fs, hostApi, decodeIthmb⟩ path frameIndex buffer.isNone =
      decodeImage ⟨fs', hostApi, decodeIthmb⟩ path frameIndex buffer.isNone := by
    simp only [decodeImage, hpath, h]
  simp only [codecDecodeStaticRaster, himage]

/-- Metadata and picture fit together although the file grew meanwhile: both
calls answer as on one still file that holds what was decoded. -/
theorem growing_still {v : Calls} {path : IGStringRef} {m n : ℕ} {buf bytes : List UInt8}
    {size : UInt64} (hdisk : Grown pathStr inode content content disk)
    (h : Reached (step pathStr) (Appends pathStr inode) (loaded disk) v)
    (hpath : utf16ToString path = some pathStr)
    (hhead : (v.clients (.metadata m)).head = some (.ok (buf,size)))
    (hfile : (v.clients (.decode n)).file = some (.ok bytes)) :
    content <+: bytes ∧
    (∀ core info, codecLoadMetadata core (v.clients (.metadata m)).met.fileSystem path info =
      codecLoadMetadata core (stillFile bytes size) path info) ∧
    ∀ hostApi decodeIthmb malloc frameIndex buffer registry memory,
      codecDecodeStaticRaster ⟨(v.clients (.decode n)).met.fileSystem, hostApi, decodeIthmb⟩
          malloc path frameIndex buffer registry memory =
        codecDecodeStaticRaster ⟨stillFile bytes size, hostApi, decodeIthmb⟩ malloc path
          frameIndex buffer registry memory := by
  obtain ⟨now, -, hsees⟩ := growing_sees hdisk h
  obtain ⟨hbuf, -, hsize⟩ := (hsees (.metadata m)).head hhead
  obtain ⟨hcontent, hbytes, hlen⟩ := (hsees (.decode n)).file hfile
  have hfirst : buf = bytes.take 4 := by
    rw [hbuf, List.prefix_iff_eq_take.mp hbytes, List.take_take, Nat.min_eq_left hlen]
  obtain ⟨hstill, hwhole⟩ := still_read hsize.1 hlen pathStr
  have hmeta := (calls_observed h (.metadata m)).1 _ hhead
  have hdecode := (calls_observed h (.decode n)).2 _ hfile
  refine ⟨hcontent, metadata_congr hpath ?_, decode_congr hpath (hdecode.trans hwhole.symm)⟩
  rw [hmeta, hstill, hfirst]

def letter : IGStringRef := (igStringRefFromStr 16 ['a']).2

theorem growing_still_arrival : ∃ v : Calls, ∀ core info,
    codecLoadMetadata core (v.clients (.metadata 0)).met.fileSystem letter info =
      codecLoadMetadata core (stillFile [0,0,4,0,7] 4) letter info := by
  obtain ⟨v, hv, hhead, hfile⟩ := arrival_reached
  have hpath : utf16ToString letter = some ['a'] := rfl
  exact ⟨v, (growing_still arriving_grown hv hpath hhead hfile).2.1⟩

end Growing

end IthmbPlugin.Readers
