import IthmbPlugin.Metadata

/-!
# Metadata loading end to end

Loading runs through stages. Each has a condition on the call alone, and the
first whose condition fails decides the status; when all hold, the host's
struct receives the dimensions the tables determine and the reported size.
-/

set_option autoImplicit false

namespace IthmbPlugin.MetadataContract
open IthmbPlugin.Types IthmbPlugin.Strings IthmbPlugin.FileIo IthmbPlugin.ByteStream
open IthmbPlugin.MachineInt IthmbPlugin.Metadata

/-- The dimensions the tables hold for a format id: those of the first
description that parses, or of the profile when none does. -/
inductive Denotes (core : IthmbCore) (id : Int32) (dims : ℕ × ℕ) : Prop
  | description (before : List Str) (desc : Str) (after : List Str)
      (hformats : core.findFormatsById id = before++desc::after)
      (hbefore : ∀ d ∈ before, dimensionsIn d = none) (hdesc : dimensionsIn desc = some dims)
  | profile (db : ProfileDb) (hnone : ∀ d ∈ core.findFormatsById id, dimensionsIn d = none)
      (hdb : core.loadBuiltin = some db) (hget : db.get id = some dims)

def SomeParses (core : IthmbCore) (id : Int32) : Prop :=
  ∃ d ∈ core.findFormatsById id, dimensionsIn d ≠ none

def Known (core : IthmbCore) (id : Int32) : Prop :=
  SomeParses core id ∨ ∃ db, core.loadBuiltin = some db ∧ db.get id ≠ none

/-- Every dimension either table holds is an `i32`. -/
def InRange (core : IthmbCore) : Prop :=
  (∀ id, ∀ d ∈ core.findFormatsById id, ∀ w h, dimensionsIn d = some (w,h) →
    w < 2^31 ∧ h < 2^31) ∧
  ∀ db, core.loadBuiltin = some db → ∀ id w h, db.get id = some (w,h) → w < 2^31 ∧ h < 2^31

theorem Denotes.in_range {core : IthmbCore} {id : Int32} {w h : ℕ}
    (hd : Denotes core id (w,h)) (hcore : InRange core) : w < 2^31 ∧ h < 2^31 := by
  cases hd with
  | description before desc after hformats hbefore hdesc =>
    exact hcore.1 id desc (by simp [hformats]) w h hdesc
  | profile db hnone hdb hget => exact hcore.2 db hdb id w h hget

def tableDimensions (core : IthmbCore) (id : Int32) : Except IGStatus (ℕ × ℕ) :=
  match (core.findFormatsById id).findSome? dimensionsIn with
  | some dims => .ok dims
  | none => profileDimensions core id

theorem none_parses_iff (core : IthmbCore) (id : Int32) :
    (core.findFormatsById id).findSome? dimensionsIn = none ↔ ¬ SomeParses core id := by
  simp [SomeParses, List.findSome?_eq_none_iff]

theorem tableDimensions_ok_iff (core : IthmbCore) (id : Int32) (dims : ℕ × ℕ) :
    tableDimensions core id = .ok dims ↔ Denotes core id dims := by
  unfold tableDimensions
  constructor
  · intro h
    cases hf : (core.findFormatsById id).findSome? dimensionsIn with
    | some found =>
      obtain ⟨before, desc, after, hformats, hdesc, hbefore⟩ := List.findSome?_eq_some_iff.mp hf
      rw [hf] at h
      cases h
      exact .description before desc after hformats hbefore hdesc
    | none =>
      rw [hf] at h
      obtain ⟨db, hdb, hget⟩ := (profileDimensions_ok_iff core id dims).mp h
      exact .profile db (List.findSome?_eq_none_iff.mp hf) hdb hget
  · intro hd
    cases hd with
    | description before desc after hformats hbefore hdesc =>
      rw [List.findSome?_eq_some_iff.mpr ⟨before, desc, after, hformats, hdesc, hbefore⟩]
    | profile db hnone hdb hget =>
      rw [List.findSome?_eq_none_iff.mpr hnone]
      exact (profileDimensions_ok_iff core id dims).mpr ⟨db, hdb, hget⟩

theorem tableDimensions_error {core : IthmbCore} {id : Int32} {status : IGStatus}
    (h : tableDimensions core id = .error status) :
    ¬ SomeParses core id ∧ profileDimensions core id = .error status := by
  unfold tableDimensions at h
  cases hf : (core.findFormatsById id).findSome? dimensionsIn with
  | some found => simp [hf] at h
  | none =>
    rw [hf] at h
    exact ⟨(none_parses_iff core id).mp hf, h⟩

theorem known_iff (core : IthmbCore) (id : Int32) :
    Known core id ↔ ∃ dims, Denotes core id dims := by
  constructor
  · intro hknown
    cases hres : tableDimensions core id with
    | ok dims => exact ⟨dims, (tableDimensions_ok_iff core id dims).mp hres⟩
    | error status =>
      obtain ⟨hno, herror⟩ := tableDimensions_error hres
      obtain ⟨db, hdb, hget⟩ := hknown.resolve_left hno
      obtain ⟨dims, hdims⟩ := Option.ne_none_iff_exists'.mp hget
      have hok := (profileDimensions_ok_iff core id dims).mpr ⟨db, hdb, hdims⟩
      cases herror.symm.trans hok
  · rintro ⟨dims, hd⟩
    cases hd with
    | description before desc after hformats hbefore hdesc =>
      exact .inl ⟨desc, by simp [hformats], by simp [hdesc]⟩
    | profile db hnone hdb hget => exact .inr ⟨db, hdb, by simp [hget]⟩

inductive Stage
  | path
  | stat
  | size
  | openFile
  | firstBytes
  | database
  | profile
  deriving DecidableEq, Repr

def stages : List Stage := [.path, .stat, .size, .openFile, .firstBytes, .database, .profile]

def Stage.status : Stage → IGStatus
  | .path => .invalidArg
  | .stat => .ioError
  | .size => .decodeFailed
  | .openFile => .ioError
  | .firstBytes => .decodeFailed
  | .database => .internal
  | .profile => .notImplemented

def ReportsSize (fs : FileSystem) (path : IGStringRef) (fileSize : UInt64) : Prop :=
  ∃ p, utf16ToString path = some p ∧ fs.metadata p = some fileSize

def StartsWith (fs : FileSystem) (path : IGStringRef) (first : List UInt8) : Prop :=
  ∃ p file rest, utf16ToString path = some p ∧ fs.openFile p = some file ∧
    delivered file = first++rest ∧ first.length = 4

def Stage.Passes (core : IthmbCore) (fs : FileSystem) (path : IGStringRef) : Stage → Prop
  | .path => ¬ Rejected path
  | .stat => ∃ fileSize, ReportsSize fs path fileSize
  | .size => ∃ fileSize, ReportsSize fs path fileSize ∧ fileSize.toNat ≤ 8*1024*1024
  | .openFile => ∃ p, utf16ToString path = some p ∧ fs.openFile p ≠ none
  | .firstBytes => ∃ first, StartsWith fs path first
  | .database => ∃ first, StartsWith fs path first ∧
      (SomeParses core (i32FromBeBytes first) ∨ core.loadBuiltin ≠ none)
  | .profile => ∃ first dims, StartsWith fs path first ∧ Denotes core (i32FromBeBytes first) dims

def FirstFailing (core : IthmbCore) (fs : FileSystem) (path : IGStringRef) (s : Stage) : Prop :=
  ∃ before after, stages = before++s::after ∧ (∀ t ∈ before, t.Passes core fs path) ∧
    ¬ s.Passes core fs path

section Stages
variable {core : IthmbCore} {fs : FileSystem} {path : IGStringRef} {p : Str}

theorem StartsWith.unique {first first' : List UInt8} (h : StartsWith fs path first)
    (h' : StartsWith fs path first') : first = first' := by
  obtain ⟨p, file, rest, hp, hfile, hdel, hlen⟩ := h
  obtain ⟨p', file', rest', hp', hfile', hdel', hlen'⟩ := h'
  cases hp.symm.trans hp'
  cases hfile.symm.trans hfile'
  exact (List.append_inj (hdel.symm.trans hdel') (hlen.trans hlen'.symm)).1

theorem size_within_iff (n : UInt64) : ¬ n > maxFileSizeBytes ↔ n.toNat ≤ 8*1024*1024 := by
  rw [gt_iff_lt, UInt64.lt_iff_toNat_lt, Nat.not_lt]
  rfl

theorem readIthmbPrefix_stages (core : IthmbCore) (fs : FileSystem)
    (hp : utf16ToString path = some p) :
    (∃ s, FirstFailing core fs path s ∧ readIthmbPrefix fs p = .error s.status) ∨
    ∃ first fileSize, ReportsSize fs path fileSize ∧ fileSize.toNat ≤ 8*1024*1024 ∧
      StartsWith fs path first ∧ readIthmbPrefix fs p = .ok (first,fileSize) := by
  have hpath : ¬ Rejected path := accepted_of_some hp
  unfold readIthmbPrefix checkFileSize
  cases hstat : fs.metadata p with
  | none =>
    refine .inl ⟨.stat, ⟨[.path], _, rfl, by simpa [Stage.Passes] using hpath, ?_⟩, rfl⟩
    rintro ⟨n, q, hq, hn⟩
    cases hp.symm.trans hq
    cases hstat.symm.trans hn
  | some n =>
    have hreports : ReportsSize fs path n := ⟨p, hp, hstat⟩
    by_cases hsize : n > maxFileSizeBytes
    · refine .inl ⟨.size, ⟨[.path, .stat], _, rfl, ?_, ?_⟩, by simp [hsize, Stage.status]⟩
      · simpa [Stage.Passes, hpath] using ⟨n, hreports⟩
      · rintro ⟨m, ⟨q, hq, hm⟩, hle⟩
        cases hp.symm.trans hq
        cases hstat.symm.trans hm
        exact (size_within_iff n).mpr hle hsize
    · have hle := (size_within_iff n).mp hsize
      simp only [if_neg hsize]
      cases hopen : fs.openFile p with
      | none =>
        refine .inl ⟨.openFile, ⟨[.path, .stat, .size], _, rfl, ?_, ?_⟩, rfl⟩
        · simpa [Stage.Passes, hpath] using ⟨⟨n, hreports⟩, n, hreports, hle⟩
        · rintro ⟨q, hq, hfile⟩
          cases hp.symm.trans hq
          exact hfile hopen
      | some file =>
        simp only [readExact_eq]
        by_cases hlen : 4 ≤ (delivered file).length
        · refine .inr ⟨(delivered file).take 4, n, hreports, hle, ?_, by rw [if_pos hlen]⟩
          exact ⟨p, file, (delivered file).drop 4, hp, hopen, (List.take_append_drop 4 _).symm,
            List.length_take_of_le hlen⟩
        · refine .inl ⟨.firstBytes, ⟨[.path, .stat, .size, .openFile], _, rfl, ?_, ?_⟩,
            by rw [if_neg hlen]; rfl⟩
          · have hopens : fs.openFile p ≠ none := by simp [hopen]
            simpa [Stage.Passes, hpath] using ⟨⟨n, hreports⟩, ⟨n, hreports, hle⟩, p, hp, hopens⟩
          · rintro ⟨first, q, file', rest, hq, hfile, hdel, h4⟩
            cases hp.symm.trans hq
            cases hopen.symm.trans hfile
            rw [hdel, List.length_append, h4] at hlen
            omega

theorem load_after_first_bytes (core : IthmbCore) {first : List UInt8} {fileSize : UInt64}
    (old : IGImageInfo) (hp : utf16ToString path = some p)
    (hread : readIthmbPrefix fs p = .ok (first,fileSize)) :
    codecLoadMetadata core fs path (some old) =
      match tableDimensions core (i32FromBeBytes first) with
      | .ok (w,h) => (.ok,some (fillImageInfo old w h fileSize.toInt64))
      | .error status => (status,some old) := by
  simp only [codecLoadMetadata, hp, hread, findDimensions_eq, tableDimensions]
  cases (core.findFormatsById (i32FromBeBytes first)).findSome? dimensionsIn with
  | some dims => rfl
  | none => cases profileDimensions core (i32FromBeBytes first) <;> rfl

theorem file_stages_pass (core : IthmbCore) {first : List UInt8} {fileSize : UInt64}
    (hpath : ¬ Rejected path) (hreports : ReportsSize fs path fileSize)
    (hle : fileSize.toNat ≤ 8*1024*1024) (hfirst : StartsWith fs path first) :
    ∀ t ∈ [Stage.path, .stat, .size, .openFile, .firstBytes], t.Passes core fs path := by
  have hopen : ∃ p, utf16ToString path = some p ∧ fs.openFile p ≠ none := by
    obtain ⟨p, file, -, hp, hfile, -, -⟩ := hfirst
    exact ⟨p, hp, by simp [hfile]⟩
  simpa [Stage.Passes, hpath] using
    ⟨⟨fileSize, hreports⟩, ⟨fileSize, hreports, hle⟩, hopen, first, hfirst⟩

theorem tables_stages {first : List UInt8} {fileSize : UInt64} {status : IGStatus}
    (hpath : ¬ Rejected path) (hreports : ReportsSize fs path fileSize)
    (hle : fileSize.toNat ≤ 8*1024*1024) (hfirst : StartsWith fs path first)
    (herror : tableDimensions core (i32FromBeBytes first) = .error status) :
    ∃ s, FirstFailing core fs path s ∧ status = s.status := by
  obtain ⟨hno, hprofile⟩ := tableDimensions_error herror
  have hearlier := file_stages_pass core hpath hreports hle hfirst
  rcases profileDimensions_error hprofile with ⟨hdb, rfl⟩ | ⟨hdb, rfl⟩
  · refine ⟨.database, ⟨[.path, .stat, .size, .openFile, .firstBytes], _, rfl, hearlier, ?_⟩, rfl⟩
    rintro ⟨first', hfirst', hpass⟩
    cases hfirst.unique hfirst'
    exact hpass.elim hno (fun h => h hdb)
  · refine ⟨.profile, ⟨[.path, .stat, .size, .openFile, .firstBytes, .database], _, rfl, ?_, ?_⟩,
      rfl⟩
    · intro t ht
      rcases List.mem_append.mp (show t ∈ [_, _, _, _, _]++[Stage.database] from ht) with ht | ht
      · exact hearlier t ht
      · cases List.mem_singleton.mp ht
        exact ⟨first, hfirst, .inr hdb⟩
    · rintro ⟨first', dims, hfirst', hd⟩
      cases hfirst.unique hfirst'
      cases herror.symm.trans ((tableDimensions_ok_iff core _ dims).mpr hd)

/-- The whole call: it stops at the first failing stage, or fills the struct. -/
theorem load_metadata_stages (core : IthmbCore) (fs : FileSystem) (path : IGStringRef)
    (old : IGImageInfo) :
    (∃ s, FirstFailing core fs path s ∧
      codecLoadMetadata core fs path (some old) = (s.status,some old)) ∨
    ∃ first fileSize w h, ReportsSize fs path fileSize ∧ fileSize.toNat ≤ 8*1024*1024 ∧
      StartsWith fs path first ∧ Denotes core (i32FromBeBytes first) (w,h) ∧
      codecLoadMetadata core fs path (some old) =
        (.ok,some (fillImageInfo old w h fileSize.toInt64)) := by
  cases hp : utf16ToString path with
  | none =>
    have hpath : Rejected path := (utf16ToString_none_iff path).mp hp
    exact .inl ⟨.path, ⟨[], _, rfl, by simp, not_not.mpr hpath⟩,
      by simp [codecLoadMetadata, hp, Stage.status]⟩
  | some p =>
    rcases readIthmbPrefix_stages core fs hp with
      ⟨s, hs, hread⟩ | ⟨first, n, hreports, hle, hfirst, hread⟩
    · exact .inl ⟨s, hs, by simp only [codecLoadMetadata, hp, hread]⟩
    · rw [load_after_first_bytes core old hp hread]
      have hpath : ¬ Rejected path := accepted_of_some hp
      cases hres : tableDimensions core (i32FromBeBytes first) with
      | ok dims =>
        exact .inr ⟨first, n, dims.1, dims.2, hreports, hle, hfirst,
          (tableDimensions_ok_iff core _ dims).mp hres, rfl⟩
      | error status =>
        obtain ⟨s, hs, rfl⟩ := tables_stages hpath hreports hle hfirst hres
        exact .inl ⟨s, hs, rfl⟩

theorem passes_all {first : List UInt8} {fileSize : UInt64} (hpath : ¬ Rejected path)
    (hreports : ReportsSize fs path fileSize) (hle : fileSize.toNat ≤ 8*1024*1024)
    (hfirst : StartsWith fs path first) (hknown : Known core (i32FromBeBytes first))
    (s : Stage) : s.Passes core fs path := by
  have hearlier := file_stages_pass core hpath hreports hle hfirst
  cases s with
  | path => exact hearlier _ (by simp)
  | stat => exact hearlier _ (by simp)
  | size => exact hearlier _ (by simp)
  | openFile => exact hearlier _ (by simp)
  | firstBytes => exact hearlier _ (by simp)
  | database =>
    rcases hknown with hparse | ⟨db, hdb, -⟩
    · exact ⟨first, hfirst, .inl hparse⟩
    · exact ⟨first, hfirst, .inr (by simp [hdb])⟩
  | profile =>
    obtain ⟨dims, hd⟩ := (known_iff core (i32FromBeBytes first)).mp hknown
    exact ⟨first, dims, hfirst, hd⟩

end Stages

theorem toInt64_exact (n : UInt64) (h : n.toNat ≤ 8*1024*1024) : n.toInt64.toInt = n.toNat := by
  have hlt : 2*n.toBitVec.toNat < 2^64 := by
    rw [UInt64.toNat_toBitVec]
    omega
  exact BitVec.toInt_eq_toNat_of_lt hlt

/-- Loading succeeds exactly for an accepted path to a small enough file whose
first four bytes name a format the tables know. It then reports the dimensions
the tables denote, the first description that parses before the profile, and
the exact size. Otherwise the first failing stage decides the status and the
struct is as it was. -/
theorem load_metadata_end_to_end (core : IthmbCore) (hcore : InRange core) (fs : FileSystem)
    (path : IGStringRef) (old : IGImageInfo) :
    ((codecLoadMetadata core fs path (some old)).1 = .ok ↔
      ¬ Rejected path ∧ (∃ n, ReportsSize fs path n ∧ n.toNat ≤ 8*1024*1024) ∧
        ∃ first, StartsWith fs path first ∧ Known core (i32FromBeBytes first)) ∧
    ((codecLoadMetadata core fs path (some old)).1 = .ok → ∃ first n w h new,
      StartsWith fs path first ∧ ReportsSize fs path n ∧
        Denotes core (i32FromBeBytes first) (w,h) ∧
        (codecLoadMetadata core fs path (some old)).2 = some new ∧
        new.width.toInt = w ∧ new.height.toInt = h ∧ new.fileSizeBytes.toInt = n.toNat) ∧
    ((codecLoadMetadata core fs path (some old)).1 ≠ .ok → ∃ s, FirstFailing core fs path s ∧
      codecLoadMetadata core fs path (some old) = (s.status,some old)) := by
  rcases load_metadata_stages core fs path old with
    ⟨s, hs, hload⟩ | ⟨first, n, w, h, hreports, hle, hfirst, hd, hload⟩
  · have hstatus : s.status ≠ .ok := by cases s <;> decide
    rw [hload]
    refine ⟨⟨fun hok => absurd hok hstatus, ?_⟩, fun hok => absurd hok hstatus,
      fun _ => ⟨s, hs, rfl⟩⟩
    rintro ⟨hpath, ⟨n, hreports, hle⟩, first, hfirst, hknown⟩
    obtain ⟨before, after, -, -, hfails⟩ := hs
    exact absurd (passes_all hpath hreports hle hfirst hknown s) hfails
  · have hpath : ¬ Rejected path := by
      obtain ⟨p, hp, -⟩ := hreports
      exact accepted_of_some hp
    obtain ⟨hw, hh⟩ := hd.in_range hcore
    have hknown : Known core (i32FromBeBytes first) := (known_iff core _).mpr ⟨_, hd⟩
    rw [hload]
    refine ⟨⟨fun _ => ⟨hpath, ⟨n, hreports, hle⟩, first, hfirst, hknown⟩, fun _ => rfl⟩, ?_,
      fun hne => absurd rfl hne⟩
    intro _
    exact ⟨first, n, w, h, _, hfirst, hreports, hd, rfl, (asI32_exact_iff w).mpr hw,
      (asI32_exact_iff h).mpr hh, toInt64_exact n hle⟩

def oneFormat : IthmbCore where
  findFormatsById := fun id =>
    if id = 1024 then ["thumbnail".toList, "320×240 RGB565 photo".toList] else []
  loadBuiltin := none

theorem oneFormat_in_range : InRange oneFormat := by
  constructor
  · intro id d hd w h hdims
    have hmem : d ∈ ["thumbnail".toList, "320×240 RGB565 photo".toList] := by
      simp only [oneFormat] at hd
      split_ifs at hd with hid
      · exact hd
      · cases hd
    rcases List.mem_pair.mp hmem with rfl | rfl
    · have hnone : dimensionsIn "thumbnail".toList = none := by decide
      cases hnone.symm.trans hdims
    · have hsome : dimensionsIn "320×240 RGB565 photo".toList = some (320,240) := by decide
      cases hsome.symm.trans hdims
      decide
  · intro db hdb
    cases hdb

def blankInfo : IGImageInfo := fillImageInfo ⟨0,0,0,0,0,0,0,0,0,null,0⟩ 0 0 0

def pathRef : IGStringRef := { data := some ⟨16,[0x61]⟩, length := 1 }

theorem load_metadata_second_description :
    codecLoadMetadata oneFormat regularFile pathRef (some blankInfo) =
      (.ok,some (fillImageInfo blankInfo 320 240 4)) ∧
    ∃ first n w h new, StartsWith regularFile pathRef first ∧ ReportsSize regularFile pathRef n ∧
      Denotes oneFormat (i32FromBeBytes first) (w,h) ∧
      (codecLoadMetadata oneFormat regularFile pathRef (some blankInfo)).2 = some new ∧
      new.width.toInt = w ∧ new.height.toInt = h ∧ new.fileSizeBytes.toInt = n.toNat := by
  have hload := load_metadata_end_to_end oneFormat oneFormat_in_range regularFile pathRef blankInfo
  exact ⟨by decide, hload.2.1 (by decide)⟩

end IthmbPlugin.MetadataContract
