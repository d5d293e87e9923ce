import IthmbPlugin.Types
import IthmbPlugin.Library.ByteStream

/-!
# Reading an .ithmb file

Metadata loading reads the four-byte prefix, decoding reads the whole file;
both check the reported size first. A path denotes what its stat call and its
open call answer, and an opened file is the stream its reads meet. Nothing
ties the reported size to the bytes the stream delivers.
-/

set_option autoImplicit false

namespace IthmbPlugin.FileIo
open IthmbPlugin.Types IthmbPlugin.ByteStream

structure FileSystem where
  metadata : Str → Option UInt64
  openFile : Str → Option (List (ReadEvent UInt8))

def maxFileSizeBytes : UInt64 := 8*1024*1024

def checkFileSize (fs : FileSystem) (path : Str) : Except IGStatus UInt64 :=
  match fs.metadata path with
  | none => .error .ioError
  | some fileSize => if fileSize > maxFileSizeBytes then .error .decodeFailed else .ok fileSize

def fsRead (fs : FileSystem) (path : Str) : Option (List UInt8) :=
  match fs.openFile path with
  | none => none
  | some file => readToEnd file

def readIthmbFile (fs : FileSystem) (path : Str) : Except IGStatus (List UInt8) :=
  match checkFileSize fs path with
  | .error status => .error status
  | .ok _ =>
    match fsRead fs path with
    | none => .error .ioError
    | some bytes => if bytes.length < 4 then .error .decodeFailed else .ok bytes

def readIthmbPrefix (fs : FileSystem) (path : Str) : Except IGStatus (List UInt8 × UInt64) :=
  match checkFileSize fs path with
  | .error status => .error status
  | .ok fileSize =>
    match fs.openFile path with
    | none => .error .ioError
    | some file =>
      match readExact 4 file with
      | none => .error .decodeFailed
      | some buf => .ok (buf,fileSize)

theorem checkFileSize_ok_iff (fs : FileSystem) (pathStr : Str) (fileSize : UInt64) :
    checkFileSize fs pathStr = .ok fileSize ↔
      fs.metadata pathStr = some fileSize ∧ fileSize ≤ maxFileSizeBytes := by
  unfold checkFileSize
  cases fs.metadata pathStr with
  | none => simp
  | some reported =>
    by_cases hsize : reported > maxFileSizeBytes
    · simp only [if_pos hsize]
      constructor
      · intro h
        cases h
      · rintro ⟨h, hle⟩
        cases h
        exact absurd hsize (UInt64.not_lt.mpr hle)
    · simp only [if_neg hsize]
      constructor
      · intro h
        cases h
        exact ⟨rfl, UInt64.not_lt.mp hsize⟩
      · rintro ⟨h, -⟩
        cases h
        rfl

theorem fsRead_some_iff (fs : FileSystem) (pathStr : Str) (bytes : List UInt8) :
    fsRead fs pathStr = some bytes ↔
      ∃ file, fs.openFile pathStr = some file ∧ fails file = false ∧ delivered file = bytes := by
  unfold fsRead
  cases fs.openFile pathStr with
  | none => simp
  | some file =>
    cases hf : fails file <;> simp [readToEnd_eq, hf]

theorem readIthmbFile_ok_iff (fs : FileSystem) (pathStr : Str) (bytes : List UInt8) :
    readIthmbFile fs pathStr = .ok bytes ↔
      (∃ fileSize, checkFileSize fs pathStr = .ok fileSize) ∧ fsRead fs pathStr = some bytes ∧
        4 ≤ bytes.length := by
  unfold readIthmbFile
  cases checkFileSize fs pathStr with
  | error status => simp
  | ok fileSize =>
    cases fsRead fs pathStr with
    | none => simp
    | some read =>
      by_cases hlen : read.length < 4
      · simp only [if_pos hlen]
        constructor
        · intro h
          cases h
        · rintro ⟨-, h, hge⟩
          cases h
          omega
      · simp only [if_neg hlen]
        constructor
        · intro h
          cases h
          exact ⟨⟨fileSize, rfl⟩, rfl, by omega⟩
        · rintro ⟨-, h, -⟩
          cases h
          rfl

/-- The status the interface promises for an object that cannot be read as an
.ithmb file, nothing for one that can. The size is looked at before the
content. -/
def promisedRefusal (fs : FileSystem) (path : Str) : Option IGStatus :=
  match fs.metadata path with
  | none => some .ioError
  | some fileSize =>
    if fileSize > maxFileSizeBytes then some .decodeFailed
    else match fs.openFile path with
      | none => some .ioError
      | some file =>
        if fails file then some .ioError
        else if (delivered file).length < 4 then some .decodeFailed
        else none

/-- Both readers succeed on the same first four bytes, or both refuse the
object with the promised status. -/
def ReadersAgree (fs : FileSystem) (path : Str) : Prop :=
  match promisedRefusal fs path with
  | some status =>
    readIthmbPrefix fs path = .error status ∧ readIthmbFile fs path = .error status
  | none => ∃ first fileSize bytes, readIthmbPrefix fs path = .ok (first,fileSize) ∧
      readIthmbFile fs path = .ok bytes ∧ first = bytes.take 4

/-- The object passes the size check and opens, and then its reads fail. -/
def OpensUnreadable (fs : FileSystem) (path : Str) : Prop :=
  ∃ fileSize file, fs.metadata path = some fileSize ∧ ¬ fileSize > maxFileSizeBytes ∧
    fs.openFile path = some file ∧ fails file = true

theorem readIthmbFile_refusal (fs : FileSystem) (path : Str) :
    match promisedRefusal fs path with
    | some status => readIthmbFile fs path = .error status
    | none => ∃ file, fs.openFile path = some file ∧
        readIthmbFile fs path = .ok (delivered file) := by
  unfold promisedRefusal readIthmbFile checkFileSize fsRead
  cases fs.metadata path with
  | none => rfl
  | some fileSize =>
    by_cases hsize : fileSize > maxFileSizeBytes
    · simp [hsize]
    · cases fs.openFile path with
      | none => simp [hsize]
      | some file =>
        by_cases hf : fails file = true <;> by_cases hlen : (delivered file).length < 4 <;>
          simp [hsize, readToEnd_eq, hf, hlen]

theorem promisedRefusal_cases (fs : FileSystem) (path : Str) {status : IGStatus}
    (h : promisedRefusal fs path = some status) : status = .ioError ∨ status = .decodeFailed := by
  unfold promisedRefusal at h
  repeat' split at h
  all_goals cases h
  all_goals simp

theorem readIthmbFile_error {fs : FileSystem} {path : Str} {status : IGStatus}
    (h : readIthmbFile fs path = .error status) : status = .ioError ∨ status = .decodeFailed := by
  have hr := readIthmbFile_refusal fs path
  cases hp : promisedRefusal fs path with
  | some s =>
    rw [hp, h] at hr
    cases hr
    exact promisedRefusal_cases fs path hp
  | none =>
    rw [hp, h] at hr
    obtain ⟨file, -, hok⟩ := hr
    cases hok

theorem readIthmbPrefix_refusal (fs : FileSystem) (path : Str) (h : ¬ OpensUnreadable fs path) :
    match promisedRefusal fs path with
    | some status => readIthmbPrefix fs path = .error status
    | none => ∃ file fileSize, fs.openFile path = some file ∧
        readIthmbPrefix fs path = .ok ((delivered file).take 4,fileSize) := by
  unfold OpensUnreadable at h
  unfold promisedRefusal readIthmbPrefix checkFileSize
  cases hm : fs.metadata path with
  | none => rfl
  | some fileSize =>
    by_cases hsize : fileSize > maxFileSizeBytes
    · simp [hsize]
    · cases ho : fs.openFile path with
      | none => simp [hsize]
      | some file =>
        have hf : ¬ fails file = true := fun hf => h ⟨fileSize, file, hm, hsize, ho, hf⟩
        by_cases hlen : 4 ≤ (delivered file).length
        · simp [hsize, readExact_eq, hf, hlen, Nat.not_lt.mpr hlen]
        · simp [hsize, readExact_eq, hf, hlen, Nat.lt_of_not_le hlen]

/-- For an object whose reads deliver everything or fail from the start, the
two readers agree exactly when it is not one that opens and then cannot be
read, such as a directory: the prefix reader maps that failure to the status
of a short file. -/
theorem readers_agree_iff (fs : FileSystem) (path : Str)
    (hwhole : ∀ file, fs.openFile path = some file → WholeOrNothing file) :
    ReadersAgree fs path ↔ ¬ OpensUnreadable fs path := by
  constructor
  · rintro h ⟨fileSize, file, hm, hsize, ho, hf⟩
    have hnone : delivered file = [] := hwhole file ho hf
    simp [ReadersAgree, promisedRefusal, readIthmbPrefix, checkFileSize, hm, hsize, ho, hf,
      readExact_eq, hnone] at h
  · intro h
    have hfull := readIthmbFile_refusal fs path
    have hfirst := readIthmbPrefix_refusal fs path h
    unfold ReadersAgree
    cases hr : promisedRefusal fs path with
    | some status =>
      rw [hr] at hfull hfirst
      exact ⟨hfirst, hfull⟩
    | none =>
      rw [hr] at hfull hfirst
      obtain ⟨file, ho, hok⟩ := hfull
      obtain ⟨file', fileSize, ho', hok'⟩ := hfirst
      cases ho.symm.trans ho'
      exact ⟨_, fileSize, _, hok', hok, rfl⟩

def regularFile : FileSystem where
  metadata := fun _ => some 4
  openFile := fun _ => some [.data [0,0], .interrupted, .data [4,0]]

theorem readers_agree_regular : ReadersAgree regularFile ['a'] := by
  refine (readers_agree_iff regularFile ['a'] ?_).mpr ?_
  · intro file hfile
    cases hfile
    decide
  · rintro ⟨fileSize, file, -, -, hfile, hf⟩
    cases hfile
    exact absurd hf (by decide)

def directory : FileSystem where
  metadata := fun _ => some 4096
  openFile := fun _ => some [.failed]

theorem readers_disagree_directory :
    ¬ ∀ fs path, (∀ file, fs.openFile path = some file → WholeOrNothing file) →
      ReadersAgree fs path := by
  intro h
  have hd := h directory ['d'] (by intro file hfile; cases hfile; decide)
  have hp : readIthmbPrefix directory ['d'] = .error .ioError := hd.1
  exact absurd hp (by decide)

end IthmbPlugin.FileIo
