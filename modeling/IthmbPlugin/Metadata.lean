import IthmbPlugin.Strings
import IthmbPlugin.FileIo
import IthmbPlugin.Library.MachineInt
import IthmbPlugin.Library.Utf8Text
import Mathlib.Data.List.DropRight

/-!
# Loading metadata

The four-byte prefix of a file selects formats by a table of descriptions, of
which the first that reads as dimensions counts, and otherwise a profile of a
built-in database. Both tables are parameters. The host's struct is written in
one place, after everything that can fail.
-/

set_option autoImplicit false

namespace IthmbPlugin.Metadata
open IthmbPlugin.Types IthmbPlugin.Strings IthmbPlugin.FileIo IthmbPlugin.ByteStream
open IthmbPlugin.MachineInt IthmbPlugin.Utf8Text

def isWhitespace (c : Char) : Bool :=
  let n := c.toNat
  (0x9 ≤ n && n ≤ 0xD) || n == 0x20 || n == 0x85 || n == 0xA0 || n == 0x1680 ||
    (0x2000 ≤ n && n ≤ 0x200A) || n == 0x2028 || n == 0x2029 || n == 0x202F || n == 0x205F ||
    n == 0x3000

def trim (s : Str) : Str := (s.dropWhile isWhitespace).rdropWhile isWhitespace

def isAsciiDigit (c : Char) : Bool := '0' ≤ c && c ≤ '9'

def parseDigits (result : ℕ) : Str → Option ℕ
  | [] => some result
  | c::rest =>
    if isAsciiDigit c then
      (usizeCheckedMul result 10).bind fun tens =>
        (usizeCheckedAdd tens (c.toNat - '0'.toNat)).bind fun next => parseDigits next rest
    else none

/-- `str::parse::<usize>`, whose errors are all dropped: a plus sign may stand
first, and the empty text and a lone sign are refused. -/
def parseUsize (s : Str) : Option ℕ :=
  match s with
  | [] => none
  | c::rest =>
    if c = '+' then (if rest = [] then none else parseDigits 0 rest) else parseDigits 0 (c::rest)

def cross : Char := '×'

/-- Nothing when a slice panics. -/
def parseDimensions (desc : Str) : Option (Option (ℕ × ℕ)) :=
  match find cross desc with
  | none => some none
  | some n =>
    (sliceTo desc n).bind fun left =>
      match parseUsize (trim left) with
      | none => some none
      | some width =>
        (sliceFrom desc (n+cross.utf8Size)).bind fun rest =>
          match parseUsize (rest.takeWhile isAsciiDigit) with
          | none => some none
          | some height => some (some (width,height))

theorem parseDimensions_total (desc : Str) : ∃ dims, parseDimensions desc = some dims := by
  cases hf : find cross desc with
  | none => exact ⟨none, by rw [parseDimensions, hf]⟩
  | some n =>
    obtain ⟨left, right, rfl, -, rfl⟩ := find_split hf
    rw [parseDimensions, hf]
    simp only [sliceTo_found, sliceFrom_found, Option.bind_some]
    cases parseUsize (trim left) with
    | none => exact ⟨none, rfl⟩
    | some width =>
      cases parseUsize (right.takeWhile isAsciiDigit) with
      | none => exact ⟨none, rfl⟩
      | some height => exact ⟨some (width,height), rfl⟩

def dimensionsIn (desc : Str) : Option (ℕ × ℕ) := (parseDimensions desc).join

/-- `find_map(parse_dimensions)` over the descriptions of the formats; nothing
when one of the calls panics. -/
def findDimensions : List Str → Option (Option (ℕ × ℕ))
  | [] => some none
  | desc::rest =>
    match parseDimensions desc with
    | none => none
    | some (some dims) => some (some dims)
    | some none => findDimensions rest

theorem findDimensions_eq (descs : List Str) :
    findDimensions descs = some (descs.findSome? dimensionsIn) := by
  induction descs with
  | nil => rfl
  | cons desc rest ih =>
    obtain ⟨dims, hdims⟩ := parseDimensions_total desc
    rw [findDimensions, List.findSome?_cons, dimensionsIn, hdims]
    cases dims with
    | none => exact ih
    | some dims => rfl

/-- The profile database maps a prefix to display width and height. -/
structure ProfileDb where
  get : Int32 → Option (ℕ × ℕ)

structure IthmbCore where
  findFormatsById : Int32 → List Str
  loadBuiltin : Option ProfileDb

def i32FromBeBytes (bytes : List UInt8) : Int32 :=
  Int32.ofNat (bytes.foldl (fun n b => n*256+b.toNat) 0)

def fillImageInfo (_info : IGImageInfo) (width height : ℕ) (fileSize : Int64) : IGImageInfo where
  width := asI32 width
  height := asI32 height
  pixelFormat := 1
  hasAlpha := 1
  hdrTransferFn := 0
  colorSpace := 1
  orientation := 0
  frameCount := 1
  fileSizeBytes := fileSize
  iccProfileData := null
  iccProfileSize := 0

def profileDimensions (core : IthmbCore) (id : Int32) : Except IGStatus (ℕ × ℕ) :=
  match core.loadBuiltin with
  | none => .error .internal
  | some db =>
    match db.get id with
    | none => .error .notImplemented
    | some dims => .ok dims

theorem profileDimensions_ok_iff (core : IthmbCore) (id : Int32) (dims : ℕ × ℕ) :
    profileDimensions core id = .ok dims ↔
      ∃ db, core.loadBuiltin = some db ∧ db.get id = some dims := by
  unfold profileDimensions
  cases core.loadBuiltin with
  | none => simp
  | some db => cases hget : db.get id <;> simp [hget]

theorem profileDimensions_error {core : IthmbCore} {id : Int32} {status : IGStatus}
    (h : profileDimensions core id = .error status) :
    (core.loadBuiltin = none ∧ status = .internal) ∨
    (core.loadBuiltin ≠ none ∧ status = .notImplemented) := by
  unfold profileDimensions at h
  cases hdb : core.loadBuiltin with
  | none => simpa [hdb, eq_comm] using h
  | some db => cases hget : db.get id <;> simp_all

/-- A panic anywhere is answered with an internal error. -/
def codecLoadMetadata (core : IthmbCore) (fs : FileSystem) (path : IGStringRef)
    (info : Option IGImageInfo) : IGStatus × Option IGImageInfo :=
  match info with
  | none => (.invalidArg,none)
  | some old =>
    match utf16ToString path with
    | none => (.invalidArg,some old)
    | some pathStr =>
      match readIthmbPrefix fs pathStr with
      | .error status => (status,some old)
      | .ok (prefixBytes,fileSize) =>
        let id := i32FromBeBytes prefixBytes
        match findDimensions (core.findFormatsById id) with
        | none => (.internal,some old)
        | some (some (w,h)) => (.ok,some (fillImageInfo old w h fileSize.toInt64))
        | some none =>
          match profileDimensions core id with
          | .error status => (status,some old)
          | .ok (w,h) => (.ok,some (fillImageInfo old w h fileSize.toInt64))

end IthmbPlugin.Metadata
