import IthmbPlugin.Decode

/-!
# The size limit

The limit is compared with the length stat reports, and the read that follows
has none. What is read, and handed to the decoder, stays within the limit
exactly when the opened object does not deliver more than was let through: it
may have grown or been replaced meanwhile, or be of a kind that reports no
length at all.
-/

set_option autoImplicit false

namespace IthmbPlugin.FileLimit
open IthmbPlugin.Types IthmbPlugin.Strings IthmbPlugin.FileIo IthmbPlugin.ByteStream
open IthmbPlugin.Registry IthmbPlugin.Allocator IthmbPlugin.Decode

def maxLength : ℕ := maxFileSizeBytes.toNat

/-- What is read has at least a prefix and is within the limit. -/
def ReadsWithinLimit (fs : FileSystem) (pathStr : Str) : Prop :=
  ∀ bytes, readIthmbFile fs pathStr = .ok bytes → 4 ≤ bytes.length ∧ bytes.length ≤ maxLength

/-- A decode call is never decided by what the decoder does with longer input:
decoders that agree within the limit give the same call. -/
def DecodesWithinLimit (fs : FileSystem) (pathStr : Str) : Prop :=
  ∀ hostApi decodeIthmb decodeIthmb' malloc path frameIndex buffer registry m,
    utf16ToString path = some pathStr →
    (∀ bytes canceled, bytes.length ≤ maxLength →
      decodeIthmb bytes canceled = decodeIthmb' bytes canceled) →
    codecDecodeStaticRaster ⟨fs, hostApi, decodeIthmb⟩ malloc path frameIndex buffer registry m =
      codecDecodeStaticRaster ⟨fs, hostApi, decodeIthmb'⟩ malloc path frameIndex buffer registry m

/-- The reported size passes the check, and reading on to the end of the object
meets no failure and more content than the limit. -/
def Outgrows (fs : FileSystem) (pathStr : Str) : Prop :=
  ∃ fileSize file, fs.metadata pathStr = some fileSize ∧ fileSize ≤ maxFileSizeBytes ∧
    fs.openFile pathStr = some file ∧ fails file = false ∧ maxLength < (delivered file).length

theorem outgrows_reads {fs : FileSystem} {pathStr : Str} (h : Outgrows fs pathStr) :
    ∃ bytes, readIthmbFile fs pathStr = .ok bytes ∧ maxLength < bytes.length := by
  obtain ⟨fileSize, file, hmeta, hsize, hopen, hfails, hlong⟩ := h
  have hcheck := (checkFileSize_ok_iff fs pathStr fileSize).mpr ⟨hmeta, hsize⟩
  have hread := (fsRead_some_iff fs pathStr _).mpr ⟨file, hopen, hfails, rfl⟩
  have hprefix : 4 ≤ (delivered file).length := Nat.le_trans (by decide) (Nat.le_of_lt hlong)
  exact ⟨_, (readIthmbFile_ok_iff fs pathStr _).mpr ⟨⟨fileSize, hcheck⟩, hread, hprefix⟩, hlong⟩

theorem reads_within_iff (fs : FileSystem) (pathStr : Str) :
    ReadsWithinLimit fs pathStr ↔ ¬ Outgrows fs pathStr := by
  constructor
  · intro h hgrow
    obtain ⟨bytes, hok, hlong⟩ := outgrows_reads hgrow
    exact absurd (h bytes hok).2 (Nat.not_le.mpr hlong)
  · intro h bytes hok
    obtain ⟨⟨fileSize, hcheck⟩, hread, hge⟩ := (readIthmbFile_ok_iff fs pathStr bytes).mp hok
    obtain ⟨hmeta, hsize⟩ := (checkFileSize_ok_iff fs pathStr fileSize).mp hcheck
    obtain ⟨file, hopen, hfails, rfl⟩ := (fsRead_some_iff fs pathStr bytes).mp hread
    refine ⟨hge, Nat.not_lt.mp fun hlong => ?_⟩
    exact h ⟨fileSize, file, hmeta, hsize, hopen, hfails, hlong⟩

theorem decodeImage_congr {fs : FileSystem} {pathStr : Str}
    {decodeIthmb decodeIthmb' : List UInt8 → Bool → DecodeOutcome} {path : IGStringRef}
    (hpath : utf16ToString path = some pathStr)
    (h : ∀ bytes, readIthmbFile fs pathStr = .ok bytes →
      decodeIthmb bytes false = decodeIthmb' bytes false)
    (hostApi : Option IGHostApi) (frameIndex : Int32) (bufferNull : Bool) :
    decodeImage ⟨fs, hostApi, decodeIthmb⟩ path frameIndex bufferNull =
      decodeImage ⟨fs, hostApi, decodeIthmb'⟩ path frameIndex bufferNull := by
  simp only [decodeImage, hpath]
  cases hread : readIthmbFile fs pathStr with
  | error status => rfl
  | ok bytes => simp only [h bytes hread]

theorem decodes_within {fs : FileSystem} {pathStr : Str} (h : ReadsWithinLimit fs pathStr) :
    DecodesWithinLimit fs pathStr := by
  intro hostApi decodeIthmb decodeIthmb' malloc path frameIndex buffer registry m hpath hagree
  have himage := decodeImage_congr hpath
    (fun bytes hok => hagree bytes false (h bytes hok).2) hostApi frameIndex buffer.isNone
  simp only [codecDecodeStaticRaster, himage]

theorem decodes_within_iff {fs : FileSystem} {pathStr : Str} {path : IGStringRef}
    (hpath : utf16ToString path = some pathStr) :
    DecodesWithinLimit fs pathStr ↔ ¬ Outgrows fs pathStr := by
  constructor
  · intro h hgrow
    obtain ⟨bytes, hok, hlong⟩ := outgrows_reads hgrow
    have hsame := h none (fun _ _ => .panicked)
      (fun bytes _ => if bytes.length ≤ maxLength then .panicked else .failed .io)
      (fun _ => null) path 0 (some ⟨null, 0, 0, 0, 0, null⟩) none .empty hpath
      (fun bytes _ hle => (if_pos hle).symm)
    have hstatus := congrArg DecodeResult.status hsame
    simp [codecDecodeStaticRaster, decodeImage, hpath, hok, Nat.not_le.mpr hlong,
      igStatusFromDecodeError] at hstatus
  · intro h
    exact decodes_within ((reads_within_iff fs pathStr).mpr h)

/-- Whatever happens between the stat call and the last read: what is read and
what is decoded keep to the limit exactly when the object does not outgrow it. -/
theorem size_limit_iff (fs : FileSystem) (pathStr : Str) :
    ReadsWithinLimit fs pathStr ∧ DecodesWithinLimit fs pathStr ↔ ¬ Outgrows fs pathStr := by
  constructor
  · rintro ⟨hreads, -⟩
    exact (reads_within_iff fs pathStr).mp hreads
  · intro h
    have hreads := (reads_within_iff fs pathStr).mpr h
    exact ⟨hreads, decodes_within hreads⟩

def grownFile (n : ℕ) : FileSystem where
  metadata := fun _ => some 4
  openFile := fun _ => some [.data (List.replicate n 0)]

theorem grown_outgrows {n : ℕ} (hn : maxLength < n) (pathStr : Str) :
    Outgrows (grownFile n) pathStr := by
  obtain ⟨k, rfl⟩ := Nat.exists_eq_succ_of_ne_zero (Nat.ne_zero_of_lt hn)
  refine ⟨4, _, rfl, by decide, rfl, rfl, ?_⟩
  simpa [List.replicate_succ, delivered] using hn

/-- One byte more than the limit is read and decoded. -/
theorem size_limit_grown :
    ¬ ReadsWithinLimit (grownFile (maxLength+1)) ['a'] ∧
    ¬ DecodesWithinLimit (grownFile (maxLength+1)) ['a'] := by
  have hgrow := grown_outgrows (Nat.lt_succ_self maxLength) ['a']
  constructor
  · intro h
    exact (reads_within_iff _ _).mp h hgrow
  · intro h
    have hpath : utf16ToString { data := some ⟨16,[0x61]⟩, length := 1 } = some ['a'] := by decide
    exact (decodes_within_iff hpath).mp h hgrow

end IthmbPlugin.FileLimit
