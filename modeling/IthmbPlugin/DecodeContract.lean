import IthmbPlugin.Decode

/-!
# What a single decode call guarantees

A call that does not succeed leaves the host's struct, the registry and the
live allocations as they were. A call that succeeds adds one allocation and
one registry entry, under the published pointer. The decoder is assumed to
return four bytes for each pixel of the dimensions it reports; the dimensions
themselves are narrowed before any check, so they need not survive.
-/

set_option autoImplicit false

namespace IthmbPlugin.DecodeContract
open IthmbPlugin.Types IthmbPlugin.Strings IthmbPlugin.FileIo IthmbPlugin.Registry
open IthmbPlugin.Allocator IthmbPlugin.AllocTrace IthmbPlugin.MachineInt IthmbPlugin.Decode

/-- `decoded.data` holds exactly four bytes per pixel. -/
def DecoderContract (decodeIthmb : List UInt8 → Bool → DecodeOutcome) : Prop :=
  ∀ bytes canceled img, decodeIthmb bytes canceled = .image img →
    img.data.length = 4*img.width*img.height

def Untouched (buffer : Option IGPixelBuffer) (r : BufferRegistry) (m : Memory)
    (result : DecodeResult) : Prop :=
  result.buffer = buffer ∧ result.registry = some r ∧ result.memory.live = m.live

/-- One new allocation and one new entry, both under the published pointer. -/
def PublishedOne (r : BufferRegistry) (m : Memory) (result : DecodeResult) : Prop :=
  ∃ published block size, result.buffer = some published ∧ published.data ≠ null ∧
    published.data ∉ m.live ∧ published.data ∉ r.entries ∧
    result.memory.live = m.live.insert published.data block ∧
    result.registry = some (r.track published.data size)

theorem frame_fits {img : DecodedImage} {f : Frame} (hf : frameOf img = some f)
    (hlen : img.data.length = 4*img.width*img.height) (hn : f.bufSize ≤ isizeMax) :
    f.bufSize ≤ f.data.length := by
  obtain ⟨hw, hh, hd⟩ := frameOf_some hf
  have hmul := usizeCheckedMul_some f.size_checked
  by_cases h0 : f.bufSize = 0
  · rw [h0]
    exact Nat.zero_le _
  · obtain ⟨hhpos, hspos⟩ := extended_factors_positive _ _ (hmul ▸ h0) (hmul ▸ hn)
    have hstride := f.stride_exact
    have hwpos : 0 ≤ f.width.toInt := by omega
    have hwle : f.width.toInt ≤ img.width := by
      rw [hw] at hwpos ⊢
      exact asI32_le_of_nonneg _ hwpos
    have hhle : f.height.toInt ≤ img.height := by
      rw [hh] at hhpos ⊢
      exact asI32_le_of_nonneg _ (le_of_lt hhpos)
    have hexact := f.size_exact hn
    have hbound : (f.bufSize:ℤ) ≤ img.height*(img.width*4) := by
      rw [hexact, hstride]
      exact mul_le_mul hhle (by omega) (by omega) (by omega)
    rw [hd, hlen]
    zify
    linarith [hbound]

theorem filled_copies_fit {img : DecodedImage} {f : Frame} (hf : frameOf img = some f)
    (hlen : img.data.length = 4*img.width*img.height) {p : Addr} (hp : p ≠ null)
    (hn : f.bufSize ≤ isizeMax) (m : Memory) (hm : CopiesFit m.trace) :
    CopiesFit (copyNonoverlapping f.data p f.bufSize
      (pixelBufferAlloc p f.bufSize m)).trace := by
  rw [filled_trace hp]
  exact ⟨frame_fits hf hlen hn, ⟨f.bufSize, by simp [sizeAt], le_refl _⟩, hm⟩

/-- Decode is all or nothing. For every path, frame index, buffer pointer,
file system, decoder, registry state and answer of malloc, a status other than
success leaves everything untouched and success adds exactly one block and one
entry. With a malloc that refuses requests no object can have, no copy leaves
its bounds. -/
theorem decode_all_or_nothing (env : DecodeEnv) (malloc : ℕ → Addr) (path : IGStringRef)
    (frameIndex : Int32) (buffer : Option IGPixelBuffer) (r : BufferRegistry) (m : Memory)
    (hdec : DecoderContract env.decodeIthmb)
    (hfresh : ∀ n, malloc n = null ∨ malloc n ∉ m.live) :
    let result := codecDecodeStaticRaster env malloc path frameIndex buffer (some r) m
    (result.status ≠ .ok → Untouched buffer r m result) ∧
    (result.status = .ok → PublishedOne r m result) ∧
    ((∀ n, isizeMax < n → malloc n = null) → CopiesFit m.trace →
      CopiesFit result.memory.trace) := by
  intro result
  rcases himg : decodeImage env path frameIndex buffer.isNone with ⟨status | img, logs⟩
  · have hres : result = ⟨status, buffer, some r, m, logs⟩ := decode_refused himg malloc _ m
    rw [hres]
    exact ⟨fun _ => ⟨rfl, rfl, rfl⟩, fun h => absurd h (decodeImage_not_ok himg), fun _ hm => hm⟩
  · obtain ⟨bytes, hbytes⟩ := decodeImage_ok_decoder himg
    have hlen := hdec _ _ _ hbytes
    have hserved : (∀ n, isizeMax < n → malloc n = null) → ∀ n, malloc n ≠ null →
        n ≤ isizeMax := fun hb n hn => Nat.le_of_not_lt (fun hlt => hn (hb n hlt))
    obtain ⟨b, rfl⟩ : ∃ b, buffer = some b :=
      Option.isSome_iff_exists.mp (by simpa using decodeImage_ok_buffer himg)
    rcases decode_outcome himg malloc b r m with
      hres | ⟨f, hf, hp, hreg, hres⟩ | ⟨f, hf, hp, hreg, hres⟩ <;> rw [show result = _ from hres]
    · exact ⟨fun _ => ⟨rfl, rfl, rfl⟩, fun h => (by cases h), fun _ hm => hm⟩
    · have hnot := (hfresh f.bufSize).resolve_left hp
      refine ⟨fun _ => ⟨rfl, rfl, filled_free_live hp hnot _ _ _⟩, fun h => (by cases h), ?_⟩
      intro hb hm
      exact filled_copies_fit hf hlen hp (hserved hb _ hp) m hm
    · have hnot := (hfresh f.bufSize).resolve_left hp
      refine ⟨fun h => absurd rfl h, fun _ => ?_, ?_⟩
      · exact ⟨f.publish (malloc f.bufSize), _, _, rfl, hp, hnot, hreg.2, filled_live hp _ _ _ _,
          rfl⟩
      · intro hb hm
        exact filled_copies_fit hf hlen hp (hserved hb _ hp) m hm

def servingEnv (img : DecodedImage) : DecodeEnv where
  fs := regularFile
  hostApi := none
  decodeIthmb := fun _ _ => .image img

def somePath : IGStringRef := { data := some ⟨16,[0x61]⟩, length := 1 }

def emptyBuffer : IGPixelBuffer := ⟨null, 0, 0, 0, 0, null⟩

def oneBlock (n : ℕ) : Addr := if n ≤ isizeMax then 8 else null

theorem serving_decodes (img : DecodedImage) :
    decodeImage (servingEnv img) somePath 0 false = (.ok img,[]) := rfl

theorem decode_all_or_nothing_pixel :
    let result := codecDecodeStaticRaster (servingEnv ⟨1, 1, [1,2,3,4]⟩) oneBlock somePath 0
      (some emptyBuffer) (some BufferRegistry.new) Memory.empty
    PublishedOne BufferRegistry.new Memory.empty result ∧ CopiesFit result.memory.trace := by
  have h := decode_all_or_nothing (servingEnv ⟨1, 1, [1,2,3,4]⟩) oneBlock somePath 0
    (some emptyBuffer) BufferRegistry.new Memory.empty (by rintro bytes canceled img ⟨⟩; rfl)
    (fun n => Or.inr Finmap.notMem_empty)
  exact ⟨h.2.1 (by decide), h.2.2 (fun n hn => if_neg (Nat.not_le.mpr hn)) trivial⟩

/-- What malloc promises: an address that is not live, and nothing for more
bytes than an object can have. -/
structure MallocContract (malloc : ℕ → Addr) (m : Memory) : Prop where
  fresh : ∀ n, malloc n = null ∨ malloc n ∉ m.live
  bounded : ∀ n, isizeMax < n → malloc n = null

/-- Either nothing is published, or every size is the exact one: the published
dimensions, the malloc request, the copy, the registry entry and the bytes. -/
def SizeExact (img : DecodedImage) (buffer : IGPixelBuffer) (r : BufferRegistry) (m : Memory)
    (result : DecodeResult) : Prop :=
  ((result.status = .outOfMemory ∨ result.status = .internal) ∧
    Untouched (some buffer) r m result) ∨
  (result.status = .ok ∧ ∃ published block, result.buffer = some published ∧
    published.width.toInt = img.width ∧ published.height.toInt = img.height ∧
    published.stride.toInt = 4*img.width ∧
    (img.data.length:ℤ) = published.height.toInt*published.stride.toInt ∧
    result.memory.trace = .copy published.data img.data.length img.data.length::
      .malloc published.data img.data.length::m.trace ∧
    result.registry = some (r.track published.data img.data.length) ∧
    result.memory.live.lookup published.data = some block ∧
    block.size = img.data.length ∧ block.bytes = img.data)

/-- The dimensions survive the narrowing to 32 bits, or the narrowed ones are
refused: four times the width overflows, or a negative one meets a non-zero
other. -/
def NarrowingHarmless (w h : ℕ) : Prop :=
  (w < 2^31 ∧ h < 2^31) ∨
  (2^29 ≤ w % 2^32 ∧ w % 2^32 < 2^32-2^29) ∨
  (w % 2^32 ≠ 0 ∧ h % 2^32 ≠ 0 ∧ (2^29 ≤ w % 2^32 ∨ 2^31 ≤ h % 2^32))

instance (w h : ℕ) : Decidable (NarrowingHarmless w h) := inferInstanceAs (Decidable (_ ∨ _))

theorem frame_not_wide {img : DecodedImage} {f : Frame} (hf : frameOf img = some f) :
    ¬ (2^29 ≤ img.width % 2^32 ∧ img.width % 2^32 < 2^32-2^29) := by
  have hstride := f.stride_exact
  have hlt := f.stride.toInt_lt
  have hle := f.stride.le_toInt
  rw [(frameOf_some hf).1, asI32_toInt] at hstride
  omega

theorem frame_oversized_of_negative {img : DecodedImage} {f : Frame} (hf : frameOf img = some f)
    (hw0 : img.width % 2^32 ≠ 0) (hh0 : img.height % 2^32 ≠ 0)
    (hneg : 2^29 ≤ img.width % 2^32 ∨ 2^31 ≤ img.height % 2^32) : isizeMax < f.bufSize := by
  obtain ⟨hw, hh, -⟩ := frameOf_some hf
  have hstride := f.stride_exact
  have hmul := usizeCheckedMul_some f.size_checked
  have hwide := frame_not_wide hf
  have hwi := asI32_toInt img.width
  have hhi := asI32_toInt img.height
  rw [← hw] at hwi
  rw [← hh] at hhi
  have hs0 : asUsize f.stride ≠ 0 := mt (asUsize_eq_zero_iff f.stride).mp (by omega)
  have hz0 : asUsize f.height ≠ 0 := mt (asUsize_eq_zero_iff f.height).mp (by omega)
  by_contra hsmall
  have hpos := extended_factors_positive f.height f.stride (Nat.mul_ne_zero hz0 hs0) (by omega)
  omega

theorem exact_of_narrow {img : DecodedImage} {f : Frame} (hf : frameOf img = some f)
    (hlen : img.data.length = 4*img.width*img.height) (hw : img.width < 2^31)
    (hh : img.height < 2^31) (hn : f.bufSize ≤ isizeMax) :
    f.width.toInt = img.width ∧ f.height.toInt = img.height ∧ f.stride.toInt = 4*img.width ∧
      f.bufSize = img.data.length := by
  obtain ⟨hfw, hfh, -⟩ := frameOf_some hf
  have hwi : f.width.toInt = img.width := by rw [hfw]; exact (asI32_exact_iff _).mpr hw
  have hhi : f.height.toInt = img.height := by rw [hfh]; exact (asI32_exact_iff _).mpr hh
  have hstride := f.stride_exact
  refine ⟨hwi, hhi, by omega, ?_⟩
  have hexact := f.size_exact hn
  rw [hstride, hwi, hhi] at hexact
  rw [hlen]
  zify
  linarith

theorem size_exact_of_harmless {img : DecodedImage}
    (hlen : img.data.length = 4*img.width*img.height)
    (hharm : NarrowingHarmless img.width img.height) (env : DecodeEnv) (path : IGStringRef)
    (frameIndex : Int32) (buffer : IGPixelBuffer) (r : BufferRegistry) (m : Memory)
    (malloc : ℕ → Addr) (logs : List LogRecord)
    (himg : decodeImage env path frameIndex false = (.ok img,logs))
    (hm : MallocContract malloc m) :
    SizeExact img buffer r m
      (codecDecodeStaticRaster env malloc path frameIndex (some buffer) (some r) m) := by
  have hsteps := decode_outcome himg malloc buffer r m
  generalize codecDecodeStaticRaster env malloc path frameIndex (some buffer) (some r) m = result
    at hsteps
  rcases hsteps with rfl | ⟨f, hf, hp, hreg, rfl⟩ | ⟨f, hf, hp, hreg, rfl⟩
  · exact Or.inl ⟨Or.inl rfl, rfl, rfl, rfl⟩
  · have hnot := (hm.fresh f.bufSize).resolve_left hp
    exact Or.inl ⟨Or.inr rfl, rfl, rfl, filled_free_live hp hnot _ _ _⟩
  · have hn : f.bufSize ≤ isizeMax := Nat.le_of_not_lt (fun hlt => hp (hm.bounded _ hlt))
    rcases hharm with ⟨hw, hh⟩ | hwide | ⟨hw0, hh0, hneg⟩
    · obtain ⟨hwi, hhi, hsi, hbuf⟩ := exact_of_narrow hf hlen hw hh hn
      have hdata := (frameOf_some hf).2.2
      have hprod := f.size_exact hn
      rw [hbuf] at hprod
      refine Or.inr ⟨rfl, f.publish (malloc f.bufSize), _, rfl, hwi, hhi, hsi, hprod, ?_, ?_,
        by rw [filled_live hp, Frame.publish, Finmap.lookup_insert], hbuf, ?_⟩
      · change (copyNonoverlapping _ _ _ _).trace = _
        rw [filled_trace hp, hdata, hbuf]
        rfl
      · rw [hbuf]
        rfl
      · rw [hdata, hbuf, List.take_length]
    · exact absurd hwide (frame_not_wide hf)
    · exact absurd hn (Nat.not_le.mpr (frame_oversized_of_negative hf hw0 hh0 hneg))

theorem frame_of_harmful {img : DecodedImage} (h : ¬ NarrowingHarmless img.width img.height) :
    ∃ f, frameOf img = some f ∧ f.bufSize ≤ isizeMax := by
  unfold NarrowingHarmless at h
  have hwi := asI32_toInt img.width
  have hhi := asI32_toInt img.height
  have hstride : i32CheckedMul (asI32 img.width) 4 = some (asI32 img.width*4) := by
    have h4 : (4:Int32).toInt = 4 := rfl
    rw [i32CheckedMul, h4, if_pos (by omega)]
  have hs := i32CheckedMul_some hstride
  have h4 : (4:Int32).toInt = 4 := rfl
  rw [h4] at hs
  generalize asI32 img.width*4 = stride at hstride hs
  have hprod : asUsize (asI32 img.height)*asUsize stride ≤ isizeMax := by
    by_cases h0 : (asI32 img.height).toInt = 0 ∨ stride.toInt = 0
    · rcases h0 with h0 | h0
      · rw [(asUsize_eq_zero_iff _).mpr h0, Nat.zero_mul]
        exact Nat.zero_le _
      · rw [(asUsize_eq_zero_iff _).mpr h0, Nat.mul_zero]
        exact Nat.zero_le _
    · have hhu := asUsize_of_nonneg (asI32 img.height) (by omega)
      have hsu := asUsize_of_nonneg stride (by omega)
      have hle : asUsize (asI32 img.height)*asUsize stride ≤ 2^31*2^31 :=
        Nat.mul_le_mul (by omega) (by omega)
      exact hle.trans (by decide)
  have hz : usizeCheckedMul (asUsize (asI32 img.height)) (asUsize stride) =
      some (asUsize (asI32 img.height)*asUsize stride) :=
    if_pos (hprod.trans (by decide))
  obtain ⟨f, hf, -, hbuf⟩ := frameOf_of_checks img stride _ hstride hz
  exact ⟨f, hf, hbuf ▸ hprod⟩

theorem oneBlock_contract : MallocContract oneBlock Memory.empty where
  fresh _ := Or.inr Finmap.notMem_empty
  bounded _ hn := if_neg (Nat.not_le.mpr hn)

theorem harmful_published {img : DecodedImage} {f : Frame} (hf : frameOf img = some f)
    (hn : f.bufSize ≤ isizeMax) :
    codecDecodeStaticRaster (servingEnv img) oneBlock somePath 0 (some emptyBuffer)
        (some BufferRegistry.new) Memory.empty =
      ⟨.ok, some (f.publish 8), some (BufferRegistry.new.track 8 f.bufSize),
        copyNonoverlapping f.data 8 f.bufSize (pixelBufferAlloc 8 f.bufSize Memory.empty), []⟩ := by
  have hp : oneBlock f.bufSize = 8 := if_pos hn
  have hreg : register BufferRegistry.new 8 f.bufSize =
      (.ok (),BufferRegistry.new.track 8 f.bufSize) := rfl
  have h8 : ¬ (8:Addr) = null := by decide
  simp only [codecDecodeStaticRaster, Option.isNone_some, serving_decodes, hf, hp, if_neg h8, hreg,
    Option.map_some]

/-- Every call that has the image is exact if and only if the narrowing to 32
bits does the dimensions no harm. -/
theorem size_exact_iff (img : DecodedImage)
    (hlen : img.data.length = 4*img.width*img.height) :
    (∀ env path frameIndex buffer r m malloc logs,
      decodeImage env path frameIndex false = (.ok img,logs) → MallocContract malloc m →
      SizeExact img buffer r m
        (codecDecodeStaticRaster env malloc path frameIndex (some buffer) (some r) m)) ↔
    NarrowingHarmless img.width img.height := by
  constructor
  · intro hall
    by_contra hharm
    obtain ⟨f, hf, hn⟩ := frame_of_harmful hharm
    have hexact := hall _ _ _ emptyBuffer BufferRegistry.new Memory.empty oneBlock _
      (serving_decodes img) oneBlock_contract
    rw [harmful_published hf hn] at hexact
    rcases hexact with ⟨hstatus, -⟩ | ⟨-, published, block, hpub, hw, hh, -⟩
    · rcases hstatus with hs | hs <;> cases hs
    · cases hpub
      obtain ⟨hfw, hfh, -⟩ := frameOf_some hf
      change f.width.toInt = _ at hw
      change f.height.toInt = _ at hh
      rw [hfw] at hw
      rw [hfh] at hh
      exact hharm (Or.inl ⟨(asI32_exact_iff _).mp hw, (asI32_exact_iff _).mp hh⟩)
  · intro hharm env path frameIndex buffer r m malloc logs himg hm
    exact size_exact_of_harmless hlen hharm env path frameIndex buffer r m malloc logs himg hm

theorem size_exact_iff_pixel :
    SizeExact ⟨1, 1, [1,2,3,4]⟩ emptyBuffer BufferRegistry.new Memory.empty
      (codecDecodeStaticRaster (servingEnv ⟨1, 1, [1,2,3,4]⟩) oneBlock somePath 0
        (some emptyBuffer) (some BufferRegistry.new) Memory.empty) :=
  (size_exact_iff ⟨1, 1, [1,2,3,4]⟩ rfl).mpr (by decide) _ _ _ _ _ _ _ _
    (serving_decodes _) oneBlock_contract

/-- An image of full width and no rows is published with width minus one. -/
theorem size_inexact_wide :
    ¬ ∀ (img : DecodedImage), img.data.length = 4*img.width*img.height →
      ∀ env path frameIndex buffer r m malloc logs,
        decodeImage env path frameIndex false = (.ok img,logs) → MallocContract malloc m →
        SizeExact img buffer r m
          (codecDecodeStaticRaster env malloc path frameIndex (some buffer) (some r) m) := by
  intro h
  have hexact := h ⟨4294967295, 0, []⟩ rfl _ _ _ emptyBuffer BufferRegistry.new Memory.empty
    oneBlock _ (serving_decodes _) oneBlock_contract
  rcases hexact with ⟨hstatus, -⟩ | ⟨-, published, block, hpub, hw, -⟩
  · exact absurd hstatus (by decide)
  · have hpub' : some published = some ⟨8, -1, 0, -4, 1, null⟩ := hpub.symm.trans (by decide)
    cases hpub'
    exact absurd hw (by decide)

end IthmbPlugin.DecodeContract
