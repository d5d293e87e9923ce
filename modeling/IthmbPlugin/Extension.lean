import IthmbPlugin.EntryPoint
import IthmbPlugin.Library.AsciiCase
import IthmbPlugin.Library.Utf8Text

/-!
# Matching a file extension

The host's log line is built in a fixed buffer first, then the extension is
compared with the two known ones, unit by unit. The bytes in the buffer are
taken for text without a check, so an extension whose bytes are not text has no
behaviour at all. The comparison looks at the low byte of each unit only, so
what it accepts is not only the two extensions in either case.
-/

set_option autoImplicit false

namespace IthmbPlugin.Extension
open IthmbPlugin.Types IthmbPlugin.Strings IthmbPlugin.State IthmbPlugin.AsciiCase
open IthmbPlugin.Runs
open IthmbPlugin.Utf8Text (IsText decode_isSome_iff)

/-- How a block of the source ends. From undefined behaviour nothing goes on,
not even a panic that could be caught. -/
inductive Outcome (α : Type) where
  | value (a : α)
  | panicked
  | undefined
  deriving DecidableEq

def Outcome.map {α β : Type} (f : α → β) : Outcome α → Outcome β
  | .value a => .value (f a)
  | .panicked => .panicked
  | .undefined => .undefined

/-- `u8::try_from(ch).unwrap_or(b'?')`. -/
def extByte (ch : UInt16) : UInt8 := if ch < 0x100 then ch.toUInt8 else 0x3F

/-- The loop that fills the buffer from an index on. Writing past the buffer
panics. -/
def fillExtBuf (units : List UInt16) (i : ℕ) (extBuf : List UInt8) : Option (List UInt8) :=
  match units with
  | [] => some extBuf
  | ch::rest =>
    if i < extBuf.length then fillExtBuf rest (i+1) (extBuf.set i (extByte ch)) else none

/-- `from_utf8_unchecked`, whose argument has to be UTF-8. -/
def fromUtf8Unchecked (bytes : List UInt8) : Outcome Str :=
  match Utf8Text.decode bytes with
  | none => .undefined
  | some s => .value s

def extStr (ext : IGStringRef) : Outcome Str :=
  match ext.data with
  | none => .value "null".toList
  | some ptr =>
    if ext.length ≤ 0 then .value "null".toList
    else
      let slice := fromRawParts ptr ext.length
      let n := min slice.length 32
      match fillExtBuf (slice.take n) 0 (List.replicate 32 0) with
      | none => .panicked
      | some extBuf => fromUtf8Unchecked (extBuf.take n)

def logExtension (hostApi : Option IGHostApi) (ext : IGStringRef) : Outcome (List LogRecord) :=
  match hostApi.bind IGHostApi.core with
  | none => .value []
  | some core => (extStr ext).map fun s =>
      loggerLog (some core) .info ("ithmb-codec: can_handle_extension('".toList++s++"')".toList)

def matchesKnown (ext : IGStringRef) (inputSlice : List UInt16) (knownExt : IGStringRef) : Bool :=
  match knownExt.data with
  | none => false
  | some known =>
    if knownExt.length ≠ ext.length then false
    else (inputSlice.zip (fromRawParts known knownExt.length)).all fun x =>
      eqIgnoreAsciiCase x.1.toUInt8 x.2.toUInt8

def matchExtension (extensions : Option (List IGStringRef)) (ext : IGStringRef) : Int32 :=
  match ext.data with
  | none => 0
  | some ptr =>
    if ext.length ≤ 0 then 0
    else match extensions with
      | none => 0
      | some exts => if exts.any (matchesKnown ext (fromRawParts ptr ext.length)) then 1 else 0

/-- The answer and the records, or nothing where the behaviour is undefined. A
panic is caught and answered with zero. -/
def codecCanHandleExtension (hostApi : Option IGHostApi) (extensions : Option (List IGStringRef))
    (ext : IGStringRef) : Option (Int32 × List LogRecord) :=
  match logExtension hostApi ext with
  | .value logs => some (matchExtension extensions ext,logs)
  | .panicked => some (0,[])
  | .undefined => none

/-- The code units a reference denotes, if it denotes any. -/
def denoted (ext : IGStringRef) : Option (List UInt16) :=
  match ext.data with
  | none => none
  | some ptr => if ext.length ≤ 0 then none else some (fromRawParts ptr ext.length)

theorem fillExtBuf_eq (units : List UInt16) (i : ℕ) (extBuf : List UInt8)
    (h : i+units.length ≤ extBuf.length) :
    fillExtBuf units i extBuf =
      some (extBuf.take i++units.map extByte++extBuf.drop (i+units.length)) := by
  induction units generalizing i extBuf with
  | nil => simp [fillExtBuf]
  | cons ch rest ih =>
    rw [List.length_cons] at h
    have hi : i < extBuf.length := by omega
    rw [fillExtBuf, if_pos hi, ih (i+1) _ (by rw [List.length_set]; omega)]
    have htake : (extBuf.set i (extByte ch)).take (i+1) = extBuf.take i++[extByte ch] := by
      rw [List.take_set, List.take_succ_eq_append_getElem hi, List.set_append_right _ _ (by simp)]
      simp [Nat.min_eq_left (Nat.le_of_lt hi)]
    have hdrop : (extBuf.set i (extByte ch)).drop (i+1+rest.length) =
        extBuf.drop (i+(rest.length+1)) := by
      rw [List.drop_set_of_lt (by omega), Nat.add_right_comm, Nat.add_assoc]
    rw [htake, hdrop, List.map_cons, List.length_cons]
    simp

theorem fillExtBuf_slice (slice : List UInt16) :
    ∃ extBuf, fillExtBuf (slice.take (min slice.length 32)) 0 (List.replicate 32 0) =
        some extBuf ∧
      extBuf.take (min slice.length 32) = (slice.take 32).map extByte := by
  have htake : slice.take (min slice.length 32) = slice.take 32 := by
    rw [Nat.min_comm, ← List.take_take, List.take_length]
  have hkept : (slice.take 32).length = min slice.length 32 := by
    rw [List.length_take, Nat.min_comm]
  have hfit : 0+(slice.take 32).length ≤ (List.replicate 32 (0:UInt8)).length := by
    rw [hkept, List.length_replicate]
    omega
  refine ⟨_, by rw [htake]; exact fillExtBuf_eq _ _ _ hfit, ?_⟩
  rw [← hkept, List.take_zero, List.nil_append, List.take_append_of_le_length (by simp)]
  exact List.take_of_length_le (by simp)

theorem extStr_null {ext : IGStringRef} (h : denoted ext = none) :
    extStr ext = .value "null".toList := by
  unfold denoted at h
  unfold extStr
  cases hdata : ext.data with
  | none => rfl
  | some ptr =>
    rw [hdata] at h
    by_cases hlen : ext.length ≤ 0
    · simp only [if_pos hlen]
    · simp [hlen] at h

theorem extStr_denoted {ext : IGStringRef} {u : List UInt16} (h : denoted ext = some u) :
    extStr ext = fromUtf8Unchecked ((u.take 32).map extByte) := by
  unfold denoted at h
  unfold extStr
  cases hdata : ext.data with
  | none => simp [hdata] at h
  | some ptr =>
    rw [hdata] at h
    by_cases hlen : ext.length ≤ 0
    · simp [hlen] at h
    · simp only [if_neg hlen, Option.some.injEq] at h
      obtain ⟨extBuf, hfill, hbytes⟩ := fillExtBuf_slice u
      simp only [if_neg hlen, h, hfill, hbytes]

/-- With a core to log to, the bytes made of the first units are text. -/
def Loggable (hostApi : Option IGHostApi) (ext : IGStringRef) : Prop :=
  hostApi.bind IGHostApi.core ≠ none → ∀ u ∈ denoted ext, IsText ((u.take 32).map extByte)

instance (hostApi : Option IGHostApi) (ext : IGStringRef) : Decidable (Loggable hostApi ext) :=
  have : Decidable (∀ u ∈ denoted ext, IsText ((u.take 32).map extByte)) :=
    Option.decidableForallMem _
  inferInstanceAs (Decidable (_ → _))

theorem fromUtf8Unchecked_cases (bytes : List UInt8) :
    (∃ s, Utf8Text.encode s = bytes ∧ fromUtf8Unchecked bytes = .value s) ∨
    (¬ IsText bytes ∧ fromUtf8Unchecked bytes = .undefined) := by
  unfold fromUtf8Unchecked
  cases h : Utf8Text.decode bytes with
  | none => exact Or.inr ⟨by rw [IsText, ← decode_isSome_iff, h]; simp, rfl⟩
  | some s => exact Or.inl ⟨s, Utf8Text.decode_eq_some_iff.mp h, rfl⟩

theorem logExtension_cases (hostApi : Option IGHostApi) (ext : IGStringRef) :
    (Loggable hostApi ext ∧ ∃ logs, logExtension hostApi ext = .value logs) ∨
    (¬ Loggable hostApi ext ∧ logExtension hostApi ext = .undefined) := by
  unfold Loggable logExtension
  cases hostApi.bind IGHostApi.core with
  | none => exact Or.inl ⟨fun h => absurd rfl h, [], rfl⟩
  | some core =>
    cases hu : denoted ext with
    | none => exact Or.inl ⟨by simp, _, by rw [extStr_null hu]; rfl⟩
    | some u =>
      rw [extStr_denoted hu]
      rcases fromUtf8Unchecked_cases ((u.take 32).map extByte) with ⟨s, hs, heq⟩ | ⟨hnot, heq⟩
      · refine Or.inl ⟨?_, _, by rw [heq]; rfl⟩
        rintro - v hv
        cases hv
        exact ⟨s, hs⟩
      · exact Or.inr ⟨fun h => hnot (h (by simp) u rfl), by rw [heq]; rfl⟩

theorem codecCanHandleExtension_cases (hostApi : Option IGHostApi)
    (extensions : Option (List IGStringRef)) (ext : IGStringRef) :
    (Loggable hostApi ext ∧ ∃ logs, logExtension hostApi ext = .value logs ∧
      codecCanHandleExtension hostApi extensions ext =
        some (matchExtension extensions ext,logs)) ∨
    (¬ Loggable hostApi ext ∧ codecCanHandleExtension hostApi extensions ext = none) := by
  rcases logExtension_cases hostApi ext with ⟨hlog, logs, hlogs⟩ | ⟨hlog, hlogs⟩
  · exact Or.inl ⟨hlog, logs, hlogs, by rw [codecCanHandleExtension, hlogs]⟩
  · exact Or.inr ⟨hlog, by rw [codecCanHandleExtension, hlogs]⟩

/-- One of the two extensions, with the ASCII letters in either case. -/
def Accepted (u : List UInt16) : Prop :=
  u.map foldUnit = extIthmbData ∨ u.map foldUnit = extIpmData

instance (u : List UInt16) : Decidable (Accepted u) := inferInstanceAs (Decidable (_ ∨ _))

/-- The low bytes read as an extension although a unit is not a byte. -/
def Aliased (u : List UInt16) : Prop := Accepted (u.map lowUnit) ∧ ∃ v ∈ u, 0x100 ≤ v

instance (u : List UInt16) : Decidable (Aliased u) := inferInstanceAs (Decidable (_ ∧ _))

/-- One for exactly the references that denote an extension, zero for the rest. -/
def AnswersLanguage (answer : Option Int32) (ext : IGStringRef) : Prop :=
  (answer = some 1 ↔ ∃ u ∈ denoted ext, Accepted u) ∧ (answer ≠ some 1 → answer = some 0)

theorem denoted_length {ext : IGStringRef} (hvalid : ext.Valid) {u : List UInt16}
    (hu : denoted ext = some u) : (u.length:ℤ) = ext.length.toInt := by
  unfold denoted at hu
  cases hd : ext.data with
  | none => simp [hd] at hu
  | some ptr =>
    have hreadable := hvalid ptr hd
    by_cases hlen : ext.length ≤ 0
    · simp [hd, hlen] at hu
    · simp only [hd, hlen, if_false, Option.some.injEq] at hu
      have hpos : 0 < ext.length.toInt := by
        simpa [Int32.le_iff_toInt_le] using hlen
      rw [← hu, fromRawParts, List.length_take]
      omega

theorem matchesKnown_iff {ext : IGStringRef} (hvalid : ext.Valid) {u : List UInt16}
    (hu : denoted ext = some u) (addr : Addr) (known : List UInt16)
    (hsmall : known.length ≤ 2^31-1) (hknown : ∀ b ∈ known, foldUnit (lowUnit b) = b) :
    matchesKnown ext u (bufferRef ⟨addr,known⟩) = true ↔
      u.map (fun v => foldUnit (lowUnit v)) = known := by
  have hlen := denoted_length hvalid hu
  have href : (Int32.ofNat known.length).toInt = known.length := i32_length_toInt _ hsmall
  have hwhole : fromRawParts ⟨addr,known⟩ (Int32.ofNat known.length) = known := by
    rw [fromRawParts, href, Int.toNat_natCast, List.take_length]
  simp only [matchesKnown, bufferRef, hwhole]
  by_cases heq : Int32.ofNat known.length = ext.length
  · have hsame : u.length = known.length := by
      rw [← heq, href] at hlen
      exact_mod_cast hlen
    simp only [heq, ne_eq, not_true_eq_false, if_false]
    exact zip_eqIgnoreAsciiCase_iff known hknown u hsame
  · have hdiff : u.length ≠ known.length := by
      intro hsame
      refine heq (Int32.toInt_inj.mp ?_)
      rw [href, ← hlen, hsame]
    simp only [ne_eq, heq, not_false_eq_true, if_true, Bool.false_eq_true, false_iff]
    intro hmap
    exact hdiff (by rw [← hmap, List.length_map])

theorem known_folded (b : UInt16) (hb : b ∈ extIthmbData++extIpmData) :
    foldUnit (lowUnit b) = b := by
  have hall : (extIthmbData++extIpmData).all (fun b => foldUnit (lowUnit b) == b) = true := by
    decide
  exact eq_of_beq (List.all_eq_true.mp hall b hb)

theorem known_ascii (b : UInt16) (hb : b ∈ extIthmbData++extIpmData) : b < 0x80 := by
  have hall : (extIthmbData++extIpmData).all (fun b => b < 0x80) = true := by decide
  exact of_decide_eq_true (List.all_eq_true.mp hall b hb)

theorem matchExtension_eq (exts : List IGStringRef) (ext : IGStringRef) :
    matchExtension (some exts) ext =
      match denoted ext with
      | none => 0
      | some u => if exts.any (matchesKnown ext u) then 1 else 0 := by
  unfold matchExtension denoted
  cases ext.data with
  | none => rfl
  | some ptr =>
    by_cases hlen : ext.length ≤ 0
    · simp [hlen]
    · simp [hlen]

theorem matchExtension_iff (layout : StaticLayout) {ext : IGStringRef} (hvalid : ext.Valid) :
    (matchExtension (some (extensionsArray layout)) ext = 1 ↔
      ∃ u ∈ denoted ext, Accepted (u.map lowUnit)) ∧
    (matchExtension (some (extensionsArray layout)) ext ≠ 1 →
      matchExtension (some (extensionsArray layout)) ext = 0) := by
  rw [matchExtension_eq]
  cases hu : denoted ext with
  | none => simp
  | some u =>
    have hithmb := matchesKnown_iff hvalid hu layout.extIthmb extIthmbData (by decide)
      (fun b hb => known_folded b (List.mem_append_left _ hb))
    have hipm := matchesKnown_iff hvalid hu layout.extIpm extIpmData (by decide)
      (fun b hb => known_folded b (List.mem_append_right _ hb))
    have hany : (extensionsArray layout).any (matchesKnown ext u) = true ↔
        Accepted (u.map lowUnit) := by
      simp only [extensionsArray, List.any_cons, List.any_nil, Bool.or_false, Bool.or_eq_true,
        hithmb, hipm, Accepted, List.map_map]
      rfl
    by_cases h : (extensionsArray layout).any (matchesKnown ext u) = true
    · simp [h, hany.mp h]
    · simp [h, mt hany.mpr h]

theorem matchExtension_reached {layout : StaticLayout} {w : EntryPoint.Plugin}
    (h : Reached (EntryPoint.step layout) (fun _ _ => True) .loaded w) {c : EntryPoint.CallId}
    {e : EntryPoint.Entry} {api : IGPluginApi} (hc : w.calls c = some e)
    (hpc : e.pc = .returned (some api)) {ext : IGStringRef} (hvalid : ext.Valid) :
    matchExtension w.statics.pluginExtensions ext = 1 ↔
      ∃ u ∈ denoted ext, Accepted (u.map lowUnit) := by
  rw [EntryPoint.extensions_of_returned h hc hpc]
  exact (matchExtension_iff layout hvalid).1

theorem map_lowUnit_of_lt {u : List UInt16} (h : ∀ v ∈ u, v < 0x100) : u.map lowUnit = u := by
  rw [List.map_congr_left (fun v hv => lowUnit_of_lt (h v hv)), List.map_id']

theorem accepted_lt {u : List UInt16} (h : Accepted u) : ∀ v ∈ u, v < 0x100 := by
  intro v hv
  apply lt_of_foldUnit_lt
  have hmem : foldUnit v ∈ u.map foldUnit := List.mem_map_of_mem hv
  rcases h with he | he <;> rw [he] at hmem
  · exact known_ascii _ (List.mem_append_left _ hmem)
  · exact known_ascii _ (List.mem_append_right _ hmem)

theorem accepted_low_iff (u : List UInt16) : Accepted (u.map lowUnit) ↔ Accepted u ∨ Aliased u := by
  constructor
  · intro h
    by_cases hwide : ∃ v ∈ u, 0x100 ≤ v
    · exact Or.inr ⟨h, hwide⟩
    · have hsmall : ∀ v ∈ u, v < 0x100 := fun v hv => by
        by_contra hv'
        exact hwide ⟨v, hv, UInt16.not_lt.mp hv'⟩
      rw [map_lowUnit_of_lt hsmall] at h
      exact Or.inl h
  · rintro (h | h)
    · rwa [map_lowUnit_of_lt (accepted_lt h)]
    · exact h.1

theorem not_accepted_of_aliased {u : List UInt16} (h : Aliased u) : ¬ Accepted u := by
  obtain ⟨-, v, hv, hwide⟩ := h
  exact fun ha => UInt16.not_lt.mpr hwide (accepted_lt ha v hv)

/-- The matcher answers its language on a reference exactly when the reference
does not denote a sequence whose low bytes alone read as an extension, and the
log call before it is defined. -/
theorem extension_language_iff (hostApi : Option IGHostApi) (layout : StaticLayout)
    (ext : IGStringRef) (hvalid : ext.Valid) :
    AnswersLanguage
      ((codecCanHandleExtension hostApi (some (extensionsArray layout)) ext).map Prod.fst) ext ↔
      (∀ u ∈ denoted ext, ¬ Aliased u) ∧ Loggable hostApi ext := by
  obtain ⟨hone, hzero⟩ := matchExtension_iff layout hvalid
  rcases codecCanHandleExtension_cases hostApi (some (extensionsArray layout)) ext with
    ⟨hlog, logs, -, heq⟩ | ⟨hlog, heq⟩
  · rw [heq, Option.map_some, AnswersLanguage, Option.some.injEq, hone, and_iff_left hlog]
    constructor
    · rintro ⟨hiff, -⟩ u hu halias
      obtain ⟨u', hu', hacc⟩ := hiff.mp ⟨u, hu, halias.1⟩
      cases hu.symm.trans hu'
      exact not_accepted_of_aliased halias hacc
    · intro hnone
      refine ⟨?_, fun h => congrArg some (hzero (by simpa using h))⟩
      constructor
      · rintro ⟨u, hu, hlow⟩
        exact ⟨u, hu, ((accepted_low_iff u).mp hlow).resolve_right (hnone u hu)⟩
      · rintro ⟨u, hu, hacc⟩
        exact ⟨u, hu, (accepted_low_iff u).mpr (Or.inl hacc)⟩
  · rw [heq, Option.map_none, and_iff_right_of_imp fun h => absurd h hlog]
    exact iff_of_false (fun h => by simpa using h.2 (by simp)) hlog

def loggingHost : IGHostApi := ⟨16, 1000000, some ⟨true⟩⟩

def extRef (u : List UInt16) : IGStringRef where
  data := some ⟨64,u⟩
  length := Int32.ofNat u.length

/-- A letter of Latin-1 reaches the log as a byte that is no text. -/
example : codecCanHandleExtension (some loggingHost) (some (extensionsArray ⟨32,48⟩))
    (extRef [0x2E,0xFF]) = none := by decide +kernel

theorem extension_language_mixed_case :
    AnswersLanguage ((codecCanHandleExtension (some loggingHost) (some (extensionsArray ⟨32,48⟩))
      (extRef [0x2E,0x49,0x70,0x4D])).map Prod.fst) (extRef [0x2E,0x49,0x70,0x4D]) := by
  refine (extension_language_iff (some loggingHost) ⟨32,48⟩ _ ?_).mpr ⟨?_, ?_⟩
  · intro ptr hptr
    cases hptr
    decide
  · intro u hu
    cases hu
    decide
  · decide +kernel

/-- A unit with the low byte of the dot is accepted for the dot. -/
theorem extension_language_aliased :
    ¬ ∀ hostApi layout (ext : IGStringRef), ext.Valid →
      AnswersLanguage
        ((codecCanHandleExtension hostApi (some (extensionsArray layout)) ext).map Prod.fst)
        ext := by
  intro h
  have hans := h none ⟨32,48⟩ (extRef [0x012E,0x69,0x70,0x6D]) (by
    intro ptr hptr
    cases hptr
    decide)
  obtain ⟨u, hu, hacc⟩ := hans.1.mp (by decide)
  cases hu
  exact absurd hacc (by decide)

end IthmbPlugin.Extension
