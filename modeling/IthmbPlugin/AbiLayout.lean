import IthmbPlugin.EntryPoint
import IthmbPlugin.Library.ReprC

/-!
# The structs of the ABI across header versions

Host and plugin may be built against headers of different age, in which the
declaration of a struct ends earlier or goes on further. What the two share is
found at the same offsets, and `struct_size` tells how far the other goes. The
test at the entry point lets in exactly the hosts whose struct has every field
the plugin reads.
-/

set_option autoImplicit false

namespace IthmbPlugin.AbiLayout
open IthmbPlugin.Types IthmbPlugin.EntryPoint IthmbPlugin.ReprC

def versioned : List (List Field) := [igHostApi, igPluginApi, igCodecApi, igCodecCapability]

example : [offsets 0 igPluginApi, offsets 0 igCodecApi] =
    [[0, 4, 8, 64, 72, 80, 88],
      [0, 8, 16, 24, 32, 40, 48, 56, 64, 72, 80, 88, 96, 104]] := by decide

theorem versioned_full : ∀ fs ∈ versioned, ending 0 fs = ReprC.sizeOf fs := by decide

/-- Whatever fields later headers add to one of these structs, the old ones are
read as they were written, the new ones lie beyond the size the old header
states, and the size the new header states is larger. -/
theorem versioned_extends (fs : List Field) (hfs : fs ∈ versioned) (gs : List Field)
    (vs : List (List UInt8)) (mem : List UInt8) (hfits : Fits (fs++gs) vs)
    (hroom : ReprC.sizeOf (fs++gs) ≤ mem.length) :
    load (fill mem 0 (fs++gs) vs) 0 fs = vs.take fs.length ∧
    (∃ later, offsets 0 (fs++gs) = offsets 0 fs++later ∧ ∀ o ∈ later, ReprC.sizeOf fs ≤ o) ∧
    ∀ g ∈ gs, 0 < g.size → ReprC.sizeOf fs < ReprC.sizeOf (fs++gs) := by
  have hfull := versioned_full fs hfs
  refine ⟨load_fill_take hfits ((ending_le_sizeOf _).trans hroom), ?_, ?_⟩
  · refine ⟨offsets (ending 0 fs) gs, offsets_append 0 fs gs, fun o ho => ?_⟩
    rw [← hfull]
    exact le_offsets ho
  · intro g hg hpos
    refine lt_of_lt_of_le ?_ (ending_le_sizeOf (fs++gs))
    have hend := field_le_ending (ending 0 fs) hg
    rw [ending_append, ← hfull]
    omega

theorem versioned_extends_plugin :
    let vs := (igPluginApi++[pointerField]).map fun f => List.replicate f.size (7:UInt8)
    load (fill (List.replicate 104 0) 0 (igPluginApi++[pointerField]) vs) 0 igPluginApi =
      vs.take 7 :=
  (versioned_extends igPluginApi (by decide) [pointerField] _ (List.replicate 104 0)
    (by unfold Fits; decide) (by decide)).1

def i32Bytes (n : Int32) : List UInt8 := leBytes 4 n.toUInt32.toNat

def i32Of (bytes : List UInt8) : Int32 := (UInt32.ofNat (ofLeBytes bytes)).toInt32

theorem i32Of_i32Bytes (n : Int32) : i32Of (i32Bytes n) = n := by
  have hlt : n.toUInt32.toNat < 256^4 := n.toUInt32.toNat_lt
  rw [i32Of, i32Bytes, ofLeBytes_leBytes, Nat.mod_eq_of_lt hlt]
  simp

/-- The struct as the plugin reads it, `core` being what lies at an address. -/
def loadHostApi (core : Addr → IGHostCoreApi) (mem : List UInt8) : IGHostApi where
  structSize := i32Of (read mem 0 4)
  abiVersion := i32Of (read mem 4 4)
  core := if ofLeBytes (read mem 8 8) = null then none else some (core (ofLeBytes (read mem 8 8)))

example (mem : List UInt8) :
    load mem 0 igHostApi = [read mem 0 4, read mem 4 4, read mem 8 8] := rfl

/-- What a host of some header version hands over: an allocation that is zeroed
and then filled, the first field with its own size of the struct. -/
structure HostTable where
  fields : List Field
  values : List (List UInt8)
  related : fields <+: igHostApi ∨ igHostApi <+: fields
  fits : Fits fields values
  small : ReprC.sizeOf fields < 2^31
  declared : values.head? = some (i32Bytes (Int32.ofNat (ReprC.sizeOf fields)))

def HostTable.bytes (t : HostTable) : List UInt8 :=
  fill (List.replicate (ReprC.sizeOf t.fields) 0) 0 t.fields t.values

section Host
variable (t : HostTable)

theorem HostTable.room : ending 0 t.fields ≤
    (List.replicate (ReprC.sizeOf t.fields) (0:UInt8)).length := by
  rw [List.length_replicate]
  exact ending_le_sizeOf t.fields

theorem HostTable.bytes_length : t.bytes.length = ReprC.sizeOf t.fields :=
  (fill_length t.fits t.room).trans List.length_replicate

theorem HostTable.first :
    read t.bytes 0 4 = i32Bytes (Int32.ofNat (ReprC.sizeOf t.fields)) := by
  have hload : load t.bytes 0 t.fields = t.values := load_fill t.fits t.room
  have hfits := t.fits
  have hdeclared := t.declared
  cases hvalues : t.values with
  | nil =>
    rw [hvalues] at hdeclared
    cases hdeclared
  | cons v vs =>
    rw [hvalues] at hload hfits hdeclared
    cases hfields : t.fields with
    | nil =>
      rw [hfields] at hfits
      cases hfits
    | cons f fs =>
      have hf : f = i32Field := by
        rcases t.related with hshort | hlong
        · rw [hfields] at hshort
          exact (List.cons_prefix_cons.mp hshort).1
        · rw [hfields] at hlong
          exact (List.cons_prefix_cons.mp hlong).1.symm
      rw [hfields] at hload hdeclared
      subst hf
      exact (List.cons.inj hload).1.trans (Option.some.inj hdeclared)

theorem HostTable.structSize (core : Addr → IGHostCoreApi) :
    (loadHostApi core t.bytes).structSize.toInt = ReprC.sizeOf t.fields := by
  rw [loadHostApi, t.first, i32Of_i32Bytes]
  exact Int32.toInt_ofNat_of_lt t.small

theorem HostTable.has_fields_iff : igHostApi <+: t.fields ↔ sizeOfIGHostApi ≤ t.bytes.length := by
  rw [t.bytes_length]
  constructor
  · rintro ⟨gs, hgs⟩
    rw [← hgs]
    exact sizeOf_le_append igHostApi gs
  · intro hsize
    rcases t.related with hshort | hlong
    · have hcut : ∀ fs ∈ igHostApi.inits, sizeOfIGHostApi ≤ ReprC.sizeOf fs → igHostApi <+: fs := by
        decide
      exact hcut t.fields ((List.mem_inits ..).mpr hshort) hsize
    · exact hlong

end Host

/-- The size test is exact. Of all hosts of major version one, whose struct
ends earlier or goes on further than the plugin's, the entry point lets in
those that have every field the plugin reads, and then reads what they wrote;
of any other the struct is too short to be read. -/
theorem host_layout_accepted (t : HostTable) (core : Addr → IGHostCoreApi) (addr : Addr)
    (version : Int32) :
    ((checkHost version (some { addr := addr, api := loadHostApi core t.bytes })).isSome = true ↔
      (1000000 ≤ version.toInt ∧ version.toInt ≤ 1999999) ∧ igHostApi <+: t.fields) ∧
    (igHostApi <+: t.fields → load t.bytes 0 igHostApi = t.values.take 3) ∧
    (¬ igHostApi <+: t.fields → t.bytes.length < sizeOfIGHostApi) := by
  refine ⟨?_, ?_, ?_⟩
  · rw [checkHost_some_iff, Compatible, t.has_fields_iff, t.bytes_length]
    simp only [Option.some.injEq, exists_eq_left', t.structSize core, Int.ofNat_le]
  · rintro ⟨gs, hgs⟩
    have hfits := t.fits
    have hroom := t.room
    rw [← hgs] at hfits hroom
    rw [HostTable.bytes, ← hgs]
    exact load_fill_take hfits hroom
  · intro hnot
    exact Nat.lt_of_not_le (mt t.has_fields_iff.mpr hnot)

def olderHost : HostTable where
  fields := [i32Field, i32Field]
  values := [i32Bytes 8, i32Bytes 1000000]
  related := Or.inl (by decide)
  fits := by unfold Fits; decide
  small := by decide
  declared := rfl

theorem host_layout_accepted_older :
    (checkHost 1000000 (some
        { addr := 8, api := loadHostApi (fun _ => ⟨true⟩) olderHost.bytes })).isSome ≠ true ∧
      olderHost.bytes.length < sizeOfIGHostApi := by
  obtain ⟨haccepted, -, hshort⟩ :=
    host_layout_accepted olderHost (fun _ => ⟨true⟩) 8 1000000
  have hnot : ¬ igHostApi <+: olderHost.fields := by decide
  exact ⟨fun h => hnot (haccepted.mp h).2, hshort hnot⟩

theorem zeroed_refused (count : ℕ) (core : Addr → IGHostCoreApi) (addr : Addr) (version : Int32) :
    checkHost version (some { addr := addr, api := loadHostApi core (List.replicate count 0) }) =
      none := by
  have hsize : (loadHostApi core (List.replicate count 0)).structSize = 0 := by
    rw [loadHostApi, ReprC.read, List.drop_zero, List.take_replicate, i32Of, ofLeBytes_zeros]
    rfl
  rw [← Option.not_isSome_iff_eq_none, checkHost_some_iff]
  rintro ⟨-, ptr, hptr, hle⟩
  cases hptr
  rw [hsize] at hle
  exact absurd hle (by decide)

end IthmbPlugin.AbiLayout
