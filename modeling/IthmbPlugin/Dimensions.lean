import IthmbPlugin.Metadata
import IthmbPlugin.Library.Spans

/-!
# The grammar of dimensions

A description reads as dimensions when a number stands before its first
multiplication sign, between white space and after at most one plus sign, and
another starts right behind the sign. The executable parser is identified
with this grammar, overflow, repeated signs and other scripts included.
-/

set_option autoImplicit false

namespace IthmbPlugin.Dimensions
open IthmbPlugin.MachineInt IthmbPlugin.Utf8Text IthmbPlugin.Spans
open IthmbPlugin.Types IthmbPlugin.Strings IthmbPlugin.Metadata

/-- A non-empty string of ASCII digits and its value, within a machine word. -/
structure Numeral (digits : Str) (n : ℕ) : Prop where
  nonempty : digits ≠ []
  digit : ∀ c ∈ digits, isAsciiDigit c
  value : Nat.ofDigitChars 10 digits 0 = n
  fits : n ≤ usizeMax

def WidthText (left : Str) (w : ℕ) : Prop :=
  ∃ lead sign digits trail, left = lead++((sign++digits)++trail) ∧
    (∀ c ∈ lead, isWhitespace c) ∧ (∀ c ∈ trail, isWhitespace c) ∧
    (sign = [] ∨ sign = ['+']) ∧ Numeral digits w

def HeightText (right : Str) (h : ℕ) : Prop :=
  ∃ digits tail, right = digits++tail ∧ Numeral digits h ∧ ∀ c ∈ tail.head?, isAsciiDigit c = false

def Reads (desc : Str) (w h : ℕ) : Prop :=
  ∃ left right, desc = left++cross::right ∧ cross ∉ left ∧ WidthText left w ∧ HeightText right h

theorem ofDigitChars_ge (digits : Str) (n : ℕ) : n ≤ Nat.ofDigitChars 10 digits n := by
  induction digits generalizing n with
  | nil => rw [Nat.ofDigitChars_nil]
  | cons c rest ih =>
    rw [Nat.ofDigitChars_cons]
    have hrest := ih (10*n+(c.toNat - '0'.toNat))
    omega

theorem parseDigits_cons (n : ℕ) (c : Char) (rest : Str) (v : ℕ) :
    parseDigits n (c::rest) = some v ↔
      isAsciiDigit c ∧ 10*n+(c.toNat - '0'.toNat) ≤ usizeMax ∧
        parseDigits (10*n+(c.toNat - '0'.toNat)) rest = some v := by
  rw [parseDigits, Nat.mul_comm 10 n]
  by_cases hc : isAsciiDigit c = true
  · by_cases hadd : n*10+(c.toNat - '0'.toNat) ≤ usizeMax
    · have hmul : n*10 ≤ usizeMax := by omega
      rw [if_pos hc, usizeCheckedMul, if_pos hmul, Option.bind_some, usizeCheckedAdd, if_pos hadd,
        Option.bind_some]
      exact ⟨fun h => ⟨hc, hadd, h⟩, fun h => h.2.2⟩
    · have hnone : ((usizeCheckedMul n 10).bind fun tens =>
          (usizeCheckedAdd tens (c.toNat - '0'.toNat)).bind fun next => parseDigits next rest) =
            none := by
        rw [Option.bind_eq_none_iff]
        intro tens htens
        rw [usizeCheckedMul_some htens, usizeCheckedAdd, if_neg hadd, Option.bind_none]
      rw [if_pos hc, hnone]
      constructor
      · intro h
        cases h
      · intro h
        exact absurd h.2.1 hadd
  · simp [hc]

theorem parseDigits_eq_some_iff (digits : Str) (n v : ℕ) (hn : n ≤ usizeMax) :
    parseDigits n digits = some v ↔
      (∀ c ∈ digits, isAsciiDigit c) ∧ Nat.ofDigitChars 10 digits n = v ∧ v ≤ usizeMax := by
  induction digits generalizing n with
  | nil =>
    rw [parseDigits, Option.some_inj, Nat.ofDigitChars_nil]
    constructor
    · rintro rfl
      exact ⟨by simp, rfl, hn⟩
    · exact fun h => h.2.1
  | cons c rest ih =>
    rw [parseDigits_cons, Nat.ofDigitChars_cons, List.forall_mem_cons]
    constructor
    · rintro ⟨hc, hadd, hrest⟩
      obtain ⟨hdigits, hv, hfits⟩ := (ih _ hadd).mp hrest
      exact ⟨⟨hc, hdigits⟩, hv, hfits⟩
    · rintro ⟨⟨hc, hdigits⟩, hv, hfits⟩
      have hadd : 10*n+(c.toNat - '0'.toNat) ≤ usizeMax := by
        have hge := ofDigitChars_ge rest (10*n+(c.toNat - '0'.toNat))
        omega
      exact ⟨hc, hadd, (ih _ hadd).mpr ⟨hdigits, hv, hfits⟩⟩

theorem numeral_iff (digits : Str) (n : ℕ) :
    Numeral digits n ↔ digits ≠ [] ∧ parseDigits 0 digits = some n := by
  rw [parseDigits_eq_some_iff digits 0 n (Nat.zero_le _)]
  constructor
  · intro h
    exact ⟨h.nonempty, h.digit, h.value, h.fits⟩
  · rintro ⟨hne, hdigits, hv, hfits⟩
    exact ⟨hne, hdigits, hv, hfits⟩

theorem Numeral.unsigned {digits : Str} {n : ℕ} (h : Numeral digits n) (rest : Str) :
    digits ≠ '+'::rest := by
  rintro rfl
  have hplus := h.digit '+' List.mem_cons_self
  exact absurd hplus (by decide)

theorem parseUsize_signed (digits : Str) (n : ℕ) :
    parseUsize ('+'::digits) = some n ↔ Numeral digits n := by
  rw [numeral_iff]
  by_cases hnil : digits = []
  · simp [parseUsize, hnil]
  · simp [parseUsize, hnil]

theorem parseUsize_unsigned {digits : Str} (hsign : ∀ rest, digits ≠ '+'::rest) (n : ℕ) :
    parseUsize digits = some n ↔ Numeral digits n := by
  rw [numeral_iff]
  cases digits with
  | nil => simp [parseUsize]
  | cons c rest =>
    have hc : c ≠ '+' := by
      rintro rfl
      exact hsign rest rfl
    simp [parseUsize, hc]

theorem parseUsize_eq_some_iff (s : Str) (n : ℕ) :
    parseUsize s = some n ↔
      ∃ sign digits, s = sign++digits ∧ (sign = [] ∨ sign = ['+']) ∧ Numeral digits n := by
  by_cases hs : ∃ rest, s = '+'::rest
  · obtain ⟨rest, rfl⟩ := hs
    rw [parseUsize_signed]
    constructor
    · intro h
      exact ⟨['+'], rest, rfl, .inr rfl, h⟩
    · rintro ⟨sign, digits, hsplit, rfl | rfl, h⟩
      · exact absurd hsplit.symm (h.unsigned rest)
      · cases hsplit
        exact h
  · have hsign : ∀ rest, s ≠ '+'::rest := by simpa using hs
    rw [parseUsize_unsigned hsign]
    constructor
    · intro h
      exact ⟨[], s, rfl, .inl rfl, h⟩
    · rintro ⟨sign, digits, rfl, rfl | rfl, h⟩
      · exact h
      · exact absurd rfl (hsign digits)

theorem isAsciiDigit_iff (c : Char) : isAsciiDigit c ↔ 48 ≤ c.toNat ∧ c.toNat ≤ 57 := by
  rw [isAsciiDigit, Bool.and_eq_true, decide_eq_true_iff, decide_eq_true_iff]
  rfl

theorem whitespace_not_digit {c : Char} (hc : isAsciiDigit c) : isWhitespace c = false := by
  have hrange := (isAsciiDigit_iff c).mp hc
  simp only [isWhitespace, Bool.or_eq_false_iff, Bool.and_eq_false_iff, decide_eq_false_iff_not,
    beq_eq_false_iff_ne]
  omega

theorem signed_firm {sign digits : Str} {n : ℕ} (hsign : sign = [] ∨ sign = ['+'])
    (h : Numeral digits n) : Firm isWhitespace (sign++digits) := by
  constructor
  · intro c hc
    rcases hsign with rfl | rfl
    · exact whitespace_not_digit (h.digit c (List.mem_of_mem_head? hc))
    · cases hc
      decide
  · intro c hc
    rw [List.getLast?_append_of_ne_nil _ h.nonempty] at hc
    exact whitespace_not_digit (h.digit c (List.mem_of_mem_getLast? hc))

theorem parse_width_iff (left : Str) (w : ℕ) :
    parseUsize (trim left) = some w ↔ WidthText left w := by
  rw [parseUsize_eq_some_iff]
  constructor
  · rintro ⟨sign, digits, htrim, hsign, h⟩
    obtain ⟨-, lead, trail, hleft, hlead, htrail⟩ := trim_eq_iff.mp htrim
    exact ⟨lead, sign, digits, trail, hleft, hlead, htrail, hsign, h⟩
  · rintro ⟨lead, sign, digits, trail, hleft, hlead, htrail, hsign, h⟩
    have htrim := trim_eq_iff.mpr ⟨signed_firm hsign h, lead, trail, hleft, hlead, htrail⟩
    exact ⟨sign, digits, htrim, hsign, h⟩

theorem parse_height_iff (right : Str) (h : ℕ) :
    parseUsize (right.takeWhile isAsciiDigit) = some h ↔ HeightText right h := by
  have hunsigned : ∀ rest, right.takeWhile isAsciiDigit ≠ '+'::rest := by
    intro rest hrun
    have hplus : isAsciiDigit '+' := List.mem_takeWhile_imp (hrun ▸ List.mem_cons_self)
    exact absurd hplus (by decide)
  rw [parseUsize_unsigned hunsigned]
  constructor
  · intro hnum
    obtain ⟨tail, hright, -, htail⟩ := takeWhile_eq_iff.mp (Eq.refl (right.takeWhile isAsciiDigit))
    exact ⟨_, tail, hright, hnum, htail⟩
  · rintro ⟨digits, tail, rfl, hnum, htail⟩
    rw [takeWhile_span hnum.digit htail]
    exact hnum

theorem parseDimensions_cut {left right : Str} (hleft : cross ∉ left) (w h : ℕ) :
    parseDimensions (left++cross::right) = some (some (w,h)) ↔
      WidthText left w ∧ HeightText right h := by
  rw [← parse_width_iff, ← parse_height_iff, parseDimensions, find_append hleft]
  simp only [sliceTo_found, sliceFrom_found, Option.bind_some]
  cases parseUsize (trim left) with
  | none => simp
  | some width =>
    cases parseUsize (right.takeWhile isAsciiDigit) with
    | none => simp
    | some height => simp

theorem parseDimensions_iff (desc : Str) (w h : ℕ) :
    parseDimensions desc = some (some (w,h)) ↔ Reads desc w h := by
  constructor
  · intro hparse
    cases hfind : find cross desc with
    | none =>
      rw [parseDimensions, hfind] at hparse
      cases hparse
    | some n =>
      obtain ⟨left, right, rfl, hleft, -⟩ := find_split hfind
      exact ⟨left, right, rfl, hleft, (parseDimensions_cut hleft w h).mp hparse⟩
  · rintro ⟨left, right, rfl, hleft, htexts⟩
    exact (parseDimensions_cut hleft w h).mpr htexts

theorem parseDimensions_none {desc : Str} (hreads : ¬ ∃ w h, Reads desc w h) :
    parseDimensions desc = some none := by
  obtain ⟨dims, hdims⟩ := parseDimensions_total desc
  cases dims with
  | none => exact hdims
  | some dims =>
    have hparsed := (parseDimensions_iff desc dims.1 dims.2).mp hdims
    exact absurd ⟨dims.1, dims.2, hparsed⟩ hreads

theorem dimensionsIn_iff (desc : Str) (w h : ℕ) :
    dimensionsIn desc = some (w,h) ↔ Reads desc w h := by
  rw [dimensionsIn, Option.join_eq_some_iff]
  exact parseDimensions_iff desc w h

theorem findDimensions_iff (descs : List Str) (w h : ℕ) :
    findDimensions descs = some (some (w,h)) ↔
      ∃ before desc after, descs = before++desc::after ∧ Reads desc w h ∧
        ∀ d ∈ before, ¬ ∃ w' h', Reads d w' h' := by
  rw [findDimensions_eq, Option.some_inj, List.findSome?_eq_some_iff]
  apply exists_congr
  intro before
  apply exists_congr
  intro desc
  apply exists_congr
  intro after
  rw [dimensionsIn_iff]
  apply and_congr_right
  intro _
  apply and_congr_right
  intro _
  apply forall₂_congr
  intro d _
  rw [Option.eq_none_iff_forall_ne_some, Prod.forall]
  simp [dimensionsIn_iff]

theorem printed_numeral {n : ℕ} (hn : n ≤ usizeMax) : Numeral (Nat.toDigits 10 n) n where
  nonempty := Nat.toDigits_ne_nil
  digit c hc := by
    have hdigit := Nat.isDigit_of_mem_toDigits (by decide) (by decide) hc
    rw [isAsciiDigit_iff]
    simpa [Char.isDigit, UInt32.le_iff_toNat_le] using hdigit
  value := Nat.ofDigitChars_ten_toDigits
  fits := hn

theorem cross_not_digit : isAsciiDigit cross = false := by decide

theorem cross_not_mem {digits : Str} {n : ℕ} (h : Numeral digits n) : cross ∉ digits := by
  intro hmem
  have hdigit := h.digit cross hmem
  rw [cross_not_digit] at hdigit
  cases hdigit

theorem Numeral.width {digits : Str} {n : ℕ} (h : Numeral digits n) : WidthText digits n :=
  ⟨[], [], digits, [], by simp, by simp, by simp, .inl rfl, h⟩

theorem printed_reads {w h : ℕ} {tail : Str} (hw : w ≤ usizeMax) (hh : h ≤ usizeMax)
    (htail : ∀ c ∈ tail.head?, isAsciiDigit c = false) :
    Reads (Nat.toDigits 10 w++cross::(Nat.toDigits 10 h++tail)) w h :=
  ⟨_, _, rfl, cross_not_mem (printed_numeral hw), (printed_numeral hw).width,
    _, tail, rfl, printed_numeral hh, htail⟩

/-- The parser accepts its grammar and nothing else, cuts the text at the two
bytes of the sign only, and reads printed dimensions back. -/
theorem dimensions_grammar :
    (∀ desc w h, parseDimensions desc = some (some (w,h)) ↔ Reads desc w h) ∧
    (∀ desc, (¬ ∃ w h, Reads desc w h) → parseDimensions desc = some none) ∧
    cross.utf8Size = 2 ∧
    (∀ desc n, find cross desc = some n →
      ∃ left right, desc = left++cross::right ∧ cross ∉ left ∧
        sliceTo desc n = some left ∧ sliceFrom desc (n+2) = some right) ∧
    (∀ w h tail, w ≤ usizeMax → h ≤ usizeMax → (∀ c ∈ tail.head?, isAsciiDigit c = false) →
      parseDimensions (Nat.toDigits 10 w++cross::(Nat.toDigits 10 h++tail)) =
        some (some (w,h))) := by
  have hsize : cross.utf8Size = 2 := by decide
  refine ⟨parseDimensions_iff, fun _ => parseDimensions_none, hsize, ?_, ?_⟩
  · intro desc n hfind
    obtain ⟨left, right, rfl, hleft, rfl⟩ := find_split hfind
    have hfrom := sliceFrom_found left right cross
    rw [hsize] at hfrom
    exact ⟨left, right, rfl, hleft, sliceTo_found left right cross, hfrom⟩
  · intro w h tail hw hh htail
    exact (parseDimensions_iff _ w h).mpr (printed_reads hw hh htail)

theorem dimensions_grammar_photo :
    parseDimensions ['3','2','0','×','2','4','0',' ','R','G','B'] = some (some (320,240)) ∧
    Reads ['7','×','5','×','9'] 7 5 := by
  constructor
  · have htail : ∀ c ∈ [' ','R','G','B'].head?, isAsciiDigit c = false := by
      intro c hc
      cases hc
      decide
    exact dimensions_grammar.2.2.2.2 320 240 [' ','R','G','B'] (by decide) (by decide) htail
  · exact (dimensions_grammar.1 _ 7 5).mp (by decide)

end IthmbPlugin.Dimensions
