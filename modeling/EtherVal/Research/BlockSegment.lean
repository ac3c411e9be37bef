import EtherVal.Lib.Go
import EtherVal.Research.TaskPool

/-!
# Block segments on the command line (`substate_flags.go:66-129`)

The regular expression of `ParseBlockSegment` is given twice: `Matches` reads it as a grammar, and
`findStringSubmatch` computes the groups.
-/

namespace EtherVal.Research
open EtherVal.Lib List

structure SegmentBounds where
  first : UInt64
  last : UInt64

inductive SegmentError where
  /- `invalid block segment string: %q` -/
  | invalidString (s : GoString)
  /- `invalid block segment first: %s` -/
  | invalidFirst (err : GoString.NumError)
  /- `invalid block segment last: %s` -/
  | invalidLast (err : GoString.NumError)
  /- `block segment first is larger than last: %v-%v` -/
  | firstLarger (first last : UInt64)
  deriving DecidableEq, Repr

structure Submatch where
  first : GoString
  last : GoString
  siunit : GoString
  deriving DecidableEq, Repr

def isNumberChar (c : Char) : Bool := c.isDigit || c == '_'

def IsNumber (s : GoString) : Prop :=
  ∃ c t, s = c :: t ∧ c.isDigit = true ∧ ∀ d ∈ t, isNumberChar d = true

def siunits : List GoString := [[], ['k'], ['M']]

/-- `^(?P<first>[0-9][0-9_]*)((-|~)(?P<last>[0-9][0-9_]*)(?P<siunit>[kM]?))?$` -/
inductive Matches : GoString → Submatch → Prop
  | single {first : GoString} (hfirst : IsNumber first) : Matches first ⟨first, [], []⟩
  | range {first last siunit : GoString} {sep : Char} (hfirst : IsNumber first)
      (hsep : sep = '-' ∨ sep = '~') (hlast : IsNumber last) (hunit : siunit ∈ siunits) :
      Matches (first ++ sep :: (last ++ siunit)) ⟨first, last, siunit⟩

/-- A longest `[0-9][0-9_]*` at the start, and what follows it. -/
def takeNumber : GoString → Option (GoString × GoString)
  | [] => none
  | c :: s =>
    if c.isDigit then some (c :: s.takeWhile isNumberChar, s.dropWhile isNumberChar) else none

def findStringSubmatch (s : GoString) : Option Submatch :=
  match takeNumber s with
  | none => none
  | some (first, []) => some ⟨first, [], []⟩
  | some (first, sep :: rest) =>
    if sep = '-' ∨ sep = '~' then
      match takeNumber rest with
      | none => none
      | some (last, siunit) => if siunit ∈ siunits then some ⟨first, last, siunit⟩ else none
    else none

variable {s : GoString}

theorem takeNumber_eq_some {number rest : GoString} (h : takeNumber s = some (number, rest)) :
    IsNumber number ∧ s = number ++ rest := by
  cases s with
  | nil => cases h
  | cons c s =>
    simp only [takeNumber] at h
    split at h
    · next hc =>
      cases h
      refine ⟨⟨c, _, rfl, hc, fun d hd => ?_⟩, ?_⟩
      · exact all_eq_true.mp all_takeWhile d hd
      · rw [cons_append, takeWhile_append_dropWhile]
    · cases h

theorem takeNumber_append {number rest : GoString} (hnumber : IsNumber number)
    (hrest : ∀ c ∈ rest.head?, isNumberChar c = false) :
    takeNumber (number ++ rest) = some (number, rest) := by
  obtain ⟨c, t, rfl, hc, ht⟩ := hnumber
  have hstop : rest.takeWhile isNumberChar = [] ∧ rest.dropWhile isNumberChar = rest := by
    cases rest with
    | nil => exact ⟨rfl, rfl⟩
    | cons d rest =>
      have hd : isNumberChar d = false := hrest d rfl
      simp [hd]
  simp only [takeNumber, cons_append, hc, if_true]
  rw [takeWhile_append_of_pos ht, dropWhile_append_of_pos ht, hstop.1, hstop.2,
    append_nil]

variable {m : Submatch}

theorem findStringSubmatch_of_matches (h : Matches s m) :
    findStringSubmatch s = some m := by
  cases h with
  | single hfirst =>
    have hend : ∀ c ∈ ([] : GoString).head?, isNumberChar c = false := by
      intro c hc
      cases hc
    have htake := takeNumber_append hfirst hend
    rw [append_nil] at htake
    rw [findStringSubmatch, htake]
  | @range first last siunit sep hfirst hsep hlast hunit =>
    have hsepChar : isNumberChar sep = false := by
      rcases hsep with rfl | rfl <;> decide
    have hunitChar : ∀ c ∈ siunit.head?, isNumberChar c = false := by
      simp only [siunits, mem_cons, not_mem_nil, or_false] at hunit
      intro c hc
      rcases hunit with rfl | rfl | rfl
      · cases hc
      · cases hc
        rfl
      · cases hc
        rfl
    have hsepHead : ∀ c ∈ (sep :: (last ++ siunit)).head?, isNumberChar c = false := by
      intro c hc
      cases hc
      exact hsepChar
    have hleft := takeNumber_append hfirst hsepHead
    have hright := takeNumber_append hlast hunitChar
    simp only [findStringSubmatch, hleft, if_pos hsep, hright, if_pos hunit]

theorem matches_of_findStringSubmatch (h : findStringSubmatch s = some m) : Matches s m := by
  unfold findStringSubmatch at h
  split at h
  · cases h
  · next htake =>
    obtain ⟨hfirst, hs⟩ := takeNumber_eq_some htake
    rw [append_nil] at hs
    cases h
    rw [hs]
    exact .single hfirst
  · next sep rest htake =>
    obtain ⟨hfirst, hs⟩ := takeNumber_eq_some htake
    split at h
    · next hsep =>
      split at h
      · cases h
      · next last siunit hrest =>
        obtain ⟨hlast, hr⟩ := takeNumber_eq_some hrest
        split at h
        · next hunit =>
          cases h
          rw [hs, hr]
          exact .range hfirst hsep hlast hunit
        · cases h
    · cases h

/-! ### `ParseBlockSegment` -/

def removeUnderscores (s : GoString) : GoString := s.filter (· != '_')

/-- The `switch siunit`, on `uint64`s. -/
def applyUnit (siunit : GoString) (seg : SegmentBounds) : SegmentBounds :=
  if siunit = ['k'] then ⟨seg.first * 1000 + 1, seg.last * 1000⟩
  else if siunit = ['M'] then ⟨seg.first * 1000000 + 1, seg.last * 1000000⟩
  else seg

def SegmentBounds.check (seg : SegmentBounds) : Except SegmentError BlockSegment :=
  if h : seg.first > seg.last then .error (.firstLarger seg.first seg.last)
  else .ok ⟨seg.first.toNat, seg.last.toNat, UInt64.le_iff_toNat_le.mp (UInt64.not_lt.mp h),
    seg.last.toNat_lt⟩

def parseBlockSegment (s : GoString) : Except SegmentError BlockSegment :=
  match findStringSubmatch s with
  | none => .error (.invalidString s)
  | some m => do
    let first ← (GoString.parseUint (removeUnderscores m.first)).mapError .invalidFirst
    let last ←
      if (removeUnderscores m.last).length = 0 then pure first
      else (GoString.parseUint (removeUnderscores m.last)).mapError .invalidLast
    (applyUnit m.siunit ⟨first, last⟩).check

namespace Submatch

def firstValue (m : Submatch) : Nat := Nat.ofDigitChars 10 (removeUnderscores m.first) 0

def lastValue (m : Submatch) : Nat :=
  if m.last = [] then m.firstValue else Nat.ofDigitChars 10 (removeUnderscores m.last) 0

def bounds (m : Submatch) : Nat × Nat :=
  if m.siunit = ['k'] then (1000 * m.firstValue + 1, 1000 * m.lastValue)
  else if m.siunit = ['M'] then (1000000 * m.firstValue + 1, 1000000 * m.lastValue)
  else (m.firstValue, m.lastValue)

def Proper (m : Submatch) : Prop :=
  m.bounds.1 ≤ m.bounds.2 ∧ m.bounds.1 < 2 ^ 64 ∧ m.bounds.2 < 2 ^ 64

def Wraps (m : Submatch) : Prop :=
  m.siunit ≠ [] ∧ m.firstValue < 2 ^ 64 ∧ m.lastValue < 2 ^ 64 ∧
    ¬ (m.bounds.1 < 2 ^ 64 ∧ m.bounds.2 < 2 ^ 64) ∧
    m.bounds.1 % 2 ^ 64 ≤ m.bounds.2 % 2 ^ 64

instance (m : Submatch) : Decidable m.Proper := by unfold Proper; infer_instance
instance (m : Submatch) : Decidable m.Wraps := by unfold Wraps; infer_instance

end Submatch

def ReadAs (m : Submatch) (result : Except SegmentError BlockSegment) : Prop :=
  if m.Proper then ∃ seg, result = .ok seg ∧ (seg.first, seg.last) = m.bounds
  else ∃ err, result = .error err

theorem IsNumber.digits (h : IsNumber s) :
    removeUnderscores s ≠ [] ∧ ∀ c ∈ removeUnderscores s, c.isDigit = true := by
  obtain ⟨c, t, rfl, hc, ht⟩ := h
  have hcne : (c != '_') = true := by
    rw [bne_iff_ne]
    rintro rfl
    exact absurd hc (by decide)
  constructor
  · simp [removeUnderscores, hcne]
  · intro d hd
    obtain ⟨hd, hdne⟩ := mem_filter.mp hd
    rcases mem_cons.mp hd with rfl | hd
    · exact hc
    · have hnum := ht d hd
      simp only [isNumberChar, Bool.or_eq_true, beq_iff_eq] at hnum
      exact hnum.resolve_right (by simpa using hdne)

theorem Matches.first_isNumber (h : Matches s m) :
    IsNumber m.first := by
  cases h with
  | single hfirst => exact hfirst
  | range hfirst => exact hfirst

theorem Matches.last_isNumber (h : Matches s m) (hlast : m.last ≠ []) :
    IsNumber m.last := by
  cases h with
  | single => exact absurd rfl hlast
  | range _ _ hl => exact hl

theorem applyUnit_toNat (hfirst : m.firstValue < 2 ^ 64) (hlast : m.lastValue < 2 ^ 64) :
    (applyUnit m.siunit ⟨.ofNat m.firstValue, .ofNat m.lastValue⟩).first.toNat
        = m.bounds.1 % 2 ^ 64 ∧
      (applyUnit m.siunit ⟨.ofNat m.firstValue, .ofNat m.lastValue⟩).last.toNat
        = m.bounds.2 % 2 ^ 64 := by
  have hf : (UInt64.ofNat m.firstValue).toNat = m.firstValue := UInt64.toNat_ofNat_of_lt' hfirst
  have hl : (UInt64.ofNat m.lastValue).toNat = m.lastValue := UInt64.toNat_ofNat_of_lt' hlast
  unfold applyUnit Submatch.bounds
  split
  · simp only [UInt64.toNat_add, UInt64.toNat_mul, hf, hl, UInt64.toNat_ofNat]
    omega
  · split
    · simp only [UInt64.toNat_add, UInt64.toNat_mul, hf, hl, UInt64.toNat_ofNat]
      omega
    · simp only [hf, hl]
      omega

theorem parseUint_number (h : IsNumber s) :
    GoString.parseUint (removeUnderscores s) =
      if Nat.ofDigitChars 10 (removeUnderscores s) 0 < 2 ^ 64
      then .ok (.ofNat (Nat.ofDigitChars 10 (removeUnderscores s) 0)) else .error .range :=
  GoString.parseUint_of_digits h.digits.1 h.digits.2

theorem Matches.parseUint_first (h : Matches s m) :
    GoString.parseUint (removeUnderscores m.first) =
      if m.firstValue < 2 ^ 64 then .ok (.ofNat m.firstValue) else .error .range :=
  parseUint_number h.first_isNumber

theorem Matches.parseUint_last (h : Matches s m) (hlast : m.last ≠ []) :
    GoString.parseUint (removeUnderscores m.last) =
      if m.lastValue < 2 ^ 64 then .ok (.ofNat m.lastValue) else .error .range := by
  have hvalue : m.lastValue = Nat.ofDigitChars 10 (removeUnderscores m.last) 0 := if_neg hlast
  rw [hvalue]
  exact parseUint_number (h.last_isNumber hlast)

/-- A segment text is read in three ways: a number too large for 64 bits, bounds out of order
after the unit, or a segment. -/
theorem parseBlockSegment_of_matches (h : Matches s m) :
    parseBlockSegment s =
      if 2 ^ 64 ≤ m.firstValue then .error (.invalidFirst .range)
      else if 2 ^ 64 ≤ m.lastValue then .error (.invalidLast .range)
      else (applyUnit m.siunit ⟨.ofNat m.firstValue, .ofNat m.lastValue⟩).check := by
  simp only [parseBlockSegment, findStringSubmatch_of_matches h, h.parseUint_first]
  by_cases hfirst : m.firstValue < 2 ^ 64
  · rw [if_pos hfirst, if_neg (not_le.mpr hfirst)]
    by_cases hnone : m.last = []
    · have hsame : m.lastValue = m.firstValue := if_pos hnone
      rw [if_neg (by omega), hsame, hnone]
      rfl
    · have hlength : ¬ (removeUnderscores m.last).length = 0 := fun h0 =>
        (h.last_isNumber hnone).digits.1 (length_eq_zero_iff.mp h0)
      simp only [if_neg hlength, h.parseUint_last hnone]
      by_cases hlast : m.lastValue < 2 ^ 64
      · rw [if_pos hlast, if_neg (not_le.mpr hlast)]
        rfl
      · rw [if_neg hlast, if_pos (not_lt.mp hlast)]
        rfl
  · rw [if_neg hfirst, if_pos (not_lt.mp hfirst)]
    rfl

theorem not_proper_of_large (h : 2 ^ 64 ≤ m.firstValue ∨ 2 ^ 64 ≤ m.lastValue) :
    ¬ m.Proper := by
  unfold Submatch.Proper Submatch.bounds
  split_ifs
  · simp only
    omega
  · simp only
    omega
  · simp only
    omega

theorem bounds_lt_of_no_unit (hunit : m.siunit = []) (hfirst : m.firstValue < 2 ^ 64)
    (hlast : m.lastValue < 2 ^ 64) : m.bounds.1 < 2 ^ 64 ∧ m.bounds.2 < 2 ^ 64 := by
  have hk : ([] : GoString) ≠ ['k'] := by decide
  have hM : ([] : GoString) ≠ ['M'] := by decide
  rw [Submatch.bounds, hunit, if_neg hk, if_neg hM]
  exact ⟨hfirst, hlast⟩

/-- `ParseBlockSegment` reads a segment text as it is meant exactly if the unit does not wrap its
bounds into an ordered pair. -/
theorem readAs_iff_not_wraps {s : GoString} {m : Submatch} (h : Matches s m) :
    ReadAs m (parseBlockSegment s) ↔ ¬ m.Wraps := by
  rw [parseBlockSegment_of_matches h]
  by_cases hfirst : 2 ^ 64 ≤ m.firstValue
  · rw [if_pos hfirst, ReadAs, if_neg (not_proper_of_large (.inl hfirst))]
    exact iff_of_true ⟨_, rfl⟩ (fun hwraps => absurd hwraps.2.1 (not_lt.mpr hfirst))
  by_cases hlast : 2 ^ 64 ≤ m.lastValue
  · rw [if_neg hfirst, if_pos hlast, ReadAs, if_neg (not_proper_of_large (.inr hlast))]
    exact iff_of_true ⟨_, rfl⟩ (fun hwraps => absurd hwraps.2.2.1 (not_lt.mpr hlast))
  rw [if_neg hfirst, if_neg hlast]
  have hf := not_le.mp hfirst
  have hl := not_le.mp hlast
  obtain ⟨hlo, hhi⟩ := applyUnit_toNat hf hl
  generalize applyUnit m.siunit ⟨.ofNat m.firstValue, .ofNat m.lastValue⟩ = seg at hlo hhi
  by_cases hfit : m.bounds.1 < 2 ^ 64 ∧ m.bounds.2 < 2 ^ 64
  · -- nothing wraps, so the test of the source compares the bounds themselves
    rw [Nat.mod_eq_of_lt hfit.1] at hlo
    rw [Nat.mod_eq_of_lt hfit.2] at hhi
    refine iff_of_true ?_ (fun hwraps => hwraps.2.2.2.1 hfit)
    by_cases hle : m.bounds.1 ≤ m.bounds.2
    · have hok : ¬ seg.first > seg.last := by
        rw [gt_iff_lt, UInt64.lt_iff_toNat_lt, hlo, hhi]
        omega
      rw [ReadAs, if_pos ⟨hle, hfit.1, hfit.2⟩]
      exact ⟨_, dif_neg hok, Prod.ext hlo hhi⟩
    · have hgt : seg.first > seg.last := by
        rw [gt_iff_lt, UInt64.lt_iff_toNat_lt, hlo, hhi]
        omega
      rw [ReadAs, if_neg (fun hp => hle hp.1)]
      exact ⟨_, dif_pos hgt⟩
  · have hunit : m.siunit ≠ [] := fun hnone => hfit (bounds_lt_of_no_unit hnone hf hl)
    rw [ReadAs, if_neg (fun hp => hfit hp.2)]
    have hcmp : seg.first > seg.last ↔ ¬ m.bounds.1 % 2 ^ 64 ≤ m.bounds.2 % 2 ^ 64 := by
      rw [gt_iff_lt, UInt64.lt_iff_toNat_lt, hlo, hhi, not_le]
    constructor
    · rintro ⟨err, herr⟩ hwraps
      rw [SegmentBounds.check, dif_neg (fun hgt => hcmp.mp hgt hwraps.2.2.2.2)] at herr
      cases herr
    · intro hwraps
      have hgt := hcmp.mpr fun hle => hwraps ⟨hunit, hf, hl, hfit, hle⟩
      exact ⟨_, dif_pos hgt⟩

theorem readAs_iff_not_wraps_thousands :
    Matches "1_000-1_100k".toList ⟨"1_000".toList, "1_100".toList, ['k']⟩ ∧
      ReadAs ⟨"1_000".toList, "1_100".toList, ['k']⟩ (parseBlockSegment "1_000-1_100k".toList) :=
  have hmatch : Matches "1_000-1_100k".toList ⟨"1_000".toList, "1_100".toList, ['k']⟩ :=
    matches_of_findStringSubmatch (by decide +kernel)
  ⟨hmatch, (readAs_iff_not_wraps hmatch).mpr (by decide +kernel)⟩

/-- `0-18446744073709552k` is the segment from block 1 to block 384. -/
theorem segment_wraps :
    Matches "0-18446744073709552k".toList ⟨['0'], "18446744073709552".toList, ['k']⟩ ∧
      (parseBlockSegment "0-18446744073709552k".toList).map (fun seg => (seg.first, seg.last)) =
        .ok (1, 384) ∧
      ¬ ReadAs ⟨['0'], "18446744073709552".toList, ['k']⟩
          (parseBlockSegment "0-18446744073709552k".toList) := by
  have hparse : (parseBlockSegment "0-18446744073709552k".toList).map
      (fun seg => (seg.first, seg.last)) = .ok (1, 384) := by decide +kernel
  refine ⟨matches_of_findStringSubmatch (by decide +kernel), hparse, ?_⟩
  rw [ReadAs, if_neg (by decide +kernel)]
  rintro ⟨err, herr⟩
  rw [herr] at hparse
  cases hparse

end EtherVal.Research
