import Mathlib.Logic.Function.Iterate
import Nsmt.Lib.Utf8
import Nsmt.Okf.Document

/-!
# The calendar

`civil_from_days` against days that follow one another in the Gregorian calendar,
with the arithmetic of `i64`, and the times that `iso_now` prints against the check
of `is_iso8601`.
-/

namespace Nsmt.Okf

open Nsmt.Lib Nsmt.Lib.Utf8

/-- Year, month and day. -/
abbrev Date := Int × Int × Int

def isLeap (y : Int) : Bool := y % 4 = 0 && (y % 100 ≠ 0 || y % 400 = 0)

def daysInMonth (y m : Int) : Int :=
  if m = 2 then (if isLeap y then 29 else 28) else if m = 4 ∨ m = 6 ∨ m = 9 ∨ m = 11 then 30 else 31

def IsDate : Date → Prop
  | (y, m, d) => (1 ≤ m ∧ m ≤ 12) ∧ 1 ≤ d ∧ d ≤ daysInMonth y m

instance (date : Date) : Decidable (IsDate date) :=
  match date with
  | (_, _, _) => inferInstanceAs (Decidable (_ ∧ _))

def nextDay : Date → Date
  | (y, m, d) => if d < daysInMonth y m then (y, m, d + 1) else if m < 12 then (y, m + 1, 1) else (y + 1, 1, 1)

def epoch : Date := (1970, 1, 1)

/-- The results of all operations of `civil_from_days` that could overflow. -/
def civilValues (z : Int) : List Int :=
  let shifted := z + 719468
  let back := if shifted ≥ 0 then shifted else shifted - 146096
  let era := back.tdiv 146097
  let doe := shifted - era * 146097
  let yoe := (doe - doe.tdiv 1460 + doe.tdiv 36524 - doe.tdiv 146096).tdiv 365
  let y := yoe + era * 400
  let doy := doe - (365 * yoe + yoe.tdiv 4 - yoe.tdiv 100)
  let mp := (5 * doy + 2).tdiv 153
  let d := doy - (153 * mp + 2).tdiv 5 + 1
  let m := if mp < 10 then mp + 3 else mp - 9
  [shifted, back, era * 146097, doe, doe - doe.tdiv 1460, doe - doe.tdiv 1460 + doe.tdiv 36524,
    doe - doe.tdiv 1460 + doe.tdiv 36524 - doe.tdiv 146096, era * 400, y, 365 * yoe, 365 * yoe + yoe.tdiv 4,
    365 * yoe + yoe.tdiv 4 - yoe.tdiv 100, doy, 5 * doy, 5 * doy + 2, 153 * mp, 153 * mp + 2,
    doy - (153 * mp + 2).tdiv 5, d, m, if m ≤ 2 then y + 1 else y]

def FitsI64 (n : Int) : Prop := -2 ^ 63 ≤ n ∧ n < 2 ^ 63

def isAsciiDigit (b : UInt8) : Bool := 0x30 ≤ b.toNat && b.toNat ≤ 0x39

def isIso8601 (b : Bytes) : Bool :=
  let digit (i : Nat) : Bool := b[i]?.any isAsciiDigit
  let is (i : Nat) (c : Char) : Bool := b[i]? = some (UInt8.ofNat c.toNat)
  if b.length < 20 then false
  else
    digit 0 && digit 1 && digit 2 && digit 3 && is 4 '-' && digit 5 && digit 6 && is 7 '-' && digit 8 && digit 9 &&
      is 10 'T' && digit 11 && digit 12 && is 13 ':' && digit 14 && digit 15 && is 16 ':' && digit 17 && digit 18 &&
      (is 19 'Z' || is 19 '+' || is 19 '-')

-- ---------------------------------------------------------------------------
-- Days are counted
-- ---------------------------------------------------------------------------

/-- The month, counted from March. -/
def fromMarch (m : Int) : Int := if m ≤ 2 then m + 9 else m - 3

/-- The days before a year that begins in March, from the first of March of year 0. -/
def daysBefore (y : Int) : Int := 365 * y + y / 4 - y / 100 + y / 400

/-- The days from 1970-01-01 to a date. -/
def dayNumber : Date → Int
  | (y, m, d) => daysBefore (if m ≤ 2 then y - 1 else y) + (153 * fromMarch m + 2) / 5 + d - 1 - 719468

theorem isLeap_iff {y : Int} : isLeap y = true ↔ y % 4 = 0 ∧ (y % 100 ≠ 0 ∨ y % 400 = 0) := by
  simp [isLeap]

theorem daysBefore_succ (y : Int) : daysBefore (y + 1) = daysBefore y + (if isLeap (y + 1) then 366 else 365) := by
  unfold daysBefore
  split
  · rename_i h
    rw [isLeap_iff] at h
    omega
  · rename_i h
    rw [isLeap_iff] at h
    omega

theorem month_cases {m : Int} (h : 1 ≤ m ∧ m ≤ 12) :
    m = 1 ∨ m = 2 ∨ m = 3 ∨ m = 4 ∨ m = 5 ∨ m = 6 ∨ m = 7 ∨ m = 8 ∨ m = 9 ∨ m = 10 ∨ m = 11 ∨ m = 12 := by omega

theorem nextDay_cases (y m d : Int) :
    (d < daysInMonth y m ∧ nextDay (y, m, d) = (y, m, d + 1)) ∨
    (daysInMonth y m ≤ d ∧ m < 12 ∧ nextDay (y, m, d) = (y, m + 1, 1)) ∨
    (daysInMonth y m ≤ d ∧ 12 ≤ m ∧ nextDay (y, m, d) = (y + 1, 1, 1)) := by
  rw [nextDay]
  split
  · rename_i hd
    exact .inl ⟨hd, rfl⟩
  · rename_i hd
    split
    · rename_i hm
      exact .inr (.inl ⟨Int.not_lt.mp hd, hm, rfl⟩)
    · rename_i hm
      exact .inr (.inr ⟨Int.not_lt.mp hd, Int.not_lt.mp hm, rfl⟩)

theorem isDate_nextDay {date : Date} (h : IsDate date) : IsDate (nextDay date) := by
  obtain ⟨y, m, d⟩ := date
  obtain ⟨hm, hd, hle⟩ := h
  have hpos (y m : Int) : 1 ≤ daysInMonth y m := by
    unfold daysInMonth
    split
    · split <;> decide
    · split <;> decide
  rcases nextDay_cases y m d with ⟨hlt, heq⟩ | ⟨-, hlt, heq⟩ | ⟨-, -, heq⟩
  · rw [heq]
    exact ⟨hm, by omega, hlt⟩
  · rw [heq]
    exact ⟨by omega, by omega, hpos y (m + 1)⟩
  · rw [heq]
    exact ⟨by omega, by omega, hpos (y + 1) 1⟩

theorem dayNumber_nextDay {date : Date} (h : IsDate date) : dayNumber (nextDay date) = dayNumber date + 1 := by
  obtain ⟨y, m, d⟩ := date
  obtain ⟨hm, hd, hle⟩ := h
  rcases nextDay_cases y m d with ⟨hlt, heq⟩ | ⟨hlast, hlt, heq⟩ | ⟨hlast, hlt, heq⟩
  · rw [heq]
    simp only [dayNumber]
    omega
  · have hd : d = daysInMonth y m := Int.le_antisymm hle hlast
    have hyear := daysBefore_succ (y - 1)
    rw [Int.sub_add_cancel] at hyear
    rw [heq, hd]
    rcases month_cases hm with rfl | rfl | rfl | rfl | rfl | rfl | rfl | rfl | rfl | rfl | rfl | rfl
    case inr.inl =>
      -- In a leap year the day before the first of March is one later.
      by_cases hleap : isLeap y = true
      · rw [if_pos hleap] at hyear
        simp [dayNumber, fromMarch, daysInMonth, hleap]
        omega
      · rw [if_neg hleap] at hyear
        simp [dayNumber, fromMarch, daysInMonth, hleap]
        omega
    all_goals
      simp [dayNumber, fromMarch, daysInMonth]
      omega
  · obtain rfl : m = 12 := by omega
    obtain rfl : d = 31 := Int.le_antisymm hle hlast
    rw [heq]
    simp [dayNumber, fromMarch]
    omega

-- ---------------------------------------------------------------------------
-- The formula
-- ---------------------------------------------------------------------------

/-- The year of an era from the day of the era: `c` centuries, `q` times four years
and `s` years into it. -/
theorem yearOfEra {c q s doy doe : Int} (hc : 0 ≤ c ∧ c < 4) (hq : 0 ≤ q ∧ q < 25) (hs : 0 ≤ s ∧ s < 4)
    (hdoy : 0 ≤ doy ∧ doy ≤ 365) (hleap : doy = 365 → s = 3 ∧ (q ≠ 24 ∨ c = 3))
    (hdoe : doe = 36524 * c + 1461 * q + 365 * s + doy) :
    (doe - doe / 1460 + doe / 36524 - doe / 146096) / 365 = 100 * c + 4 * q + s := by
  by_cases hlast : doe = 146096
  · have hc3 : c = 3 := by omega
    have hq24 : q = 24 := by omega
    have hs3 : s = 3 := by omega
    rw [hlast, hc3, hq24, hs3]
    rfl
  · have hcentury : doe / 36524 = c := by omega
    have hera : doe / 146096 = 0 := by omega
    -- Of the leap days before it, the division by 1460 counts one more only late in a fourth year.
    have hfour : doe / 1460 = 25 * c + q ∨ doe / 1460 = 25 * c + q + 1 ∧ 1460 ≤ 24 * c + q + 365 * s + doy := by omega
    have hless : doe / 1460 = 25 * c + q → doy ≤ 364 := by omega
    rw [hcentury, hera]
    rcases hfour with hfour | ⟨hfour, hlate⟩
    · have hdoy' := hless hfour
      omega
    · omega

/-- The values that the formula goes through. -/
structure CivilSteps (z era doe yoe doy mp d : Int) : Prop where
  nonneg : 0 ≤ z + 719468
  era_eq : (z + 719468) / 146097 = era
  doe_eq : z + 719468 - era * 146097 = doe
  doe_range : 0 ≤ doe ∧ doe < 146097
  yoe_eq : (doe - doe / 1460 + doe / 36524 - doe / 146096) / 365 = yoe
  yoe_range : 0 ≤ yoe ∧ yoe < 400
  doy_eq : doe - (365 * yoe + yoe / 4 - yoe / 100) = doy
  doy_range : 0 ≤ doy ∧ doy ≤ 365
  mp_eq : (5 * doy + 2) / 153 = mp
  mp_range : 0 ≤ mp ∧ mp ≤ 11
  d_eq : doy - (153 * mp + 2) / 5 + 1 = d

def dateOf (era yoe mp d : Int) : Date :=
  let m := if mp < 10 then mp + 3 else mp - 9
  (if m ≤ 2 then yoe + era * 400 + 1 else yoe + era * 400, m, d)

section
variable {z era doe yoe doy mp d : Int}

theorem CivilSteps.result (h : CivilSteps z era doe yoe doy mp d) : civilFromDays z = dateOf era yoe mp d := by
  obtain ⟨hpos, hera, hdoe, ⟨hdoe0, hdoe1⟩, hyoe, ⟨hyoe0, -⟩, hdoy, ⟨hdoy0, -⟩, hmp, ⟨hmp0, -⟩, hd⟩ := h
  have hN : 0 ≤ doe - doe / 1460 + doe / 36524 - doe / 146096 := by omega
  have hM : 0 ≤ 5 * doy + 2 := by omega
  have hD : 0 ≤ 153 * mp + 2 := by omega
  simp only [civilFromDays, ge_iff_le, if_pos hpos, Int.tdiv_eq_ediv_of_nonneg hpos, hera, hdoe,
    Int.tdiv_eq_ediv_of_nonneg hdoe0, Int.tdiv_eq_ediv_of_nonneg hN, hyoe, Int.tdiv_eq_ediv_of_nonneg hyoe0, hdoy,
    Int.tdiv_eq_ediv_of_nonneg hM, hmp, Int.tdiv_eq_ediv_of_nonneg hD, hd, dateOf]

/-- Nothing overflows up to the last day that a `u64` of seconds gives. -/
theorem CivilSteps.fits (h : CivilSteps z era doe yoe doy mp d) (hz : z ≤ 213503982334601) :
    ∀ v ∈ civilValues z, FitsI64 v := by
  obtain ⟨hpos, hera, hdoe, ⟨hdoe0, hdoe1⟩, hyoe, ⟨hyoe0, hyoe1⟩, hdoy, ⟨hdoy0, hdoy1⟩, hmp, ⟨hmp0, hmp1⟩, hd⟩ := h
  have hN : 0 ≤ doe - doe / 1460 + doe / 36524 - doe / 146096 := by omega
  have hM : 0 ≤ 5 * doy + 2 := by omega
  have hD : 0 ≤ 153 * mp + 2 := by omega
  have hpow : (2 : Int) ^ 63 = 9223372036854775808 := by decide
  simp only [civilValues, ge_iff_le, if_pos hpos, Int.tdiv_eq_ediv_of_nonneg hpos, hera, hdoe,
    Int.tdiv_eq_ediv_of_nonneg hdoe0, Int.tdiv_eq_ediv_of_nonneg hN, hyoe, Int.tdiv_eq_ediv_of_nonneg hyoe0, hdoy,
    Int.tdiv_eq_ediv_of_nonneg hM, hmp, Int.tdiv_eq_ediv_of_nonneg hD, hd, FitsI64, hpow, List.forall_mem_cons,
    List.not_mem_nil, false_imp_iff, implies_true, and_true]
  omega

end

theorem month_range {y m d : Int} (h : IsDate (y, m, d)) :
    (0 ≤ fromMarch m ∧ fromMarch m ≤ 11) ∧ (if fromMarch m < 10 then fromMarch m + 3 else fromMarch m - 9) = m := by
  obtain ⟨hm, -⟩ := h
  unfold fromMarch
  split
  · exact ⟨⟨by omega, by omega⟩, by rw [if_neg (by omega)]; omega⟩
  · exact ⟨⟨by omega, by omega⟩, by rw [if_pos (by omega)]; omega⟩

/-- The day of a year that begins in March gives back the month and the day. -/
theorem doy_facts {y m d doy : Int} (h : IsDate (y, m, d)) (hdoy : (153 * fromMarch m + 2) / 5 + d - 1 = doy) :
    (0 ≤ doy ∧ doy ≤ 365) ∧ (doy = 365 → isLeap ((if m ≤ 2 then y - 1 else y) + 1) = true) ∧
      (5 * doy + 2) / 153 = fromMarch m ∧ doy - (153 * fromMarch m + 2) / 5 + 1 = d := by
  obtain ⟨hm, hd, hle⟩ := h
  rcases month_cases hm with rfl | rfl | rfl | rfl | rfl | rfl | rfl | rfl | rfl | rfl | rfl | rfl
  case inr.inl =>
    simp [daysInMonth, fromMarch] at hle hdoy ⊢
    by_cases hleap : isLeap y = true
    · rw [if_pos hleap] at hle
      exact ⟨by omega, fun _ => hleap, by omega, by omega⟩
    · rw [if_neg hleap] at hle
      exact ⟨by omega, fun hlast => by omega, by omega, by omega⟩
  all_goals
    simp [daysInMonth, fromMarch] at hle hdoy ⊢
    omega

theorem civilSteps_dayNumber {y m d : Int} (h : IsDate (y, m, d)) (hpos : 0 ≤ dayNumber (y, m, d) + 719468) :
    ∃ doe doy, CivilSteps (dayNumber (y, m, d)) ((if m ≤ 2 then y - 1 else y) / 400) doe
      ((if m ≤ 2 then y - 1 else y) % 400) doy (fromMarch m) d := by
  obtain ⟨hdoy, hleap, hmp, hd⟩ := doy_facts h rfl
  obtain ⟨hrange, -⟩ := month_range h
  rw [isLeap_iff] at hleap
  simp only [dayNumber] at hpos ⊢
  generalize (if m ≤ 2 then y - 1 else y) = year at hpos hleap ⊢
  generalize hdays : (153 * fromMarch m + 2) / 5 + d - 1 = doy at *
  have hnumber : daysBefore year + (153 * fromMarch m + 2) / 5 + d - 1 - 719468 + 719468 = daysBefore year + doy := by omega
  have hera : daysBefore year = 146097 * (year / 400) + daysBefore (year % 400) := by
    unfold daysBefore
    omega
  have hdoe : 0 ≤ daysBefore (year % 400) + doy ∧ daysBefore (year % 400) + doy < 146097 := by
    unfold daysBefore
    omega
  refine ⟨daysBefore (year % 400) + doy, doy, ?_⟩
  have hparts : 100 * (year % 400 / 100) + 4 * (year % 400 % 100 / 4) + year % 400 % 4 = year % 400 := by omega
  have hleap' : doy = 365 → year % 400 % 4 = 3 ∧ (year % 400 % 100 / 4 ≠ 24 ∨ year % 400 / 100 = 3) := by
    intro hlast
    have hyear := hleap hlast
    omega
  have hdays' : daysBefore (year % 400) + doy =
      36524 * (year % 400 / 100) + 1461 * (year % 400 % 100 / 4) + 365 * (year % 400 % 4) + doy := by
    unfold daysBefore
    omega
  have hyoe := yearOfEra (by omega) (by omega) (by omega) hdoy hleap' hdays'
  constructor
  case nonneg => exact hpos
  case era_eq => omega
  case doe_eq => omega
  case doe_range => exact hdoe
  case yoe_eq => exact hyoe.trans hparts
  case yoe_range => omega
  case doy_eq =>
    unfold daysBefore
    omega
  case doy_range => exact hdoy
  case mp_eq => exact hmp
  case mp_range => exact hrange
  case d_eq => exact hd

/-- The formula finds the date from the number of its day. -/
theorem civilFromDays_dayNumber {date : Date} (h : IsDate date) (hpos : 0 ≤ dayNumber date + 719468) :
    civilFromDays (dayNumber date) = date := by
  obtain ⟨y, m, d⟩ := date
  obtain ⟨doe, doy, hsteps⟩ := civilSteps_dayNumber h hpos
  obtain ⟨-, hm⟩ := month_range h
  rw [hsteps.result]
  simp only [dateOf, hm, Prod.mk.injEq, and_true]
  split
  · omega
  · omega

theorem iterate_nextDay (z : Nat) : IsDate (nextDay^[z] epoch) ∧ dayNumber (nextDay^[z] epoch) = z := by
  induction z with
  | zero => exact ⟨(by decide : IsDate epoch), (by decide : dayNumber epoch = 0)⟩
  | succ z ih =>
    rw [Function.iterate_succ_apply']
    exact ⟨isDate_nextDay ih.1, by rw [dayNumber_nextDay ih.1, ih.2]; rfl⟩

/-- `civil_from_days` walks through the calendar day by day. -/
theorem civilFromDays_iterate (z : Nat) : civilFromDays z = nextDay^[z] epoch := by
  obtain ⟨hdate, hnumber⟩ := iterate_nextDay z
  have hpos : 0 ≤ dayNumber (nextDay^[z] epoch) + 719468 := by omega
  rw [← civilFromDays_dayNumber hdate hpos, hnumber]

theorem fits_civilValues {z : Nat} (hz : z ≤ (2 ^ 64 - 1) / 86400) : ∀ v ∈ civilValues z, FitsI64 v := by
  obtain ⟨hdate, hnumber⟩ := iterate_nextDay z
  rcases hday : nextDay^[z] epoch with ⟨y, m, d⟩
  rw [hday] at hdate hnumber
  obtain ⟨doe, doy, hsteps⟩ := civilSteps_dayNumber hdate (by omega)
  rw [hnumber] at hsteps
  have hz : z ≤ 213503982334601 := hz
  exact hsteps.fits (by omega)

-- ---------------------------------------------------------------------------
-- Times
-- ---------------------------------------------------------------------------

/-- A number that is not too long is padded to its width with digits. -/
theorem padded_digits {width n : Nat} (hwidth : 0 < width) (h : n < 10 ^ width) :
    (padded width n).length = width ∧ ∀ c ∈ padded width n, c.isDigit = true := by
  have hlength : (toString n).toList.length ≤ width := (Nat.length_repr_le_iff hwidth).mpr h
  have hnonneg : ¬ (n : Int) < 0 := by omega
  rw [padded, if_neg hnonneg, Int.natAbs_natCast, List.leftpad]
  constructor
  · rw [List.length_append, List.length_replicate]
    omega
  · intro c hc
    rcases List.mem_append.mp hc with hc | hc
    · rw [(List.mem_replicate.mp hc).2]
      rfl
    · exact isDigit_of_mem_toString hc

theorem two_digits {n : Nat} (h : n < 100) :
    ∃ a b, padded 2 n = [a, b] ∧ a.isDigit = true ∧ b.isDigit = true := by
  obtain ⟨hlength, hdigits⟩ := padded_digits (by decide : 0 < 2) h
  obtain ⟨a, b, heq⟩ := List.length_eq_two.mp hlength
  rw [heq] at hdigits
  exact ⟨a, b, heq, hdigits a (by simp), hdigits b (by simp)⟩

theorem four_digits {n : Nat} (h : n < 10000) : ∃ a b c d, padded 4 n = [a, b, c, d] ∧
    a.isDigit = true ∧ b.isDigit = true ∧ c.isDigit = true ∧ d.isDigit = true := by
  obtain ⟨hlength, hdigits⟩ := padded_digits (by decide : 0 < 4) h
  generalize padded 4 n = t at hlength hdigits
  match t, hlength with
  | [a, b, c, d], _ =>
    simp only [List.forall_mem_cons, List.not_mem_nil, false_imp_iff, implies_true, and_true] at hdigits
    exact ⟨a, b, c, d, rfl, hdigits⟩

theorem encode_ascii {t : Text} (h : ∀ c ∈ t, c.toNat < 128) : encode t = t.map fun c => UInt8.ofNat c.toNat := by
  induction t with
  | nil => rfl
  | cons c t ih =>
    obtain ⟨hc, ht⟩ := List.forall_mem_cons.mp h
    rw [encode_cons, encodeChar_ascii hc, ih ht]
    rfl

theorem isAsciiDigit_of {c : Char} (h : c.isDigit = true) : isAsciiDigit (UInt8.ofNat c.toNat) = true := by
  simp only [Char.isDigit, Bool.and_eq_true, decide_eq_true_eq] at h
  have hlo : 48 ≤ c.toNat := h.1
  have hhi : c.toNat ≤ 57 := h.2
  simp [isAsciiDigit]
  omega

theorem year_nextDay (date : Date) : date.1 ≤ (nextDay date).1 := by
  obtain ⟨y, m, d⟩ := date
  rcases nextDay_cases y m d with ⟨-, heq⟩ | ⟨-, -, heq⟩ | ⟨-, -, heq⟩
  all_goals simp [heq]

theorem year_iterate (z : Nat) : 1970 ≤ (nextDay^[z] epoch).1 := by
  induction z with
  | zero => exact (by decide : 1970 ≤ epoch.1)
  | succ z ih =>
    rw [Function.iterate_succ_apply']
    exact ih.trans (year_nextDay _)

def dateText : Date → Text
  | (y, m, d) => padded 4 y ++ "-".toList ++ padded 2 m ++ "-".toList ++ padded 2 d

/-- The date at some seconds after 1970. -/
def dateAt (secs : Nat) : Date := civilFromDays (secs / 86400 : Nat)

theorem isoNow_eq (secs : Nat) : isoNow secs = dateText (dateAt secs) ++ "T".toList ++
    padded 2 (secs % 86400 / 3600 : Nat) ++ ":".toList ++ padded 2 (secs % 86400 % 3600 / 60 : Nat) ++ ":".toList ++
    padded 2 (secs % 86400 % 60 : Nat) ++ "Z".toList := rfl

/-- Before the year 10000 a date has ten characters. -/
theorem dateText_dateAt {secs : Nat} (h : (dateAt secs).1 ≤ 9999) : ∃ y1 y2 y3 y4 m1 m2 d1 d2,
    dateText (dateAt secs) = [y1, y2, y3, y4, '-', m1, m2, '-', d1, d2] ∧
      ∀ c ∈ [y1, y2, y3, y4, m1, m2, d1, d2], c.isDigit = true := by
  obtain ⟨hdate, -⟩ := iterate_nextDay (secs / 86400)
  have hyear := year_iterate (secs / 86400)
  rw [← civilFromDays_iterate] at hdate hyear
  unfold dateAt at h ⊢
  rcases hday : civilFromDays (secs / 86400 : Nat) with ⟨y, m, d⟩
  rw [hday] at h hdate hyear
  obtain ⟨hm, hd, hle⟩ := hdate
  have hmonth : daysInMonth y m ≤ 31 := by
    unfold daysInMonth
    split
    · split <;> decide
    · split <;> decide
  obtain ⟨year, rfl⟩ := Int.eq_ofNat_of_zero_le (show 0 ≤ y by omega)
  obtain ⟨month, rfl⟩ := Int.eq_ofNat_of_zero_le (show 0 ≤ m by omega)
  obtain ⟨day, rfl⟩ := Int.eq_ofNat_of_zero_le (show 0 ≤ d by omega)
  obtain ⟨y1, y2, y3, y4, hy, hy1, hy2, hy3, hy4⟩ := four_digits (show year < 10000 by omega)
  obtain ⟨m1, m2, hm, hm1, hm2⟩ := two_digits (show month < 100 by omega)
  obtain ⟨d1, d2, hd, hd1, hd2⟩ := two_digits (show day < 100 by omega)
  refine ⟨y1, y2, y3, y4, m1, m2, d1, d2, ?_, by simp [*]⟩
  rw [dateText, hy, hm, hd]
  rfl

/-- What is printed before the year 10000 is a time. -/
theorem isIso8601_isoNow {secs : Nat} (h : (civilFromDays (secs / 86400 : Nat)).1 ≤ 9999) :
    isIso8601 (encode (isoNow secs)) = true := by
  obtain ⟨y1, y2, y3, y4, m1, m2, d1, d2, hdate, hdigits⟩ := dateText_dateAt h
  simp only [List.forall_mem_cons, List.not_mem_nil, false_imp_iff, implies_true, and_true] at hdigits
  obtain ⟨a1, a2, ha, ha1, ha2⟩ := two_digits (show secs % 86400 / 3600 < 100 by omega)
  obtain ⟨b1, b2, hb, hb1, hb2⟩ := two_digits (show secs % 86400 % 3600 / 60 < 100 by omega)
  obtain ⟨c1, c2, hc, hc1, hc2⟩ := two_digits (show secs % 86400 % 60 < 100 by omega)
  have hiso : isoNow secs = [y1, y2, y3, y4, '-', m1, m2, '-', d1, d2, 'T', a1, a2, ':', b1, b2, ':', c1, c2, 'Z'] := by
    rw [isoNow_eq, hdate, ha, hb, hc]
    rfl
  have hascii {c : Char} (hc : c.isDigit = true) : c.toNat < 128 := by
    simp only [Char.isDigit, Bool.and_eq_true, decide_eq_true_eq] at hc
    exact Nat.lt_of_le_of_lt hc.2 (by decide)
  rw [hiso, encode_ascii]
  · simp [isIso8601, isAsciiDigit_of, *]
  · simp [*]

/-- In the first ten characters of a time stands its date. -/
theorem take_isoNow {secs : Nat} (h : (dateAt secs).1 ≤ 9999) : (isoNow secs).take 10 = dateText (dateAt secs) := by
  obtain ⟨y1, y2, y3, y4, m1, m2, d1, d2, hdate, -⟩ := dateText_dateAt h
  have hlength : (dateText (dateAt secs)).length = 10 := by
    rw [hdate]
    rfl
  simp only [isoNow_eq, List.append_assoc]
  rw [← hlength, List.take_left]

/-- The calendar and the clock: every day gives its date, and every time before the year
10000 the form of a time. -/
theorem calendar_exact (z : Nat) (hz : z ≤ (2 ^ 64 - 1) / 86400) :
    (∀ v ∈ civilValues z, FitsI64 v) ∧ IsDate (civilFromDays z) ∧ nextDay^[z] epoch = civilFromDays z ∧
      civilFromDays (z + 1 : Nat) = nextDay (civilFromDays z) ∧
      ∀ secs, secs / 86400 = z → (civilFromDays z).1 ≤ 9999 → isIso8601 (encode (isoNow secs)) = true := by
  obtain ⟨hdate, -⟩ := iterate_nextDay z
  refine ⟨fits_civilValues hz, by rwa [civilFromDays_iterate], (civilFromDays_iterate z).symm, ?_, ?_⟩
  · rw [civilFromDays_iterate, civilFromDays_iterate, Function.iterate_succ_apply']
  · rintro secs rfl hyear
    exact isIso8601_isoNow hyear

theorem calendar_exact_leap_day : civilFromDays 19782 = (2024, 2, 29) ∧ civilFromDays 19783 = (2024, 3, 1) := by
  have h := (calendar_exact 19782 (by decide)).2.2.2.1
  exact ⟨by decide, by rw [show ((19783 : Int)) = ((19782 + 1 : Nat) : Int) from rfl, h]; decide⟩

end Nsmt.Okf
