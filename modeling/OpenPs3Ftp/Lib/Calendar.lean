import Mathlib.Tactic.IntervalCases

/-! The proleptic Gregorian calendar. Days are counted from 1 January of the year 1, and
seconds from the beginning of 1970. -/
namespace OpenPs3Ftp.Lib.Calendar

def leap (y : Int) : Bool := y % 4 = 0 ∧ (y % 100 ≠ 0 ∨ y % 400 = 0)

def monthLength (leap : Bool) : Nat → Nat
  | 2 => if leap then 29 else 28
  | 4 | 6 | 9 | 11 => 30
  | _ => 31

def beforeYear (y : Int) : Int := 365 * (y - 1) + (y - 1) / 4 - (y - 1) / 100 + (y - 1) / 400

def beforeMonth (leap : Bool) : Nat → Nat
  | 0 | 1 => 0
  | m + 1 => beforeMonth leap m + monthLength leap m

/- Any day of a month, so that a day it does not have is one of the next. -/
def dayNumber (y : Int) (m d : Nat) : Int := beforeYear y + beforeMonth (leap y) m + d - 1

def ValidDate (y : Int) (m d : Nat) : Prop := 1 ≤ m ∧ m ≤ 12 ∧ 1 ≤ d ∧ d ≤ monthLength (leap y) m

instance (y : Int) (m d : Nat) : Decidable (ValidDate y m d) := inferInstanceAs (Decidable (_ ∧ _))

def epoch : Int := dayNumber 1970 1 1
def seconds (y : Int) (m d hh mi ss : Nat) : Int := 86400 * (dayNumber y m d - epoch) + 3600 * hh + 60 * mi + ss

example : seconds 2000 3 1 0 0 0 = 951868800 := by decide

theorem yearLength (y) : beforeYear (y + 1) = beforeYear y + if leap y then 366 else 365 := by
  unfold beforeYear leap
  simp only [decide_eq_true_eq]
  split <;> omega

theorem yearsAbove {y y'} (below : y ≤ y') : beforeYear y ≤ beforeYear y' := by
  unfold beforeYear; omega

theorem nextMonth (leap) {m} (first : 1 ≤ m) :
    beforeMonth leap (m + 1) = beforeMonth leap m + monthLength leap m := by
  obtain ⟨k,rfl⟩ := Nat.exists_eq_add_of_le' first; rfl

theorem monthsAbove (leap) {m m'} (below : m < m') (first : 1 ≤ m) :
    beforeMonth leap m + monthLength leap m ≤ beforeMonth leap m' := by
  induction below with
  | refl => exact (nextMonth leap first).ge
  | @step n later ih => exact ih.trans (nextMonth leap (first.trans (Nat.le_of_succ_le later)) ▸ Nat.le_add_right _ _)

theorem yearEnds (leap) {m} (last : m ≤ 12) (first : 1 ≤ m) :
    beforeMonth leap m + monthLength leap m ≤ if leap then 366 else 365 := by
  revert leap; interval_cases m <;> decide

theorem validWithin {y m d} (valid : ValidDate y m d) :
    beforeYear y ≤ dayNumber y m d ∧ dayNumber y m d < beforeYear (y + 1) := by
  obtain ⟨first,last,low,high⟩ := valid
  have ends := yearEnds (leap y) last first
  rw [yearLength]
  unfold dayNumber
  split at ends <;> simp_all <;> omega

theorem dateOnce {y y' m d m' d'} (valid : ValidDate y m d) (valid' : ValidDate y' m' d')
    (same : dayNumber y m d = dayNumber y' m' d') : y = y' ∧ m = m' ∧ d = d' := by
  have within := validWithin valid
  have within' := validWithin valid'
  have years : y = y' := by
    rcases lt_trichotomy y y' with less | equal | more
    · have := yearsAbove (show y + 1 ≤ y' by omega); omega
    · exact equal
    · have := yearsAbove (show y' + 1 ≤ y by omega); omega
  subst years
  obtain ⟨first,last,low,high⟩ := valid
  obtain ⟨first',last',low',high'⟩ := valid'
  unfold dayNumber at same
  have months : m = m' := by
    rcases lt_trichotomy m m' with less | equal | more
    · have := monthsAbove (leap y) less first; omega
    · exact equal
    · have := monthsAbove (leap y) more first'; omega
  subst months
  exact ⟨rfl,rfl,by omega⟩

theorem secondsOnce {y y' m d hh mi ss m' d' hh' mi' ss'} (valid : ValidDate y m d) (valid' : ValidDate y' m' d')
    (time : hh < 24 ∧ mi < 60 ∧ ss < 60) (time' : hh' < 24 ∧ mi' < 60 ∧ ss' < 60)
    (same : seconds y m d hh mi ss = seconds y' m' d' hh' mi' ss') :
    (y = y' ∧ m = m' ∧ d = d') ∧ hh = hh' ∧ mi = mi' ∧ ss = ss' := by
  unfold seconds at same
  refine ⟨dateOnce valid valid' ?_,?_⟩ <;> omega

theorem monthLong (leap m) : 28 ≤ monthLength leap m := by
  unfold monthLength; split <;> [cases leap; skip; skip; skip; skip; skip] <;> decide

theorem monthShort (leap m) : monthLength leap m ≤ 31 := by
  unfold monthLength; split <;> [cases leap; skip; skip; skip; skip; skip] <;> decide

theorem dayOver {y m d} (first : 1 ≤ m) (last : m ≤ 12) (late : monthLength (leap y) m < d) (bound : d ≤ 31) :
    ValidDate y (m + 1) (d - monthLength (leap y) m) ∧
      dayNumber y m d = dayNumber y (m + 1) (d - monthLength (leap y) m) := by
  have early : m ≠ 12 := by rintro rfl; exact Nat.not_lt_of_le bound late
  have long := monthLong (leap y) m
  have next := monthLong (leap y) (m + 1)
  refine ⟨⟨by omega,by omega,by omega,by omega⟩,?_⟩
  unfold dayNumber
  rw [nextMonth _ first]
  omega

theorem newYear (y) : dayNumber y 1 1 = beforeYear y := by
  simp [dayNumber,beforeMonth]

theorem dateExists (y) (n : Nat) : ∃ y' m d, y ≤ y' ∧ ValidDate y' m d ∧ dayNumber y' m d = beforeYear y + n := by
  induction n with
  | zero => exact ⟨y,1,1,le_rfl,⟨le_rfl,by decide,le_rfl,(by decide : 1 ≤ 28).trans (monthLong _ _)⟩,by simpa using newYear y⟩
  | succ n ih =>
    obtain ⟨y',m,d,after,⟨first,last,low,high⟩,same⟩ := ih
    have start : 1 ≤ monthLength (leap y') (m + 1) := (by decide : 1 ≤ 28).trans (monthLong _ _)
    by_cases inside : d < monthLength (leap y') m
    · refine ⟨y',m,d + 1,after,⟨first,last,by omega,inside⟩,?_⟩
      unfold dayNumber at *; omega
    by_cases early : m < 12
    · refine ⟨y',m + 1,1,after,⟨by omega,early,le_rfl,start⟩,?_⟩
      unfold dayNumber at *; rw [nextMonth _ first]; omega
    obtain rfl : m = 12 := by omega
    have long := yearLength y'
    have months : ∀ leap, beforeMonth leap 12 + monthLength leap 12 = if leap then 366 else 365 := by decide
    specialize months (leap y')
    refine ⟨y' + 1,1,1,by omega,⟨le_rfl,by decide,le_rfl,(by decide : 1 ≤ 28).trans (monthLong _ _)⟩,?_⟩
    rw [newYear]
    unfold dayNumber at same
    split at months <;> simp_all <;> omega

theorem timeExists {y y' t} (low : seconds y 1 1 0 0 0 ≤ t) (high : t < seconds y' 1 1 0 0 0) : ∃ z m d hh mi ss,
    (y ≤ z ∧ z < y') ∧ ValidDate z m d ∧ (hh < 24 ∧ mi < 60 ∧ ss < 60) ∧ seconds z m d hh mi ss = t := by
  simp only [seconds,newYear] at low high
  obtain ⟨z,m,d,after,valid,same⟩ := dateExists y (t / 86400 + epoch - beforeYear y).toNat
  have within := validWithin valid
  refine ⟨z,m,d,(t % 86400 / 3600).toNat,(t % 3600 / 60).toNat,(t % 60).toNat,⟨after,?_⟩,valid,⟨?_,?_,?_⟩,?_⟩
  · by_contra late
    have := yearsAbove (show y' ≤ z by omega)
    omega
  all_goals try omega
  unfold seconds; omega

end OpenPs3Ftp.Lib.Calendar
