import Mathlib.Algebra.BigOperators.Intervals
import Mathlib.Tactic

/-! The proleptic Gregorian calendar, in days from the first of January of year one. -/
namespace Ledger

def isLeap (year : ℕ) : Prop :=
  year % 4 = 0 ∧ (year % 100 ≠ 0 ∨ year % 400 = 0)

instance (year : ℕ) : Decidable (isLeap year) :=
  inferInstanceAs (Decidable (_ ∧ _))

def daysInMonth (year month : ℕ) : ℕ :=
  if month = 2 then if isLeap year then 29 else 28
  else if month = 4 ∨ month = 6 ∨ month = 9 ∨ month = 11 then 30
  else 31

/-- The days of the months before `month`, in the same year. -/
def daysBeforeMonth (year month : ℕ) : ℕ :=
  ∑ m ∈ Finset.Ico 1 month, daysInMonth year m

def daysBeforeYear (year : ℕ) : ℕ :=
  (year - 1) * 365 + (year - 1) / 4 - (year - 1) / 100 + (year - 1) / 400

/-- The number of a day; the first one is the first of January of year one. -/
def ordinal (year month day : ℕ) : ℕ :=
  daysBeforeYear year + daysBeforeMonth year month + day

structure IsDate (y m d : ℕ) : Prop where
  year : 1 ≤ y
  month : 1 ≤ m ∧ m ≤ 12
  day : 1 ≤ d ∧ d ≤ daysInMonth y m

theorem daysBeforeMonth_mono (year : ℕ) {m n : ℕ} (h : m ≤ n) :
    daysBeforeMonth year m ≤ daysBeforeMonth year n := by
  apply Finset.sum_le_sum_of_subset
  exact Finset.Ico_subset_Ico le_rfl h

theorem daysBeforeMonth_succ (year : ℕ) {month : ℕ} (h : 1 ≤ month) :
    daysBeforeMonth year (month + 1) = daysBeforeMonth year month + daysInMonth year month :=
  Finset.sum_Ico_succ_top h _

theorem daysBeforeYear_succ {year : ℕ} (h : 1 ≤ year) :
    daysBeforeYear (year + 1) = daysBeforeYear year + daysBeforeMonth year 13 := by
  have hyear : daysBeforeMonth year 13 = 337 + if isLeap year then 29 else 28 := by
    unfold daysBeforeMonth daysInMonth
    simp [Finset.sum_Ico_succ_top]
    omega
  obtain ⟨y, rfl⟩ := Nat.exists_eq_add_of_le' h
  have hcentury : y / 100 ≤ y / 4 := Nat.div_le_div_left (by norm_num) (by norm_num)
  have hleap : isLeap (y + 1) ↔ (y + 1) % 4 = 0 ∧ ((y + 1) % 100 ≠ 0 ∨ (y + 1) % 400 = 0) :=
    Iff.rfl
  rw [hyear]
  unfold daysBeforeYear
  rw [Nat.add_sub_cancel, Nat.add_sub_cancel, Nat.succ_div, Nat.succ_div, Nat.succ_div]
  simp only [Nat.dvd_iff_mod_eq_zero, hleap]
  -- which of the three cycles a year ends decides by itself
  have hfours : (y + 1) % 100 = 0 → (y + 1) % 4 = 0 := by omega
  have hcenturies : (y + 1) % 400 = 0 → (y + 1) % 100 = 0 := by omega
  generalize y / 4 = fours at *
  generalize y / 100 = centuries at *
  by_cases h4 : (y + 1) % 4 = 0
  · by_cases h100 : (y + 1) % 100 = 0
    · by_cases h400 : (y + 1) % 400 = 0
      · simp only [h4, h100, h400, if_true, or_true, and_self]
        omega
      · simp only [h4, h100, h400, if_true, if_false, true_and, ne_eq, not_true_eq_false, or_self]
        omega
    · have h400 : (y + 1) % 400 ≠ 0 := fun h => h100 (hcenturies h)
      simp only [h4, h100, h400, if_true, if_false, true_and, ne_eq, not_false_eq_true, true_or]
      omega
  · have h100 : (y + 1) % 100 ≠ 0 := fun h => h4 (hfours h)
    have h400 : (y + 1) % 400 ≠ 0 := fun h => h100 (hcenturies h)
    simp only [h4, h100, h400, if_false, false_and]
    omega

theorem daysBeforeYear_mono {y z : ℕ} (hy : 1 ≤ y) (h : y ≤ z) :
    daysBeforeYear y ≤ daysBeforeYear z := by
  induction z, h using Nat.le_induction with
  | base => exact le_rfl
  | succ z hyz ih =>
    rw [daysBeforeYear_succ (hy.trans hyz)]
    exact ih.trans (Nat.le_add_right _ _)

section Order
variable {y m d y' m' d' : ℕ}

theorem IsDate.ordinal_le (h : IsDate y m d) :
    ordinal y m d ≤ daysBeforeYear y + daysBeforeMonth y (m + 1) := by
  rw [ordinal, daysBeforeMonth_succ y h.month.1]
  have := h.day.2
  omega

theorem IsDate.ordinal_le_year (h : IsDate y m d) : ordinal y m d ≤ daysBeforeYear (y + 1) := by
  have hmonth : daysBeforeMonth y (m + 1) ≤ daysBeforeMonth y 13 :=
    daysBeforeMonth_mono y (by have := h.month.2; omega)
  rw [daysBeforeYear_succ h.year]
  exact h.ordinal_le.trans (Nat.add_le_add_left hmonth _)

theorem ordinal_lt_of_year (h : IsDate y m d) (h' : IsDate y' m' d') (hy : y < y') :
    ordinal y m d < ordinal y' m' d' := by
  have hyear : daysBeforeYear (y + 1) ≤ daysBeforeYear y' := daysBeforeYear_mono (by omega) hy
  have hle := h.ordinal_le_year
  have hpos := h'.day.1
  unfold ordinal at hle ⊢
  omega

theorem ordinal_lt_of_month (h : IsDate y m d) (h' : IsDate y m' d') (hm : m < m') :
    ordinal y m d < ordinal y m' d' := by
  have hmonth : daysBeforeMonth y (m + 1) ≤ daysBeforeMonth y m' := daysBeforeMonth_mono y hm
  have hle := h.ordinal_le
  have hpos := h'.day.1
  unfold ordinal at hle ⊢
  omega

theorem ordinal_lt_of_day (hd : d < d') : ordinal y m d < ordinal y m d' := by
  unfold ordinal
  omega

theorem ordinal_lt (h : IsDate y m d) (h' : IsDate y' m' d') (hlt : [y, m, d] < [y', m', d']) :
    ordinal y m d < ordinal y' m' d' := by
  simp only [List.cons_lt_cons_iff, List.not_lt_nil, and_false, or_false] at hlt
  rcases hlt with hy | ⟨rfl, hm | ⟨rfl, hd⟩⟩
  · exact ordinal_lt_of_year h h' hy
  · exact ordinal_lt_of_month h h' hm
  · exact ordinal_lt_of_day hd

end Order

end Ledger
