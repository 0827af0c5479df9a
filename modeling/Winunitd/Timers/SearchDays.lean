import Winunitd.Timers.Search

/-
  The days that a search visits.

  In a zone in which every day has its midnight, the search is
  one over the numbers of days.  Moving by years or by months
  finds the first day past the start that has the day of the
  month asked for; where it finds none, none is near.

  Key definitions include:
    * `OnCalendar.Matches`
    * `OnCalendar.Index`, `OnCalendar.FirstPast`

  Key theorems include:
    * `OnCalendar.dateMatches_iff`
    * `OnCalendar.firstPast_nextYears`
    * `OnCalendar.firstPast_nextMonths`
-/

------------------------------------------------------------
-- Days
------------------------------------------------------------

namespace Winunitd

namespace Timers

open Lib.WallClock
open Lib.Gregorian

def yearOn (n : Int) : Int := (Date.ofNumber n).year

def monthOn (n : Int) : Int := (Date.ofNumber n).month

def dayOn (n : Int) : Int := (Date.ofNumber n).day

theorem monthOn_bounds
    (n : Int) :
    1 ≤ monthOn n ∧ monthOn n ≤ 12 :=
  ⟨(Date.ofNumber n).month_pos, (Date.ofNumber n).month_le⟩

theorem dayOn_bounds
    (n : Int) :
    1 ≤ dayOn n ∧ dayOn n ≤ 31 :=
  ⟨(Date.ofNumber n).day_pos,
    (Date.ofNumber n).day_le.trans (daysInMonth_bounds _ _).2⟩

/- Days are in the order of their years, months and days. -/
theorem day_order
    (n k : Int) :
    (yearOn n < yearOn k → n < k) ∧
      (yearOn n = yearOn k → monthOn n < monthOn k → n < k) ∧
      (yearOn n = yearOn k → monthOn n = monthOn k →
        (n < k ↔ dayOn n < dayOn k)) := by
  refine ⟨?_, ?_, ?_⟩
  · intro h
    simpa using Date.number_lt_of_year h
  · intro hYear h
    simpa using Date.number_lt_of_month hYear h
  · intro hYear hMonth
    simpa [dayOn] using Date.number_lt_iff_day hYear hMonth

theorem day_lt_iff
    (n k : Int) :
    n < k ↔
      yearOn n < yearOn k ∨
        (yearOn n = yearOn k ∧
          (monthOn n < monthOn k ∨
            (monthOn n = monthOn k ∧ dayOn n < dayOn k))) := by
  have hOrder := day_order n k
  have hBack := day_order k n
  omega

/- Between two days of a month there are only days of it. -/
theorem month_between
    {n e k : Int}
    (hLow : n ≤ e)
    (hHigh : e ≤ k)
    (hYear : yearOn n = yearOn k)
    (hMonth : monthOn n = monthOn k) :
    yearOn e = yearOn n ∧ monthOn e = monthOn n := by
  have hAfter := day_order e n
  have hBefore := day_order k e
  omega

/- The number of a day of a month that has it. -/
theorem dayNumber_spec
    {y m d : Int}
    (hMonth : 1 ≤ m ∧ m ≤ 12)
    (hDay : 1 ≤ d ∧ d ≤ daysInMonth (isLeap y) m) :
    yearOn (dayNumber y m d) = y ∧ monthOn (dayNumber y m d) = m ∧
      dayOn (dayNumber y m d) = d := by
  have hDate :
      Date.ofNumber (dayNumber y m d) =
        ⟨y, m, d, hMonth.1, hMonth.2, hDay.1, hDay.2⟩ :=
    Date.ofNumber_number
      ⟨y, m, d, hMonth.1, hMonth.2, hDay.1, hDay.2⟩
  unfold yearOn monthOn dayOn
  rw [hDate]
  exact ⟨rfl, rfl, rfl⟩

namespace OnCalendar

/- A day satisfies the date pattern. -/
def Matches (c : OnCalendar) (n : Int) : Prop :=
  (0 ≤ c.year → yearOn n = c.year) ∧
    (0 ≤ c.month → monthOn n = c.month) ∧
    (0 ≤ c.day → dayOn n = c.day)

variable {c : OnCalendar}
variable {z : Zone}

/- The date an instant shows satisfies the pattern. -/
theorem dateMatches_iff
    (t : Int) :
    c.dateMatches z t = true ↔ c.Matches (z.wall t / daySeconds) := by
  unfold dateMatches Matches yearOn monthOn dayOn
  change _ ↔
    (0 ≤ c.year → (z.date t).year = c.year) ∧
      (0 ≤ c.month → (z.date t).month = c.month) ∧
      (0 ≤ c.day → (z.date t).day = c.day)
  split
  · rename_i hYear
    simp only [Bool.false_eq_true, false_iff]
    exact fun h => hYear.2 (h.1 hYear.1)
  split
  · rename_i hMonth
    simp only [Bool.false_eq_true, false_iff]
    exact fun h => hMonth.2 (h.2.1 hMonth.1)
  split
  · rename_i hDay
    simp only [Bool.false_eq_true, false_iff]
    exact fun h => hDay.2 (h.2.2 hDay.1)
  · rename_i hYear hMonth hDay
    simp only [not_and, not_not] at hYear hMonth hDay
    exact ⟨fun _ => ⟨hYear, hMonth, hDay⟩, fun _ => rfl⟩

section Midnights

variable (hz : z.Midnights)

include hz

theorem dateMatches_midnight
    (n : Int) :
    c.dateMatches z (z.midnight n) = true ↔ c.Matches n := by
  rw [dateMatches_iff, hz.wall_eq, Int.mul_ediv_cancel n (by decide)]

/- The midnight of a date is found unless it does not exist. -/
theorem civilAt_spec
    {y m : Int}
    (hMonth : 1 ≤ m ∧ m ≤ 12)
    (d : Int) :
    (civilAt z y m d ≠ 0 ∧
        ∃ n, civilAt z y m d = z.midnight n ∧
          yearOn n = y ∧ monthOn n = m ∧ dayOn n = d) ∨
      (civilAt z y m d = 0 ∧
        ∀ k, 1 < k →
          ¬ (yearOn k = y ∧ monthOn k = m ∧ dayOn k = d)) := by
  have hMake : z.make y m d 0 0 0 0 = z.midnight (dayNumber y m d) := by
    have hYear : y + (m - 1) / 12 = y := by omega
    have hSame : (m - 1) % 12 + 1 = m := by omega
    rw [Zone.make_midnight, hYear, hSame]
  have hShown :
      onDate z (z.midnight (dayNumber y m d)) y m d = true ↔
        yearOn (dayNumber y m d) = y ∧
          monthOn (dayNumber y m d) = m ∧
          dayOn (dayNumber y m d) = d := by
    unfold onDate yearOn monthOn dayOn
    rw [hz.date_eq]
    simp [and_assoc]
  unfold civilAt
  dsimp only
  rw [hMake]
  split
  · rename_i hNot
    refine .inr ⟨rfl, ?_⟩
    rintro k - ⟨hy, hm, hd⟩
    -- a day of the month with these numbers would show them
    have hDay : 1 ≤ d ∧ d ≤ daysInMonth (isLeap y) m := by
      rw [← hd, ← hy, ← hm]
      exact ⟨(Date.ofNumber k).day_pos, (Date.ofNumber k).day_le⟩
    rw [hShown.mpr (dayNumber_spec hMonth hDay)] at hNot
    cases hNot
  · rename_i hOn
    rw [Bool.not_eq_false] at hOn
    have hSpec := hShown.mp hOn
    by_cases hZero : z.midnight (dayNumber y m d) = 0
    · refine .inr ⟨hZero, ?_⟩
      rintro k hk ⟨hy, hm, hd⟩
      have hFirst := hz.midnight_eq_zero hZero
      have hBefore := day_order (dayNumber y m d) k
      omega
    · exact .inl ⟨hZero, _, rfl, hSpec⟩

/- The last midnight of a month. -/
theorem monthEnd_spec
    {y m : Int}
    (hMonth : 1 ≤ m ∧ m ≤ 12) :
    ∃ n, monthEnd z y m = z.midnight n ∧ yearOn n = y ∧
      monthOn n = m ∧
      ∀ k, yearOn k = y → monthOn k = m → k ≤ n := by
  have hLength := daysInMonth_bounds (isLeap y) m
  have hSpec :=
    dayNumber_spec hMonth
      (⟨by omega, le_rfl⟩ :
        1 ≤ daysInMonth (isLeap y) m ∧
          daysInMonth (isLeap y) m ≤ daysInMonth (isLeap y) m)
  have hMake :
      z.make y (m + 1) 0 0 0 0 0 =
        z.midnight (dayNumber y m (daysInMonth (isLeap y) m)) := by
    rw [Zone.make_midnight]
    congr 1
    rcases eq_or_lt_of_le hMonth.2 with hLast | hBefore
    · -- after December comes January of the next year
      subst hLast
      have hYear := yearStart_succ y
      have hEnd := monthStart_last (isLeap y)
      have hFirst := monthStart_first (isLeap (y + 1))
      have hDays : daysInMonth (isLeap y) 12 = 31 := by
        cases isLeap y <;> decide
      simp only [dayNumber, Int.reduceAdd, Int.reduceSub,
        Int.reduceDiv, Int.reduceMod, hDays, hFirst]
      omega
    · have hYear : y + (m + 1 - 1) / 12 = y := by omega
      have hSame : (m + 1 - 1) % 12 + 1 = m + 1 := by omega
      have hNext := monthStart_succ (isLeap y) hMonth.1 hBefore
      unfold dayNumber
      rw [hYear, hSame, hNext]
      omega
  refine ⟨dayNumber y m (daysInMonth (isLeap y) m), ?_, hSpec.1,
    hSpec.2.1, ?_⟩
  · unfold monthEnd
    dsimp only
    rw [hMake, hz.date_eq]
    exact if_neg (not_not.mpr hSpec.2.1)
  · intro k hy hm
    have hDay : dayOn k ≤ daysInMonth (isLeap y) m := by
      rw [← hy, ← hm]
      exact (Date.ofNumber k).day_le
    have hBack :=
      day_order (dayNumber y m (daysInMonth (isLeap y) m)) k
    omega

end Midnights

------------------------------------------------------------
-- Loops Over Years And Months
------------------------------------------------------------

/-
  Positions that keep the order of days and hold at most one
  day of a kind each: the years if a kind has one date in a
  year, the months if it has one in a month.
-/
structure Index (P : Int → Prop) (f : Int → Int) : Prop where
  lt_of_lt : ∀ n k, f n < f k → n < k
  unique : ∀ n k, P n → P k → f n = f k → n = k

/-
  A loop over positions has found the first day of a kind past
  a position, or it has passed all of its turns.
-/
def FirstPast
    (P : Int → Prop)
    (z : Zone)
    (backward : Bool)
    (f : Int → Int)
    (a : Int)
    (turns : Nat)
    (r : Int) : Prop :=
  (r = 0 ∧
      ∀ k, 1 < k → P k → past backward a (f k) = true →
        past backward (a + turns * stride backward) (f k) = true) ∨
    (r ≠ 0 ∧
      ∃ n, r = z.midnight n ∧ P n ∧ past backward a (f n) = true ∧
        ∀ k, 1 < k → P k → past backward a (f k) = true →
          past backward k n = false)

namespace FirstPast

variable {P : Int → Prop}
variable {f : Int → Int}
variable {backward : Bool}
variable {a r : Int}
variable {turns : Nat}

theorem none
    (P : Int → Prop)
    (z : Zone)
    (backward : Bool)
    (f : Int → Int)
    (a : Int) :
    FirstPast P z backward f a 0 0 := by
  refine .inl ⟨rfl, ?_⟩
  intro k _ _ hPast
  simpa using hPast

/- The position next to the last one holds a day. -/
theorem found
    (hf : Index P f)
    {n : Int}
    (hSome : r ≠ 0)
    (hEq : r = z.midnight n)
    (hn : P n)
    (hNext : f n = a + stride backward) :
    FirstPast P z backward f a (turns + 1) r := by
  refine .inr ⟨hSome, n, hEq, hn, ?_, ?_⟩
  · cases backward <;> simp [past, stride] at * <;> omega
  · intro k hk hP hPast
    have hLater := hf.lt_of_lt n k
    have hEarlier := hf.lt_of_lt k n
    have hSame := hf.unique n k hn hP
    cases backward <;> simp [past, stride] at * <;> omega

/- The position next to the last one holds none. -/
theorem skip
    (hNone : ∀ k, 1 < k → P k → f k ≠ a + stride backward)
    (h : FirstPast P z backward f (a + stride backward) turns r) :
    FirstPast P z backward f a (turns + 1) r := by
  have hSkip :
      ∀ k, 1 < k → P k → past backward a (f k) = true →
        past backward (a + stride backward) (f k) = true := by
    intro k hk hP hPast
    have hNot := hNone k hk hP
    cases backward <;> simp [past, stride] at * <;> omega
  rcases h with ⟨hZero, hFar⟩ | ⟨hSome, n, hEq, hn, hPast, hFirst⟩
  · refine .inl ⟨hZero, ?_⟩
    intro k hk hP hPast
    have hLater := hFar k hk hP (hSkip k hk hP hPast)
    cases backward <;> simp [past, stride] at * <;> omega
  · refine .inr ⟨hSome, n, hEq, hn, ?_, ?_⟩
    · cases backward <;> simp [past, stride] at * <;> omega
    · intro k hk hP hPast'
      exact hFirst k hk hP (hSkip k hk hP hPast')

/- Nothing lies past a position. -/
theorem exhausted
    (hNone : ∀ k, 1 < k → P k → past backward a (f k) = false) :
    FirstPast P z backward f a turns 0 := by
  refine .inl ⟨rfl, ?_⟩
  intro k hk hP hPast
  rw [hNone k hk hP] at hPast
  cases hPast

end FirstPast

def monthIndex (n : Int) : Int :=
  yearOn n * 12 + monthOn n - 1

theorem monthIndex_lt
    (n k : Int)
    (h : monthIndex n < monthIndex k) :
    n < k := by
  have hOrder := day_order n k
  have hMonth := monthOn_bounds n
  have hMonth' := monthOn_bounds k
  unfold monthIndex at h
  omega

theorem eq_of_shown
    {n k : Int}
    (hYear : yearOn n = yearOn k)
    (hMonth : monthOn n = monthOn k)
    (hDay : dayOn n = dayOn k) :
    n = k := by
  have hOrder := day_order n k
  have hBack := day_order k n
  omega

variable {P : Int → Prop}

/- The kinds of days that the loops look for. -/
theorem index_yearOn
    (hP : ∀ n, P n → c.Matches n)
    (hMonth : 0 ≤ c.month)
    (hDay : 0 ≤ c.day) :
    Index P yearOn where
  lt_of_lt := fun n k => (day_order n k).1
  unique := by
    intro n k hn hk hYear
    have hFirst := hP n hn
    have hOther := hP k hk
    unfold Matches at hFirst hOther
    exact eq_of_shown hYear (by omega) (by omega)

theorem index_monthIndex
    (hP : ∀ n, P n → c.Matches n)
    (hDay : 0 ≤ c.day) :
    Index P monthIndex where
  lt_of_lt := monthIndex_lt
  unique := by
    intro n k hn hk hIndex
    have hFirst := hP n hn
    have hOther := hP k hk
    have hMonth := monthOn_bounds n
    have hMonth' := monthOn_bounds k
    unfold Matches at hFirst hOther
    unfold monthIndex at hIndex
    exact eq_of_shown (by omega) (by omega) (by omega)

theorem addMonths_of_nonneg
    {y m delta : Int}
    (h : 0 ≤ y * 12 + m - 1 + delta) :
    addMonths y m delta =
      ((y * 12 + m - 1 + delta) / 12,
        (y * 12 + m - 1 + delta) % 12 + 1) := by
  unfold addMonths
  exact if_neg (not_lt.mpr h)

section Loops

variable (hz : z.Midnights)
variable {backward : Bool}

include hz

theorem past_midnight
    (n k : Int) :
    past backward (z.midnight n) (z.midnight k) =
      past backward n k := by
  have hLt := hz.strictMono.lt_iff_lt (a := n) (b := k)
  have hGt := hz.strictMono.lt_iff_lt (a := k) (b := n)
  cases backward <;> simp [past, hLt, hGt]

theorem firstPast_nextYears
    (hYear : c.year < 0)
    (hMonth : 1 ≤ c.month ∧ c.month ≤ 12)
    (hDay : 0 ≤ c.day)
    (turns : Nat)
    (y : Int) :
    FirstPast c.Matches z backward yearOn y turns
      (c.nextYears z backward turns y) := by
  induction turns generalizing y with
  | zero => exact FirstPast.none _ _ _ _ _
  | succ turns ih =>
      unfold nextYears
      dsimp only
      rw [if_neg (by omega)]
      rcases civilAt_spec hz hMonth c.day (y := y + stride backward)
        with ⟨hFound, n, hEq, hy, hm, hd⟩ | ⟨hNone, hOther⟩
      · rw [if_pos hFound]
        exact FirstPast.found
          (index_yearOn (fun _ h => h) (by omega) hDay) hFound hEq
          ⟨by omega, by omega, by omega⟩ hy
      · rw [if_neg (not_not.mpr hNone)]
        refine FirstPast.skip ?_ (ih _)
        intro k hk hMatch hy
        exact hOther k hk
          ⟨hy, hMatch.2.1 (by omega), hMatch.2.2 hDay⟩

theorem firstPast_alignYears
    {start : Int}
    (hYear : c.year < 0)
    (hMonth : 1 ≤ c.month ∧ c.month ≤ 12)
    (hDay : 0 ≤ c.day)
    (turns : Nat)
    (y : Int) :
    FirstPast
      (fun k => c.Matches k ∧ past backward k start = false)
      z backward yearOn (y - stride backward) turns
      (c.alignYears z (z.midnight start) backward turns y) := by
  induction turns generalizing y with
  | zero => exact FirstPast.none _ _ _ _ _
  | succ turns ih =>
      have hPosition : y - stride backward + stride backward = y := by
        omega
      unfold alignYears
      dsimp only
      rw [if_neg (by omega), if_neg (by omega : ¬ 0 ≤ c.year)]
      split
      · rename_i hFound
        rcases civilAt_spec hz hMonth c.day (y := y) with
          ⟨_, n, hEq, hy, hm, hd⟩ | ⟨hNone, _⟩
        · rw [hEq, past_midnight hz] at hFound
          refine FirstPast.found
            (index_yearOn (fun _ h => h.1) (by omega) hDay)
            (hEq ▸ hFound.1) hEq
            ⟨⟨by omega, by omega, by omega⟩, hFound.2⟩ ?_
          rw [hPosition]
          exact hy
        · exact absurd hNone hFound.1
      · rename_i hNot
        have hNext := ih (y + stride backward)
        rw [Int.add_sub_cancel] at hNext
        refine FirstPast.skip ?_ (by rw [hPosition]; exact hNext)
        rintro k hk ⟨hMatch, hReached⟩ hy
        rw [hPosition] at hy
        rcases civilAt_spec hz hMonth c.day (y := y) with
          ⟨hSome, n, hEq, hy', hm', hd'⟩ | ⟨_, hOther⟩
        · -- the date of this year lies before the start
          have hSame : k = n :=
            eq_of_shown (by omega) (by have := hMatch.2.1; omega)
              (by have := hMatch.2.2; omega)
          apply hNot
          rw [hEq, past_midnight hz, ← hSame]
          exact ⟨hSame ▸ hEq ▸ hSome, hReached⟩
        · exact hOther k hk
            ⟨hy, hMatch.2.1 (by omega), hMatch.2.2 hDay⟩

/-
  The day is fixed: the months in turn, as long as the year
  matches.  There is room for all the turns before the first
  month, or the year is fixed and ends the loop.
-/
theorem firstPast_nextMonths
    (hMonth : c.month < 0)
    (hDay : 0 ≤ c.day)
    (turns : Nat)
    {y m : Int}
    (hm : 1 ≤ m ∧ m ≤ 12)
    (hRoom : c.year < 0 → turns ≤ y * 12 + m - 1)
    (hIn : 0 ≤ c.year → 1 ≤ c.year ∧ y = c.year) :
    FirstPast c.Matches z backward monthIndex (y * 12 + m - 1) turns
      (c.nextMonths z backward turns y m) := by
  induction turns generalizing y m with
  | zero => exact FirstPast.none _ _ _ _ _
  | succ turns ih =>
      have hNonneg : 0 ≤ y * 12 + m - 1 + stride backward := by
        unfold stride
        split <;> omega
      unfold nextMonths
      dsimp only
      rw [addMonths_of_nonneg hNonneg]
      have hBack : stride backward = -1 ∨ stride backward = 1 := by
        cases backward <;> simp [stride]
      generalize hn :
        y * 12 + m - 1 + stride backward = n at hNonneg ⊢
      have hSplit : n / 12 * 12 + (n % 12 + 1) - 1 = n := by omega
      have hMonths : 1 ≤ n % 12 + 1 ∧ n % 12 + 1 ≤ 12 := by omega
      split
      · -- the fixed year is over
        rename_i hOut
        apply FirstPast.exhausted
        intro k hk hMatch
        have hYear := hMatch.1 hOut.1
        have hIndex := hIn hOut.1
        have hBounds := monthOn_bounds k
        unfold monthIndex
        cases backward <;> simp [past, stride] at * <;> omega
      rename_i hStay
      rw [if_neg (by omega)]
      rcases civilAt_spec hz hMonths c.day (y := n / 12) with
        ⟨hFound, e, hEq, hy', hm', hd'⟩ | ⟨hNone, hOther⟩
      · rw [if_pos hFound]
        refine FirstPast.found
          (index_monthIndex (fun _ h => h) hDay) hFound hEq
          ⟨by omega, by omega, by omega⟩ ?_
        unfold monthIndex
        omega
      · rw [if_neg (not_not.mpr hNone)]
        refine FirstPast.skip ?_ ?_
        · intro k hk hMatch hIndex
          have hBounds := monthOn_bounds k
          unfold monthIndex at hIndex
          exact hOther k hk
            ⟨by omega, by omega, hMatch.2.2 hDay⟩
        · have hNext :=
            ih (y := n / 12) hMonths (by omega) (by omega)
          rw [hSplit] at hNext
          rw [hn]
          exact hNext

theorem firstPast_alignMonths
    {start : Int}
    (hMonth : c.month < 0)
    (hDay : 0 ≤ c.day)
    (turns : Nat)
    {y m : Int}
    (hm : 1 ≤ m ∧ m ≤ 12)
    (hRoom : c.year < 0 → turns ≤ y * 12 + m - 1)
    (hIn : 0 ≤ c.year → 1 ≤ c.year ∧ past backward y c.year = false) :
    FirstPast
      (fun k => c.Matches k ∧ past backward k start = false)
      z backward monthIndex (y * 12 + m - 1 - stride backward) turns
      (c.alignMonths z (z.midnight start) backward turns y m) := by
  induction turns generalizing y m with
  | zero => exact FirstPast.none _ _ _ _ _
  | succ turns ih =>
      have hBack : stride backward = -1 ∨ stride backward = 1 := by
        cases backward <;> simp [stride]
      have hPosition :
          y * 12 + m - 1 - stride backward + stride backward =
            y * 12 + m - 1 := by
        omega
      unfold alignMonths
      dsimp only
      split
      · rename_i hOut
        apply FirstPast.exhausted
        rintro k hk ⟨hMatch, -⟩
        have hYear := hMatch.1 hOut.1
        have hIndex := hIn hOut.1
        have hBounds := monthOn_bounds k
        unfold monthIndex
        cases backward <;> simp [past, stride] at * <;> omega
      rename_i hStay
      have hNonneg : 0 ≤ y * 12 + m - 1 + stride backward := by
        omega
      have hNext :
          FirstPast
            (fun k => c.Matches k ∧ past backward k start = false)
            z backward monthIndex (y * 12 + m - 1) turns
            (c.alignMonths z (z.midnight start) backward turns
              (addMonths y m (stride backward)).1
              (addMonths y m (stride backward)).2) := by
        rw [addMonths_of_nonneg hNonneg]
        dsimp only
        generalize hn :
          y * 12 + m - 1 + stride backward = n at hNonneg ⊢
        have hIn' :
            0 ≤ c.year →
              1 ≤ c.year ∧ past backward (n / 12) c.year = false := by
          intro hFixed
          have hOld := hIn hFixed
          cases backward <;> simp [past, stride] at * <;> omega
        have hInduction :=
          ih (y := n / 12)
            (by omega : 1 ≤ n % 12 + 1 ∧ n % 12 + 1 ≤ 12)
            (by omega) hIn'
        have hSplit :
            n / 12 * 12 + (n % 12 + 1) - 1 - stride backward =
              y * 12 + m - 1 := by
          omega
        rw [hSplit] at hInduction
        exact hInduction
      rw [if_neg (by omega)]
      split
      · rename_i hFound
        rcases civilAt_spec hz hm c.day (y := y) with
          ⟨_, n, hEq, hy', hm', hd'⟩ | ⟨hNone, _⟩
        · rw [hEq, past_midnight hz] at hFound
          refine FirstPast.found
            (index_monthIndex (fun _ h => h.1) hDay)
            (hEq ▸ hFound.1) hEq
            ⟨⟨by omega, by omega, by omega⟩, hFound.2⟩ ?_
          unfold monthIndex
          omega
        · exact absurd hNone hFound.1
      · rename_i hNot
        refine FirstPast.skip ?_ (by rw [hPosition]; exact hNext)
        rintro k hk ⟨hMatch, hReached⟩ hIndex
        have hBounds := monthOn_bounds k
        have hDay' := hMatch.2.2 hDay
        rw [hPosition] at hIndex
        unfold monthIndex at hIndex
        rcases civilAt_spec hz hm c.day (y := y) with
          ⟨hSome, n, hEq, hy', hm', hd'⟩ | ⟨_, hOther⟩
        · -- the date of this month lies before the start
          have hSame : k = n :=
            eq_of_shown (by omega) (by omega) (by omega)
          apply hNot
          rw [hEq, past_midnight hz, ← hSame]
          exact ⟨hSame ▸ hEq ▸ hSome, hReached⟩
        · exact hOther k hk ⟨by omega, by omega, hDay'⟩

end Loops

end OnCalendar

end Timers

end Winunitd
