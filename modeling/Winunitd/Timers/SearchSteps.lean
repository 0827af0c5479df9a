import Winunitd.Timers.SearchDays

/-
  Aligning and stepping.

  From a day of a fixed year or before it, aligning finds the
  first day that matches the date pattern, and a step finds
  the next one.  Each way in which fields are fixed is a case
  of its own.

  Key definitions include:
    * `OnCalendar.Found`

  Key theorems include:
    * `OnCalendar.found_alignCivil`
    * `OnCalendar.found_nextCivil`
-/

------------------------------------------------------------
-- First Days
------------------------------------------------------------

namespace Winunitd

namespace Timers

open Lib.WallClock
open Lib.Gregorian

namespace OnCalendar

variable {c : OnCalendar}
variable {z : Zone}
variable {backward : Bool}

/- The fixed year is over. -/
def Ended (c : OnCalendar) (backward : Bool) (n : Int) : Prop :=
  0 ≤ c.year ∧ past backward c.year (yearOn n) = true

/-
  The first day that matches the date pattern and a condition,
  or one after the fixed year.  Where there is none, none is
  within ten years.
-/
def Found
    (c : OnCalendar)
    (z : Zone)
    (backward : Bool)
    (y : Int)
    (Q : Int → Prop)
    (r : Int) : Prop :=
  (r = 0 ∧
      ∀ k, 1 < k → c.Matches k → Q k →
        yearOn k ≤ y - 10 ∨ y + 10 ≤ yearOn k) ∨
    (r ≠ 0 ∧
      ∃ n, r = z.midnight n ∧ (c.Matches n ∨ c.Ended backward n) ∧
        Q n ∧
        ∀ k, 1 < k → c.Matches k → Q k → past backward k n = false)

section Steps

variable (hz : z.Midnights)

/- A loop finds what lies past a position, and nothing else. -/
theorem FirstPast.toFound
    {P Q : Int → Prop}
    {f : Int → Int}
    {a y r : Int}
    {turns : Nat}
    (h : FirstPast P z backward f a turns r)
    (hTo :
      ∀ k, c.Matches k → Q k → P k ∧ past backward a (f k) = true)
    (hFrom :
      ∀ k, P k → past backward a (f k) = true → c.Matches k ∧ Q k)
    (hFar :
      ∀ k, c.Matches k → Q k →
        past backward (a + turns * stride backward) (f k) = true →
        yearOn k ≤ y - 10 ∨ y + 10 ≤ yearOn k) :
    Found c z backward y Q r := by
  rcases h with ⟨hZero, hNone⟩ | ⟨hSome, n, hEq, hn, hPast, hFirst⟩
  · refine .inl ⟨hZero, ?_⟩
    intro k hk hMatch hQ
    rcases hTo k hMatch hQ with ⟨hP, hPast⟩
    exact hFar k hMatch hQ (hNone k hk hP hPast)
  · rcases hFrom n hn hPast with ⟨hMatch, hQ⟩
    refine .inr ⟨hSome, n, hEq, .inl hMatch, hQ, ?_⟩
    intro k hk hMatch' hQ'
    rcases hTo k hMatch' hQ' with ⟨hP, hPast'⟩
    exact hFirst k hk hP hPast'

include hz

variable {Q : Int → Prop}

/- A day that is known to be the first one. -/
theorem found_midnight
    {n y : Int}
    (hMatch : c.Matches n ∨ c.Ended backward n)
    (hQ : Q n)
    (hFirst :
      ∀ k, 1 < k → c.Matches k → Q k → past backward k n = false)
    (hLow : n ≤ 1 → backward = true) :
    Found c z backward y Q (z.midnight n) := by
  by_cases hZero : z.midnight n = 0
  · refine .inl ⟨hZero, ?_⟩
    -- the days before the zero instant are the first ones
    intro k hk hMatch' hQ'
    have hNear := hz.midnight_eq_zero hZero
    have hBack := hLow hNear.2
    have hOrder := hFirst k hk hMatch' hQ'
    rw [hBack] at hOrder
    simp only [past, ↓reduceIte, decide_eq_false_iff_not,
      not_lt] at hOrder
    omega
  · exact .inr ⟨hZero, n, rfl, hMatch, hQ, hFirst⟩

section

variable (hMonth : 1 ≤ c.month ∧ c.month ≤ 12)

include hMonth

/- The first and the last day of the month of a year. -/
theorem found_monthStart
    {y y' : Int}
    (hDay : c.day < 0)
    (hYear : 0 ≤ c.year → y = c.year)
    (hLow : 2 ≤ y)
    (hQ : ∀ k, c.Matches k → (Q k ↔ y ≤ yearOn k)) :
    Found c z false y' Q (civilAt z y c.month 1) := by
  rcases civilAt_spec hz hMonth 1 (y := y) with
    ⟨_, n, hEq, hy, hm, hd⟩ | ⟨_, hOther⟩
  · have hMatch : c.Matches n := ⟨by omega, by omega, by omega⟩
    have hFirst :
        ∀ k, 1 < k → c.Matches k → Q k → past false k n = false := by
      intro k _ hMatch' hQ'
      have hFrom := (hQ k hMatch').mp hQ'
      have hOrder := day_order n k
      have hBack := day_order k n
      have hBounds := dayOn_bounds k
      unfold Matches at hMatch'
      simp [past]
      omega
    have hNext := (day_order 1 n).1
    have hStart : yearOn 1 = 1 := by decide
    rw [hEq]
    exact found_midnight hz (.inl hMatch) ((hQ n hMatch).mpr hy.ge)
      hFirst (by omega)
  · have hSpec :=
      dayNumber_spec hMonth
        (⟨le_rfl, by have := daysInMonth_bounds (isLeap y) c.month; omega⟩ :
          (1 : Int) ≤ 1 ∧ 1 ≤ daysInMonth (isLeap y) c.month)
    have hNext := (day_order 1 (dayNumber y c.month 1)).1
    have hStart : yearOn 1 = 1 := by decide
    exact absurd hSpec (hOther _ (by omega))

theorem found_monthEnd
    {y y' : Int}
    (hDay : c.day < 0)
    (hYear : 0 ≤ c.year → y = c.year)
    (hQ : ∀ k, c.Matches k → (Q k ↔ yearOn k ≤ y)) :
    Found c z true y' Q (monthEnd z y c.month) := by
  rcases monthEnd_spec hz hMonth (y := y) with
    ⟨n, hEq, hy, hm, hLast⟩
  have hMatch : c.Matches n := ⟨by omega, by omega, by omega⟩
  have hFirst :
      ∀ k, 1 < k → c.Matches k → Q k → past true k n = false := by
    intro k _ hMatch' hQ'
    have hFrom := (hQ k hMatch').mp hQ'
    have hOrder := day_order k n
    have hSame := hLast k
    unfold Matches at hMatch'
    simp [past]
    omega
  rw [hEq]
  exact found_midnight hz (.inl hMatch) ((hQ n hMatch).mpr hy.le)
    hFirst (fun _ => rfl)

------------------------------------------------------------
-- Stepping
------------------------------------------------------------

variable {n : Int}

/- One date in every year. -/
theorem found_nextYears
    (hMatch : c.Matches n)
    (hYear : c.year < 0)
    (hDay : 0 ≤ c.day) :
    Found c z backward (yearOn n) (fun k => past backward n k = true)
      (c.nextYears z backward (maxSearchYears + 4) (yearOn n)) := by
  unfold Matches at hMatch
  refine FirstPast.toFound
    (firstPast_nextYears hz hYear hMonth hDay _ _) ?_ ?_ ?_
  · intro k hMatch' hPast
    have hOrder := day_order n k
    have hBack := day_order k n
    unfold Matches at hMatch'
    refine ⟨hMatch', ?_⟩
    cases backward <;> simp [past] at * <;> omega
  · intro k hMatch' hPast
    have hOrder := (day_order n k).1
    have hBack := (day_order k n).1
    refine ⟨hMatch', ?_⟩
    cases backward <;> simp [past] at * <;> omega
  · intro k _ _ hPast
    cases backward <;>
      simp [past, stride, maxSearchYears] at * <;> omega

end

/- At most one date in every month. -/
theorem found_nextMonths
    (hMatch : c.Matches n)
    (hRoom : c.year < 0 → 20 ≤ yearOn n)
    (hYear : 0 ≤ c.year → 1 ≤ c.year)
    (hMonth : c.month < 0)
    (hDay : 0 ≤ c.day) :
    Found c z backward (yearOn n) (fun k => past backward n k = true)
      (c.nextMonths z backward (12 * (maxSearchYears + 2)) (yearOn n)
        (monthOn n)) := by
  have hBounds := monthOn_bounds n
  unfold Matches at hMatch
  refine FirstPast.toFound
    (firstPast_nextMonths hz hMonth hDay _ hBounds ?_ (by omega))
    ?_ ?_ ?_
  · unfold maxSearchYears
    omega
  · intro k hMatch' hPast
    have hOrder := day_order n k
    have hBack := day_order k n
    have hBounds' := monthOn_bounds k
    unfold Matches at hMatch'
    unfold monthIndex
    refine ⟨hMatch', ?_⟩
    cases backward <;> simp [past] at * <;> omega
  · intro k hMatch' hPast
    have hOrder := monthIndex_lt n k
    have hBack := monthIndex_lt k n
    refine ⟨hMatch', ?_⟩
    unfold monthIndex at *
    cases backward <;> simp [past] at * <;> omega
  · intro k _ _ hPast
    have hBounds' := monthOn_bounds k
    unfold monthIndex at hPast
    cases backward <;>
      simp [past, stride, maxSearchYears] at * <;> omega

omit hz in
/- The next day is the first one past a day. -/
theorem past_stride
    (n : Int) :
    past backward n (n + stride backward) = true ∧
      ∀ k, past backward n k = true →
        past backward k (n + stride backward) = false := by
  constructor
  · cases backward <;> simp [past, stride]
  · intro k hk
    cases backward <;> simp [past, stride] at * <;> omega

/- The day after a day, whether it matches or ends the year. -/
theorem found_nextDay
    (hLow : n ≤ 1 → backward = true)
    (hMatch :
      c.Matches (n + stride backward) ∨
        c.Ended backward (n + stride backward)) :
    Found c z backward (yearOn n) (fun k => past backward n k = true)
      (z.midnight (n + stride backward)) := by
  have hLow' : n + stride backward ≤ 1 → backward = true := by
    cases backward <;> simp [stride] at *
    omega
  exact found_midnight hz hMatch (past_stride n).1
    (fun k _ _ => (past_stride n).2 k) hLow'

omit hz in
/- After the last day of the month, what matches is in other years. -/
theorem year_past_of_month_over
    {n k : Int}
    (hMatch : c.Matches n)
    (hMonth : 0 ≤ c.month)
    (hDay : c.day < 0)
    (hOver : ¬ c.Matches (n + stride backward))
    (hMatch' : c.Matches k)
    (hPast : past backward n k = true) :
    past backward (yearOn n) (yearOn k) = true := by
  have hYear : yearOn k ≠ yearOn n := by
    intro hYear
    have hSame : monthOn k = monthOn n := by
      rw [hMatch'.2.1 hMonth, hMatch.2.1 hMonth]
    -- the day after lies in the same month
    have hBetween :
        yearOn (n + stride backward) = yearOn n ∧
          monthOn (n + stride backward) = monthOn n := by
      cases backward with
      | false =>
          exact month_between (by simp [stride])
            (by simp [past, stride] at *; omega) hYear.symm hSame.symm
      | true =>
          have hBack :=
            month_between (n := k) (e := n + stride true) (k := n)
              (by simp [past, stride] at *; omega)
              (by simp [stride]) hYear hSame
          omega
    apply hOver
    refine ⟨?_, ?_, by omega⟩
    · exact fun h => hBetween.1.trans (hMatch.1 h)
    · exact fun h => hBetween.2.trans (hMatch.2.1 h)
  have hOrder := (day_order k n).1
  have hBack := (day_order n k).1
  cases backward <;> simp [past] at * <;> omega

theorem found_nextInMonth
    (hMatch : c.Matches n)
    (hRoom : c.year < 0 → 20 ≤ yearOn n)
    (hMonth : 1 ≤ c.month ∧ c.month ≤ 12)
    (hDay : c.day < 0)
    (hLow : n ≤ 1 → backward = true) :
    Found c z backward (yearOn n) (fun k => past backward n k = true)
      (c.nextInMonth z backward (z.midnight n)) := by
  unfold nextInMonth
  dsimp only
  rw [hz.addDate_days, hz.date_eq]
  change
    Found c z backward (yearOn n) (fun k => past backward n k = true)
      (if c.dateMatches z (z.midnight (n + stride backward)) = true then
        z.midnight (n + stride backward)
      else if 0 ≤ c.year ∧ yearOn n + stride backward ≠ c.year then 0
      else if backward = true then
        monthEnd z (yearOn n + stride backward) c.month
      else civilAt z (yearOn n + stride backward) c.month 1)
  split
  · rename_i hNext
    rw [dateMatches_midnight hz] at hNext
    exact found_nextDay hz hLow (.inl hNext)
  rename_i hOver
  rw [dateMatches_midnight hz] at hOver
  have hLater :
      ∀ k, c.Matches k →
        (past backward n k = true ↔
          past backward (yearOn n) (yearOn k) = true) := by
    intro k hMatch'
    refine ⟨year_past_of_month_over hMatch (by omega) hDay hOver
      hMatch', ?_⟩
    intro hPast
    have hOrder := (day_order k n).1
    have hBack := (day_order n k).1
    cases backward <;> simp [past] at * <;> omega
  have hStride : stride backward = -1 ∨ stride backward = 1 := by
    cases backward <;> simp [stride]
  have hFixed := hMatch.1
  split
  · refine .inl ⟨rfl, ?_⟩
    intro k _ hMatch' hPast
    have hPast' := (hLater k hMatch').mp hPast
    have hFixed' := hMatch'.1
    cases backward <;> simp [past] at hPast' <;> omega
  rename_i hStay
  have hWild : c.year < 0 := by omega
  have hHere := hRoom hWild
  cases backward with
  | true =>
      rw [if_pos rfl]
      refine found_monthEnd hz hMonth hDay (by omega) ?_
      intro k hMatch'
      rw [hLater k hMatch']
      simp only [past, stride, ↓reduceIte, decide_eq_true_eq]
      omega
  | false =>
      rw [if_neg (by decide)]
      refine found_monthStart hz hMonth hDay (by omega) ?_ ?_
      · simp [stride]
        omega
      · intro k hMatch'
        rw [hLater k hMatch']
        simp only [past, stride, Bool.false_eq_true, ↓reduceIte,
          decide_eq_true_eq]
        omega

/- A step finds the next day that matches. -/
theorem found_nextCivil
    (hc : c.InRange)
    (hNot : ¬ (0 ≤ c.year ∧ 0 ≤ c.month ∧ 0 ≤ c.day))
    (hMatch : c.Matches n)
    (hRoom : c.year < 0 → 20 ≤ yearOn n)
    (hLow : n ≤ 1 → backward = true) :
    Found c z backward (yearOn n) (fun k => past backward n k = true)
      (c.nextCivil z backward (z.midnight n)) := by
  have hYears := hc.year
  have hMonths := hc.month
  unfold Wild at hYears hMonths
  unfold nextCivil
  dsimp only
  rw [hz.date_eq]
  split
  · exact found_nextYears hz (by omega) hMatch (by omega) (by omega)
  split
  · exact found_nextMonths hz hMatch hRoom (by omega) (by omega)
      (by omega)
  split
  · exact found_nextInMonth hz hMatch hRoom (by omega) (by omega) hLow
  · rw [hz.addDate_days]
    apply found_nextDay hz hLow
    by_cases hOver :
        0 ≤ c.year ∧ yearOn (n + stride backward) ≠ c.year
    · have hFixed := hMatch.1
      have hStep := (day_order n (n + stride backward)).1
      have hStep' := (day_order (n + stride backward) n).1
      refine .inr ⟨hOver.1, ?_⟩
      cases backward <;> simp [past, stride] at * <;> omega
    · exact .inl ⟨by omega, by omega, by omega⟩

------------------------------------------------------------
-- Aligning
------------------------------------------------------------

theorem found_alignYears
    (hYear : c.year < 0)
    (hMonth : 1 ≤ c.month ∧ c.month ≤ 12)
    (hDay : 0 ≤ c.day) :
    Found c z backward (yearOn n) (fun k => past backward k n = false)
      (c.alignYears z (z.midnight n) backward (maxSearchYears + 4)
        (yearOn n)) := by
  refine FirstPast.toFound
    (firstPast_alignYears hz hYear hMonth hDay _ _)
    ?_ (fun k h _ => h) ?_
  · intro k hMatch' hReached
    have hOrder := (day_order n k).1
    have hBack := (day_order k n).1
    refine ⟨⟨hMatch', hReached⟩, ?_⟩
    cases backward <;> simp [past, stride] at * <;> omega
  · intro k _ _ hPast
    cases backward <;>
      simp [past, stride, maxSearchYears] at * <;> omega

/-
  The first month to look at is not past any month with a
  matching day.
-/
structure FirstMonth
    (c : OnCalendar)
    (backward : Bool)
    (n : Int)
    (p : Int × Int) : Prop where
  month : 1 ≤ p.2 ∧ p.2 ≤ 12
  room : c.year < 0 → 120 ≤ p.1 * 12 + p.2 - 1
  fixed : 0 ≤ c.year → past backward p.1 c.year = false
  near : c.year < 0 → past backward p.1 (yearOn n) = false
  first :
    ∀ k, c.Matches k → past backward k n = false →
      past backward (p.1 * 12 + p.2 - 1 - stride backward)
        (monthIndex k) = true

omit hz in
/- A first month by its position. -/
theorem FirstMonth.of_index
    {n a : Int}
    (hRoom : c.year < 0 → 120 ≤ a)
    (hFixed : 0 ≤ c.year → past backward (a / 12) c.year = false)
    (hNear : c.year < 0 → past backward (a / 12) (yearOn n) = false)
    (hFirst :
      ∀ k, c.Matches k → past backward k n = false →
        past backward (a - stride backward) (monthIndex k) = true) :
    FirstMonth c backward n (a / 12, a % 12 + 1) where
  month := by
    dsimp only
    omega
  room := by
    dsimp only
    omega
  fixed := hFixed
  near := hNear
  first := by
    have hIndex : a / 12 * 12 + (a % 12 + 1) - 1 = a := by omega
    dsimp only
    rw [hIndex]
    exact hFirst

omit hz in
theorem firstMonth_spec
    (hSide : 0 ≤ c.year → past backward c.year (yearOn n) = false)
    (hRoom : c.year < 0 → 20 ≤ yearOn n)
    (hYear : 0 ≤ c.year → 1 ≤ c.year)
    (hDay : 1 ≤ c.day ∧ c.day ≤ 31) :
    FirstMonth c backward n
      (c.firstMonth backward (yearOn n) (monthOn n) (dayOn n)) := by
  have hBounds := monthOn_bounds n
  have hPair :
      ∀ y m : Int, 1 ≤ m ∧ m ≤ 12 →
        (y, m) =
          ((y * 12 + m - 1) / 12, (y * 12 + m - 1) % 12 + 1) := by
    intro y m hm
    apply Prod.ext
    · dsimp only
      omega
    · dsimp only
      omega
  have hFacts :
      ∀ k, c.Matches k →
        (0 ≤ c.year → yearOn k = c.year) ∧ dayOn k = c.day ∧
          1 ≤ monthOn k ∧ monthOn k ≤ 12 := by
    intro k hMatch
    exact ⟨hMatch.1, hMatch.2.2 (by omega), monthOn_bounds k⟩
  unfold firstMonth
  -- every way through the edges is a position
  cases backward with
  | false =>
      simp only [past, Bool.false_eq_true, ↓reduceIte,
        decide_eq_false_iff_not, not_lt] at hSide
      simp only [true_and, Bool.false_eq_true, false_and, and_false,
        ↓reduceIte]
      split_ifs
      all_goals
        first
        | rw [addMonths_of_nonneg (by omega)]
        | rw [hPair _ _ (by omega)]
        refine FirstMonth.of_index ?_ ?_ ?_ ?_
      all_goals
        simp only [past, stride, monthIndex, Bool.false_eq_true,
          ↓reduceIte, decide_eq_false_iff_not, not_lt,
          decide_eq_true_eq]
      all_goals try omega
      all_goals
        intro k hMatch hReached
        have hk := hFacts k hMatch
        have hOrder := day_order k n
        omega
  | true =>
      simp only [past, ↓reduceIte, decide_eq_false_iff_not,
        not_lt] at hSide
      simp only [true_and, Bool.true_eq_false, false_and, and_false,
        ↓reduceIte]
      split_ifs
      all_goals
        first
        | rw [addMonths_of_nonneg (by omega)]
        | rw [hPair _ _ (by omega)]
        refine FirstMonth.of_index ?_ ?_ ?_ ?_
      all_goals
        simp only [past, stride, monthIndex, ↓reduceIte,
          decide_eq_false_iff_not, not_lt, decide_eq_true_eq]
      all_goals try omega
      all_goals
        intro k hMatch hReached
        have hk := hFacts k hMatch
        have hOrder := day_order n k
        omega

theorem found_alignMonths
    {p : Int × Int}
    (hYear : 0 ≤ c.year → 1 ≤ c.year)
    (hMonth : c.month < 0)
    (hDay : 0 ≤ c.day)
    (hp : FirstMonth c backward n p) :
    Found c z backward (yearOn n) (fun k => past backward k n = false)
      (c.alignMonths z (z.midnight n) backward
        (12 * (maxSearchYears + 2)) p.1 p.2) := by
  refine FirstPast.toFound
    (firstPast_alignMonths hz hMonth hDay _ hp.month ?_ ?_)
    ?_ (fun k h _ => h) ?_
  · have hRoom := hp.room
    unfold maxSearchYears
    omega
  · exact fun h => ⟨hYear h, hp.fixed h⟩
  · exact fun k hMatch hReached =>
      ⟨⟨hMatch, hReached⟩, hp.first k hMatch hReached⟩
  · intro k hMatch _ hPast
    have hBounds := monthOn_bounds k
    have hMonths := hp.month
    have hFixed := hp.fixed
    have hNear := hp.near
    have hSame := hMatch.1
    unfold monthIndex at hPast
    cases backward <;>
      simp [past, stride, maxSearchYears] at * <;> omega

theorem found_alignMonth
    (hSide : 0 ≤ c.year → past backward c.year (yearOn n) = false)
    (hRoom : c.year < 0 → 20 ≤ yearOn n)
    (hYear : backward = false → 0 ≤ c.year → 2 ≤ c.year)
    (hMonth : 1 ≤ c.month ∧ c.month ≤ 12)
    (hDay : c.day < 0)
    (hNot : ¬ c.Matches n) :
    Found c z backward (yearOn n) (fun k => past backward k n = false)
      (c.alignMonth z (z.midnight n) backward) := by
  have hHere :
      ¬ ((0 ≤ c.year → yearOn n = c.year) ∧ monthOn n = c.month) :=
    fun h => hNot ⟨h.1, fun _ => h.2, by omega⟩
  have hFacts :
      ∀ k, c.Matches k →
        (0 ≤ c.year → yearOn k = c.year) ∧ monthOn k = c.month :=
    fun k hMatch => ⟨hMatch.1, hMatch.2.1 (by omega)⟩
  unfold alignMonth
  dsimp only
  rw [hz.date_eq]
  have hYear' :
      ∃ y, (if 0 ≤ c.year then c.year else (Date.ofNumber n).year) = y ∧
        (0 ≤ c.year → y = c.year) ∧ (c.year < 0 → y = yearOn n) := by
    refine ⟨_, rfl, ?_, ?_⟩
    · exact fun h => if_pos h
    · exact fun h => if_neg (not_le.mpr h)
  rcases hYear' with ⟨y, hEq, hFixed, hWild⟩
  rw [hEq]
  change
    Found c z backward (yearOn n) (fun k => past backward k n = false)
      (if backward = false then
        if yearOn n < y ∨ (yearOn n = y ∧ monthOn n < c.month) then
          civilAt z y c.month 1
        else if yearOn n = y ∧ monthOn n = c.month then z.midnight n
        else if 0 ≤ c.year then 0
        else civilAt z (yearOn n + 1) c.month 1
      else
        if y < yearOn n ∨ (yearOn n = y ∧ c.month < monthOn n) then
          monthEnd z y c.month
        else if yearOn n = y ∧ monthOn n = c.month then z.midnight n
        else if 0 ≤ c.year then 0
        else monthEnd z (yearOn n - 1) c.month)
  cases backward with
  | false =>
      have hSecond := hYear rfl
      simp only [past, Bool.false_eq_true, ↓reduceIte,
        decide_eq_false_iff_not, not_lt] at hSide ⊢
      split_ifs
      · refine found_monthStart hz hMonth hDay hFixed (by omega) ?_
        intro k hMatch
        have hk := hFacts k hMatch
        have hBefore := day_lt_iff k n
        clear hHere
        omega
      · omega
      · refine .inl ⟨rfl, ?_⟩
        intro k _ hMatch hReached
        have hk := hFacts k hMatch
        have hOrder := day_order k n
        omega
      · refine found_monthStart hz hMonth hDay (by omega) (by omega) ?_
        intro k hMatch
        have hk := hFacts k hMatch
        have hBefore := day_lt_iff k n
        clear hHere
        omega
  | true =>
      simp only [past, ↓reduceIte, decide_eq_false_iff_not, not_lt,
        Bool.true_eq_false] at hSide ⊢
      split_ifs
      · refine found_monthEnd hz hMonth hDay hFixed ?_
        intro k hMatch
        have hk := hFacts k hMatch
        have hBefore := day_lt_iff n k
        clear hHere
        omega
      · omega
      · refine .inl ⟨rfl, ?_⟩
        intro k _ hMatch hReached
        have hk := hFacts k hMatch
        have hBack := day_order n k
        omega
      · refine found_monthEnd hz hMonth hDay (by omega) ?_
        intro k hMatch
        have hk := hFacts k hMatch
        have hBefore := day_lt_iff n k
        clear hHere
        omega

/-
  Aligning from a day of the fixed year or one before it; if
  only the year is fixed, from a day of that year.
-/
theorem found_alignCivil
    (hc : c.InRange)
    (hNot : ¬ (0 ≤ c.year ∧ 0 ≤ c.month ∧ 0 ≤ c.day))
    (hSide : 0 ≤ c.year → past backward c.year (yearOn n) = false)
    (hOnly :
      0 ≤ c.year → c.month < 0 → c.day < 0 → yearOn n = c.year)
    (hRoom : c.year < 0 → 20 ≤ yearOn n)
    (hYear : backward = false → 0 ≤ c.year → 2 ≤ c.year)
    (hLow : 1 < n) :
    Found c z backward (yearOn n) (fun k => past backward k n = false)
      (c.alignCivil z (z.midnight n) backward) := by
  have hYears := hc.year
  have hMonths := hc.month
  have hDays := hc.day
  unfold Wild at hYears hMonths hDays
  unfold alignCivil
  split
  · rename_i hMatch
    rw [dateMatches_midnight hz] at hMatch
    refine found_midnight hz (.inl hMatch) ?_ (fun k _ _ h => h)
      (by omega)
    cases backward <;> simp [past]
  rename_i hMatch
  rw [dateMatches_midnight hz] at hMatch
  dsimp only
  rw [hz.date_eq]
  split
  · rw [if_neg (by omega : ¬ 0 ≤ c.year)]
    exact found_alignYears hz (by omega) (by omega) (by omega)
  split
  · exact found_alignMonths hz (by omega) (by omega) (by omega)
      (firstMonth_spec hSide hRoom (by omega) (by omega))
  split
  · exact found_alignMonth hz hSide hRoom hYear (by omega) (by omega)
      hMatch
  · exact absurd ⟨by omega, by omega, by omega⟩ hMatch

end Steps

end OnCalendar

end Timers

end Winunitd
