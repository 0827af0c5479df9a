import Winunitd.Timers.SearchExact

/-
  Calendars in a zone with a fixed offset.

  Where the clock is never set, the occurrences of a calendar
  are the instants that show a matching date, weekday and time
  of day.  The search finds the next and the previous one of
  them, and finds none only if there is none within eight
  years.

  Key definitions include:
    * `OnCalendar.Occurs`

  Key theorems include:
    * `OnCalendar.occurrence_fixed`
    * `OnCalendar.first_occurrence`
    * `OnCalendar.search_exact`
-/

------------------------------------------------------------
-- Occurrences
------------------------------------------------------------

namespace Winunitd

namespace Timers

open Lib.WallClock
open Lib.Gregorian

namespace OnCalendar

/- An instant shows a date, weekday and time of the expression. -/
def Occurs (c : OnCalendar) (z : Zone) (x : Int) : Prop :=
  c.dateMatches z x = true ∧
    c.allowsWeekday (z.weekday x) = true ∧
    atClock z x c.hour c.minute c.second = true ∧ x % nanos = 0

/- The time of day of an expression in seconds. -/
def timeOfDay (c : OnCalendar) : Int :=
  c.hour * 3600 + c.minute * 60 + c.second

variable {c : OnCalendar}
variable {z : Zone}
variable {o : Int}
variable (hf : z.Fixed o)

include hf

/- The second at which the clock shows a time on a day. -/
theorem wall_shown
    {n w : Int}
    (hw : 0 ≤ w ∧ w < 86400) :
    z.wall ((n * daySeconds + w - o) * nanos) / daySeconds = n ∧
      z.clock ((n * daySeconds + w - o) * nanos) = w := by
  unfold Zone.clock
  rw [hf.wall_eq, Int.mul_ediv_cancel _ (by decide)]
  unfold daySeconds
  omega

omit hf in
theorem timeOfDay_bounds
    (hc : c.InRange) :
    0 ≤ c.timeOfDay ∧ c.timeOfDay < 86400 := by
  have hHour := hc.hour
  have hMinute := hc.minute
  have hSecond := hc.second
  unfold timeOfDay
  omega

omit hf in
/- Parts of the clock against the fields of the expression. -/
theorem atClock_iff
    (hc : c.InRange)
    (z : Zone)
    (x : Int) :
    atClock z x c.hour c.minute c.second = true ↔
      z.clock x = c.timeOfDay := by
  have hHour := hc.hour
  have hMinute := hc.minute
  have hSecond := hc.second
  have hRange : 0 ≤ z.clock x ∧ z.clock x < 86400 := by
    unfold Zone.clock daySeconds
    omega
  unfold atClock Zone.hour Zone.minute Zone.sec timeOfDay
  simp only [Bool.and_eq_true, decide_eq_true_eq]
  omega

theorem firstOccurrence_fixed
    (t : Int) :
    firstOccurrence z t = t := by
  rw [firstOccurrence, hf.periodStart_eq]
  rfl

/- The wall time on a day, if the date is that of the day. -/
theorem wallTimeOn_fixed
    (hc : c.InRange)
    {y m d : Int}
    (hm : 1 ≤ m ∧ m ≤ 12) :
    c.wallTimeOn z y m d =
      if yearOn (dayNumber y m d) = y ∧
          monthOn (dayNumber y m d) = m ∧
          dayOn (dayNumber y m d) = d then
        (dayNumber y m d * daySeconds + c.timeOfDay - o) * nanos
      else 0 := by
  have hTime := timeOfDay_bounds hc
  have hMake :
      ∀ h mi s : Int,
        z.make y m d h mi s 0 =
          (dayNumber y m d * daySeconds +
            (h * 3600 + mi * 60 + s) - o) * nanos := by
    intro h mi s
    have hYear : y + (m - 1) / 12 = y := by omega
    have hSame : (m - 1) % 12 + 1 = m := by omega
    unfold Zone.make
    rw [hf.instant_eq, hYear, hSame, Int.add_zero]
    congr 1
    omega
  have hShown :
      onDate z
          ((dayNumber y m d * daySeconds + c.timeOfDay - o) * nanos)
          y m d = true ↔
        yearOn (dayNumber y m d) = y ∧
          monthOn (dayNumber y m d) = m ∧
          dayOn (dayNumber y m d) = d := by
    unfold onDate Zone.date yearOn monthOn dayOn
    rw [(wall_shown hf hTime).1]
    simp [and_assoc]
  have hClock :=
    (atClock_iff hc z _).mpr
      (wall_shown hf hTime (n := dayNumber y m d)).2
  unfold wallTimeOn
  dsimp only
  rw [hMake]
  change
    (if onDate z
        ((dayNumber y m d * daySeconds + c.timeOfDay - o) * nanos)
        y m d = false then 0
      else _) = _
  split
  · rename_i hOff
    rw [if_neg]
    rw [← hShown, hOff]
    simp
  rename_i hOn
  rw [Bool.not_eq_false] at hOn
  rw [if_pos (hShown.mp hOn)]
  split
  · exact firstOccurrence_fixed hf _
  · -- the zero instant is found by the scan as well
    have hStart : c.hour * 3600 + c.minute * 60 + c.second =
        c.timeOfDay :=
      rfl
    unfold firstValidAfterGap
    dsimp only
    rw [hStart]
    rcases Nat.exists_eq_add_one_of_ne_zero
      (by omega : (24 * 3600 - c.timeOfDay).toNat ≠ 0) with ⟨k, hk⟩
    have hParts :
        c.timeOfDay / 3600 * 3600 + c.timeOfDay / 60 % 60 * 60 +
          c.timeOfDay % 60 = c.timeOfDay := by
      omega
    have hSame :
        atClock z
          ((dayNumber y m d * daySeconds + c.timeOfDay - o) * nanos)
          (c.timeOfDay / 3600) (c.timeOfDay / 60 % 60)
          (c.timeOfDay % 60) = true := by
      unfold atClock Zone.hour Zone.minute Zone.sec
      rw [(wall_shown hf hTime).2]
      simp
    rw [hk, gapScan, hMake, hParts, if_pos ⟨hOn, hSame⟩]
    exact firstOccurrence_fixed hf _

theorem occurrence_fixed
    (hc : c.InRange)
    (n : Int) :
    c.occurrence z n =
      (n * daySeconds + c.timeOfDay - o) * nanos := by
  have hNumber : dayNumber (yearOn n) (monthOn n) (dayOn n) = n :=
    Date.number_ofNumber n
  unfold occurrence
  rw [wallTimeOn_fixed hf hc (monthOn_bounds n), hNumber]
  exact if_pos ⟨rfl, rfl, rfl⟩

/- The occurrences are those on the matching days. -/
theorem occurs_iff
    (hc : c.InRange)
    (x : Int) :
    c.Occurs z x ↔
      ∃ n, x = (n * daySeconds + c.timeOfDay - o) * nanos ∧
        c.Matches n ∧ c.allowsWeekday (weekday n) = true := by
  have hTime := timeOfDay_bounds hc
  unfold Occurs
  rw [dateMatches_iff, atClock_iff hc]
  constructor
  · rintro ⟨hMatch, hAllowed, hClock, hNanos⟩
    refine ⟨_, ?_, hMatch, hAllowed⟩
    unfold Zone.clock at hClock
    rw [hf.wall_eq] at hClock ⊢
    unfold daySeconds nanos at *
    omega
  · rintro ⟨n, rfl, hMatch, hAllowed⟩
    unfold Zone.weekday
    rw [(wall_shown hf hTime).1, (wall_shown hf hTime).2]
    exact ⟨hMatch, hAllowed, rfl, Int.mul_emod_left _ _⟩

------------------------------------------------------------
-- Exactness
------------------------------------------------------------

variable {backward : Bool}
variable {t : Int}

/- The day an instant shows. -/
def dayShown (z : Zone) (t : Int) : Int :=
  z.wall t / daySeconds

theorem hit_iff
    (hc : c.InRange)
    (n : Int) :
    c.Hit z t backward n ↔
      c.Matches n ∧ c.allowsWeekday (weekday n) = true ∧
        (n * daySeconds + c.timeOfDay - o) * nanos ≠ 0 ∧
        past backward t
          ((n * daySeconds + c.timeOfDay - o) * nanos) = true := by
  have hShown :
      z.weekday
          ((n * daySeconds + c.timeOfDay - o) * nanos) = weekday n := by
    unfold Zone.weekday
    rw [(wall_shown hf (timeOfDay_bounds hc)).1]
  constructor
  · rintro ⟨hDay, hSome, hWeekday, hLater⟩
    rw [occurrence_fixed hf hc] at hSome hWeekday hLater
    rw [hShown] at hWeekday
    exact ⟨hDay, hWeekday, hSome, hLater⟩
  · rintro ⟨hDay, hWeekday, hSome, hLater⟩
    refine ⟨hDay, ?_, ?_, ?_⟩
    · rwa [occurrence_fixed hf hc]
    · rwa [occurrence_fixed hf hc, hShown]
    · rwa [occurrence_fixed hf hc]

/-
  What the search returns in one direction: the first
  occurrence past an instant, or zero if there is none within
  eight years.
-/
def FirstOccurrence
    (c : OnCalendar)
    (z : Zone)
    (t : Int)
    (backward : Bool)
    (r : Int) : Prop :=
  (r ≠ 0 →
      c.Occurs z r ∧ past backward t r = true ∧
        ∀ x, past backward t x = true → past backward x r = true →
          ¬ c.Occurs z x) ∧
    (r = 0 →
      ∀ x, past backward t x = true →
        past backward (z.addDate t (8 * stride backward) 0 0) x = false →
        ¬ c.Occurs z x)

variable {n : Int}

section

variable (hc : c.InRange)

include hc

/- What lies past an instant is not on a day before its day. -/
theorem day_reached
    (hPast :
      past backward t ((n * daySeconds + c.timeOfDay - o) * nanos) =
        true) :
    past backward n (dayShown z t) = false := by
  have hTime := timeOfDay_bounds hc
  unfold dayShown
  rw [hf.wall_eq]
  unfold daySeconds nanos at *
  cases backward <;> simp [past] at * <;> omega

/- Eight years on by the clock are eight years on by the days. -/
theorem years_reached
    (hNear :
      past backward
        (z.addDate t (8 * stride backward) 0 0)
        ((n * daySeconds + c.timeOfDay - o) * nanos) = false) :
    past backward
      (yearsOn backward (dayShown z t) 0) n =
        false := by
  have hTime := timeOfDay_bounds hc
  have hDate :
      z.addDate t (8 * stride backward) 0 0 =
        (yearsOn backward (dayShown z t) 0 *
            daySeconds +
          z.clock t - o) * nanos +
          t % nanos := by
    have hBounds := monthOn_bounds (dayShown z t)
    have hParts := Zone.clock_parts t (z := z)
    have hYear :
        ∀ y : Int,
          y + (monthOn (dayShown z t) + 0 - 1) /
            12 = y := by
      intro y
      omega
    have hMonth :
        (monthOn (dayShown z t) + 0 - 1) % 12 +
          1 = monthOn (dayShown z t) := by
      omega
    unfold Zone.addDate Zone.make
    rw [hf.instant_eq]
    change
      (dayNumber
            (yearOn (dayShown z t) +
                8 * stride backward +
              (monthOn (dayShown z t) + 0 - 1) /
                12)
            ((monthOn (dayShown z t) + 0 - 1) %
              12 + 1)
            (dayOn (dayShown z t) + 0) *
          daySeconds + _ + _ + _ - o) * nanos + t % nanos = _
    rw [hYear, hMonth]
    unfold yearsOn
    rw [Int.zero_mul]
    congr 2
    omega
  have hClock :
      0 ≤ z.clock t ∧
        z.clock t < 86400 := by
    unfold Zone.clock daySeconds
    omega
  rw [hDate] at hNear
  unfold daySeconds nanos at *
  cases backward <;> simp [past] at * <;> omega

/- Within eight years there is none of the first days. -/
theorem low_of_near
    (hYear : 100 ≤ yearOn (dayShown z t))
    (hPast :
      past backward t ((n * daySeconds + c.timeOfDay - o) * nanos) =
        true)
    (hNear :
      past backward (z.addDate t (8 * stride backward) 0 0)
        ((n * daySeconds + c.timeOfDay - o) * nanos) = false) :
    1 < n := by
  have hReached := day_reached hf hc hPast
  have hEnd := years_reached hf hc hNear
  have hBounds := yearsOn_bounds backward (dayShown z t)
  have hToday : 1 < dayShown z t := lt_of_year (by omega)
  cases backward with
  | false =>
      simp [past] at hReached
      omega
  | true =>
      have hLast : 1 < yearsOn true (dayShown z t) 2 :=
        lt_of_year (by have := (hBounds.2 rfl).1; omega)
      have hDays :
          yearsOn true (dayShown z t) 0 =
            yearsOn true (dayShown z t) 2 + 2 := by
        simp [yearsOn, stride, dayNumber]
        omega
      simp [past] at hEnd
      omega

/- A later occurrence is a hit, unless it is the zero instant. -/
theorem hit_of_occurs
    (hLow : 1 < n)
    (hMatch : c.Matches n)
    (hAllowed : c.allowsWeekday (weekday n) = true)
    (hPast :
      past backward t ((n * daySeconds + c.timeOfDay - o) * nanos) =
        true) :
    c.Hit z t backward n := by
  have hTime := timeOfDay_bounds hc
  have hBounds := hf.bounds
  refine (hit_iff hf hc n).mpr ⟨hMatch, hAllowed, ?_, hPast⟩
  unfold daySeconds nanos
  omega

/-
  No occurrence on one of the first days is passed over: if one
  of them matches and an earlier one is found, a week later is
  a day that would have been found before both.
-/
theorem first_days
    {n k : Int}
    (hYear : 100 ≤ yearOn (dayShown z t))
    (hHit : c.Hit z t true k)
    (hWild : c.year < 0 → 2 ≤ yearOn k)
    (hBest :
      ∀ j, 1 < j → past true j (dayShown z t) = false →
        c.Hit z t true j → past true j k = false)
    (hBefore : k < n)
    (hFirst : n ≤ 1)
    (hMatch : c.Matches n)
    (hAllowed : c.allowsWeekday (weekday n) = true) :
    False := by
  have hYears := hc.year
  unfold Wild at hYears
  have hTime := timeOfDay_bounds hc
  have hBounds := hf.bounds
  have hToday := (yearStart_le_iff 100 (dayShown z t)).mpr hYear
  have hStart : yearStart 100 = 36159 ∧ yearStart 1 = 0 := by decide
  have hSecond : 2 ≤ yearOn k → 1 < k := lt_of_year
  have hFixed : 0 ≤ c.year := by omega
  have hDay := hHit.day.1 hFixed
  have hFrom := (yearStart_le_iff 1 k).mpr (by omega)
  have hk : k = 0 := by omega
  have hn : n = 1 := by omega
  subst hk hn
  have hDates :
      dayOn 0 = 1 ∧ dayOn 1 = 2 ∧ yearOn 8 = yearOn 1 ∧
        monthOn 8 = monthOn 1 ∧ weekday 8 = weekday 1 := by
    decide
  have hFree : c.day < 0 := by
    have hOne := hMatch.2.2
    have hTwo := hHit.day.2.2
    omega
  have hMatch' : c.Matches 8 := by
    refine ⟨?_, ?_, by omega⟩
    · rw [hDates.2.2.1]
      exact hMatch.1
    · rw [hDates.2.2.2.1]
      exact hMatch.2.1
  have hWeek : c.Hit z t true 8 := by
    refine hit_of_occurs hf hc (by omega) hMatch' ?_ ?_
    · rw [hDates.2.2.2.2]
      exact hAllowed
    · unfold dayShown at hToday
      rw [hf.wall_eq] at hToday
      unfold daySeconds nanos at *
      simp [past]
      omega
  have hOrder := hBest 8 (by omega) (by simp [past]; omega) hWeek
  simp [past] at hOrder

/- A field of the date is left open. -/
theorem first_occurrence_of_searched
    {r : Int}
    (hYear : 100 ≤ yearOn (dayShown z t))
    (h : Searched c z t backward (dayShown z t) r) :
    FirstOccurrence c z t backward r := by
  have hTime := timeOfDay_bounds hc
  rcases h with ⟨hZero, hNone⟩ | ⟨k, hHit, hr, hWild, hBest⟩
  · refine ⟨fun h => absurd hZero h, ?_⟩
    intro _ x hPast hNear hOccurs
    rcases (occurs_iff hf hc x).mp hOccurs with
      ⟨n, rfl, hMatch, hAllowed⟩
    have hLow := low_of_near hf hc hYear hPast hNear
    exact hNone n hLow (day_reached hf hc hPast)
      (years_reached hf hc hNear)
      (hit_of_occurs hf hc hLow hMatch hAllowed hPast)
  · have hFound := (hit_iff hf hc k).mp hHit
    rw [occurrence_fixed hf hc] at hr
    subst hr
    refine ⟨fun _ => ⟨?_, hFound.2.2.2, ?_⟩,
      fun h => absurd h hFound.2.2.1⟩
    · exact (occurs_iff hf hc _).mpr ⟨k, rfl, hFound.1, hFound.2.1⟩
    · intro x hPast hBetween hOccurs
      rcases (occurs_iff hf hc x).mp hOccurs with
        ⟨n, rfl, hMatch, hAllowed⟩
      have hReached := day_reached hf hc hPast
      have hToday : 1 < dayShown z t := lt_of_year (by omega)
      by_cases hLow : 1 < n
      · have hOrder := hBest n hLow hReached
          (hit_of_occurs hf hc hLow hMatch hAllowed hPast)
        unfold daySeconds nanos at *
        cases backward <;> simp [past] at * <;> omega
      · cases backward with
        | false =>
            simp [past] at hReached
            omega
        | true =>
            refine first_days hf hc hYear hHit hWild hBest ?_
              (by omega) hMatch hAllowed
            unfold daySeconds nanos at *
            simp [past] at hBetween
            omega

/- The whole date is fixed: there is one occurrence at most. -/
theorem first_occurrence_of_date
    (hYear : 100 ≤ yearOn (dayShown z t))
    (hAll : 0 ≤ c.year ∧ 0 ≤ c.month ∧ 0 ≤ c.day) :
    ∃ r, FirstOccurrence c z t backward r ∧
      ∀ fuel, c.search z fuel t backward = some r := by
  have hMonths := hc.month
  unfold Wild at hMonths
  have hTime := timeOfDay_bounds hc
  -- the day of an occurrence is that of the date
  have hOnly :
      ∀ x, c.Occurs z x →
        c.wallTimeOn z c.year c.month c.day = x ∧
          c.allowsWeekday (z.weekday x) = true := by
    intro x hOccurs
    refine ⟨?_, hOccurs.2.1⟩
    rcases (occurs_iff hf hc x).mp hOccurs with ⟨n, rfl, hMatch, _⟩
    have hNumber : dayNumber (yearOn n) (monthOn n) (dayOn n) = n :=
      Date.number_ofNumber n
    rw [hMatch.1 hAll.1, hMatch.2.1 hAll.2.1,
      hMatch.2.2 hAll.2.2] at hNumber
    rw [wallTimeOn_fixed hf hc (by omega), hNumber]
    exact if_pos ⟨hMatch.1 hAll.1, hMatch.2.1 hAll.2.1,
      hMatch.2.2 hAll.2.2⟩
  have hOccurs :
      c.wallTimeOn z c.year c.month c.day ≠ 0 →
        c.allowsWeekday
          (z.weekday (c.wallTimeOn z c.year c.month c.day)) = true →
        c.Occurs z (c.wallTimeOn z c.year c.month c.day) := by
    rw [wallTimeOn_fixed hf hc (by omega)]
    split
    · rename_i hDate
      intro _ hAllowed
      refine (occurs_iff hf hc _).mpr ⟨_, rfl, ?_, ?_⟩
      · exact ⟨fun _ => hDate.1, fun _ => hDate.2.1, fun _ => hDate.2.2⟩
      · unfold Zone.weekday at hAllowed
        rwa [(wall_shown hf hTime).1] at hAllowed
    · exact fun h => absurd rfl h
  unfold search
  simp only [if_pos hAll]
  generalize c.wallTimeOn z c.year c.month c.day = x at hOnly hOccurs
  by_cases hNone : x = 0 ∨ c.allowsWeekday (z.weekday x) = false
  · simp only [if_pos hNone]
    refine ⟨0, ⟨fun h => absurd rfl h, ?_⟩, fun _ => rfl⟩
    intro _ e hPast hNear hOther
    have hSame := hOnly e hOther
    rcases hNone with hZero | hDenied
    · rcases (occurs_iff hf hc e).mp hOther with ⟨n, hEq, _⟩
      have hBounds := hf.bounds
      rw [hEq] at hPast hNear
      have hLow := low_of_near hf hc hYear hPast hNear
      unfold daySeconds nanos at hEq
      omega
    · rw [hSame.1, hSame.2] at hDenied
      cases hDenied
  simp only [if_neg hNone]
  rw [not_or, Bool.not_eq_false] at hNone
  by_cases hPast : past backward t x = true
  · simp only [if_pos hPast]
    refine ⟨x, ⟨fun _ => ⟨hOccurs hNone.1 hNone.2, hPast, ?_⟩,
      fun h => absurd h hNone.1⟩, fun _ => rfl⟩
    intro e _ hBetween hOther
    rw [(hOnly e hOther).1, past_self] at hBetween
    cases hBetween
  · simp only [if_neg hPast]
    refine ⟨0, ⟨fun h => absurd rfl h, ?_⟩, fun _ => rfl⟩
    intro _ e hPast' _ hOther
    rw [← (hOnly e hOther).1] at hPast'
    exact hPast hPast'

end

theorem first_occurrence
    (backward : Bool)
    (hc : c.InRange)
    (hYear : 100 ≤ (z.date t).year ∧ (z.date t).year ≤ 9900) :
    ∃ r, FirstOccurrence c z t backward r ∧
      ∀ fuel, searchFuel ≤ fuel →
        c.search z fuel t backward = some r := by
  by_cases hAll : 0 ≤ c.year ∧ 0 ≤ c.month ∧ 0 ≤ c.day
  · rcases first_occurrence_of_date hf hc hYear.1 hAll with
      ⟨r, hFirst, hSearch⟩
    exact ⟨r, hFirst, fun fuel _ => hSearch fuel⟩
  · rcases search_searched hf.midnights hc hAll rfl hYear with
      ⟨r, hSearched, hSearch⟩
    exact ⟨r, first_occurrence_of_searched hf hc hYear.1 hSearched,
      hSearch⟩

/-
  The search returns in both directions.  What it returns is
  the next and the previous occurrence; it is zero only if
  there is none within eight years.
-/
def Exact (c : OnCalendar) (z : Zone) (t : Int) : Prop :=
  ∃ next previous,
    (∀ fuel, searchFuel ≤ fuel →
      c.next z fuel t = some next ∧
        c.previous z fuel t = some previous) ∧
    (next ≠ 0 →
      c.Occurs z next ∧ t < next ∧
        ∀ x, t < x → x < next → ¬ c.Occurs z x) ∧
    (next = 0 →
      ∀ x, t < x → x ≤ z.addDate t 8 0 0 → ¬ c.Occurs z x) ∧
    (previous ≠ 0 →
      c.Occurs z previous ∧ previous < t ∧
        ∀ x, previous < x → x < t → ¬ c.Occurs z x) ∧
    (previous = 0 →
      ∀ x, z.addDate t (-8) 0 0 ≤ x → x < t → ¬ c.Occurs z x)

/-
  In a zone with a fixed offset the search is exact for every
  expression that the parser accepts and every instant in the
  civil years 100 to 9900.
-/
theorem search_exact
    [Name.LetterCase]
    {s : List Char}
    (hParse : parseCalendar s = .ok c)
    (hYear : 100 ≤ (z.date t).year ∧ (z.date t).year ≤ 9900) :
    c.Exact z t := by
  have hc := inRange_of_parseCalendar hParse
  rcases first_occurrence hf false hc hYear with
    ⟨next, hNext, hSearch⟩
  rcases first_occurrence hf true hc hYear with
    ⟨previous, hPrevious, hSearch'⟩
  simp only [FirstOccurrence, past, stride, Bool.false_eq_true,
    ↓reduceIte, decide_eq_true_eq, decide_eq_false_iff_not, not_lt,
    mul_one] at hNext hPrevious
  refine ⟨next, previous, ?_, hNext.1, hNext.2, ?_, ?_⟩
  · exact fun fuel hFuel => ⟨hSearch fuel hFuel, hSearch' fuel hFuel⟩
  · intro h
    rcases hPrevious.1 h with ⟨hOccurs, hBefore, hNone⟩
    exact ⟨hOccurs, hBefore, fun x hx hx' => hNone x hx' hx⟩
  · exact fun h x hx hx' => hPrevious.2 h x hx' hx

omit hf in
/- Leap days at three, from the tenth of February 2026. -/
theorem search_exact_leapDay :
    ∃ c z,
      @parseCalendar Name.asciiCase
          ['*', '-', '2', '-', '2', '9', ' ', '0', '3', ':', '0', '0'] =
        .ok c ∧
        z.Fixed 3600 ∧
        (100 ≤ (z.date 63906278400000000000).year ∧
          (z.date 63906278400000000000).year ≤ 9900) ∧
        c.Exact z 63906278400000000000 := by
  refine ⟨{ daily _ with month := 2, day := 29, hour := 3 },
    Zone.fixed 3600 (by decide) (by decide), rfl,
    Zone.fixed_fixed _ _, by decide +kernel, ?_⟩
  exact @search_exact _ _ _ (Zone.fixed_fixed _ _) _ Name.asciiCase
    ['*', '-', '2', '-', '2', '9', ' ', '0', '3', ':', '0', '0'] rfl
    (by decide +kernel)

end OnCalendar

end Timers

end Winunitd
