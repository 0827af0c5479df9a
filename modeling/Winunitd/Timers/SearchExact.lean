import Winunitd.Timers.SearchSteps

/-
  What a search returns where every day has its midnight.

  A search that starts on a day and ends at its horizon returns
  the occurrence on the first day that has one past its origin,
  and returns none only if no day up to the horizon has one.

  Key definitions include:
    * `OnCalendar.Hit`, `OnCalendar.Outcome`
    * `OnCalendar.Searched`

  Key theorems include:
    * `OnCalendar.outcome_searchLoop`
    * `OnCalendar.search_searched`
-/

------------------------------------------------------------
-- The Loop
------------------------------------------------------------

namespace Winunitd

namespace Timers

open Lib.WallClock
open Lib.Gregorian

namespace OnCalendar

/- The occurrence on a day; zero is none. -/
def occurrence (c : OnCalendar) (z : Zone) (n : Int) : Int :=
  c.wallTimeOn z (yearOn n) (monthOn n) (dayOn n)

/- A day has an occurrence past the origin. -/
structure Hit
    (c : OnCalendar)
    (z : Zone)
    (origin : Int)
    (backward : Bool)
    (n : Int) : Prop where
  day : c.Matches n
  exists_ : c.occurrence z n ≠ 0
  weekday : c.allowsWeekday (z.weekday (c.occurrence z n)) = true
  later : past backward origin (c.occurrence z n) = true

/-
  What a search from a day returns: the occurrence on the first
  day with one up to the horizon, or zero.
-/
def Outcome
    (c : OnCalendar)
    (z : Zone)
    (origin : Int)
    (backward : Bool)
    (last n r : Int) : Prop :=
  (r = 0 ∧
      ∀ k, 1 < k → past backward k n = false →
        past backward last k = false → ¬ c.Hit z origin backward k) ∨
    ∃ k, c.Hit z origin backward k ∧ r = c.occurrence z k ∧
      past backward k n = false ∧ past backward last k = false ∧
      ∀ j, 1 < j → past backward j n = false →
        c.Hit z origin backward j → past backward j k = false

/- The days from a start to a horizon less than ten years on. -/
structure Window
    (c : OnCalendar)
    (backward : Bool)
    (first last : Int) : Prop where
  low : 1 < first
  room : c.year < 0 → 30 ≤ yearOn first
  years :
    (backward = false → yearOn last ≤ yearOn first + 9) ∧
      (backward = true → yearOn first - 9 ≤ yearOn last)

variable {c : OnCalendar}
variable {z : Zone}
variable {backward : Bool}
variable {origin first last : Int}

/- The days of a window are less than ten years apart. -/
theorem Window.near
    (hw : Window c backward first last)
    {n k : Int}
    (hn : past backward n first = false)
    (hNext : past backward n k = true)
    (hk : past backward last k = false) :
    yearOn n - 9 ≤ yearOn k ∧ yearOn k ≤ yearOn n + 9 ∧
      (c.year < 0 → 20 ≤ yearOn n) := by
  have hRoom := hw.room
  have hYears := hw.years
  have hFirst := (day_order n first).1
  have hFirst' := (day_order first n).1
  have hOrder := (day_order n k).1
  have hOrder' := (day_order k n).1
  have hLast := (day_order k last).1
  have hLast' := (day_order last k).1
  cases backward <;> simp [past] at * <;> omega

section Loop

variable (hz : z.Midnights)

include hz

theorem candidate_cases
    (c : OnCalendar)
    (origin : Int)
    (backward : Bool)
    (n : Int) :
    (c.Hit z origin backward n ∧
        c.candidate z origin backward (z.midnight n) =
          some (c.occurrence z n)) ∨
      (¬ c.Hit z origin backward n ∧
        c.candidate z origin backward (z.midnight n) = none) := by
  have hShown :
      c.wallTimeOn z (Date.ofNumber n).year (Date.ofNumber n).month
        (Date.ofNumber n).day = c.occurrence z n :=
    rfl
  unfold candidate
  rw [hz.date_eq, hShown]
  by_cases hMatch : c.Matches n
  · rw [if_pos ((dateMatches_midnight hz n).mpr hMatch)]
    dsimp only
    split
    · rename_i hHit
      exact .inl ⟨⟨hMatch, hHit.1, hHit.2.1, hHit.2.2⟩, rfl⟩
    · rename_i hNot
      exact .inr ⟨fun h => hNot ⟨h.exists_, h.weekday, h.later⟩, rfl⟩
  · rw [if_neg (mt (dateMatches_midnight hz n).mp hMatch)]
    exact .inr ⟨fun h => hMatch h.day, rfl⟩

omit hz in
/- The loop ends at the zero instant. -/
theorem searchLoop_zero
    {horizon : Int}
    {fuel : Nat}
    (h : 1 ≤ fuel) :
    c.searchLoop z origin horizon backward fuel 0 = some 0 := by
  rcases Nat.exists_eq_add_of_le h with ⟨f, rfl⟩
  rw [Nat.add_comm, searchLoop, if_pos rfl]

/- One turn of the loop at a day. -/
theorem searchLoop_midnight
    {n : Int}
    (hZero : z.midnight n ≠ 0)
    (fuel : Nat) :
    c.searchLoop z origin (z.midnight last) backward (fuel + 1)
        (z.midnight n) =
      if past backward last n = true then some 0
      else if 0 ≤ c.year ∧ past backward c.year (yearOn n) = true then
        some 0
      else
        match c.candidate z origin backward (z.midnight n) with
        | some cand => some cand
        | none =>
            c.searchLoop z origin (z.midnight last) backward fuel
              (c.nextCivil z backward (z.midnight n)) := by
  have hYear : (z.date (z.midnight n)).year = yearOn n := by
    rw [hz.date_eq]
    rfl
  have hLoop :=
    searchLoop.eq_2 c z origin (z.midnight last) backward
      (z.midnight n) fuel
  rw [if_neg hZero, past_midnight hz, hYear] at hLoop
  exact hLoop

/-
  The loop returns, and returns the occurrence on the first day
  that has one.  The turns are bounded by the days that are
  left to the horizon.
-/
theorem outcome_searchLoop
    (origin : Int)
    (hc : c.InRange)
    (hNot : ¬ (0 ≤ c.year ∧ 0 ≤ c.month ∧ 0 ≤ c.day))
    (hw : Window c backward first last)
    (turns : Nat)
    {n : Int}
    (hn : c.Matches n ∨ c.Ended backward n)
    (hFirst : past backward n first = false)
    (hZero : z.midnight n ≠ 0)
    (hTurns :
      1 ≤ turns ∧ (last - n) * stride backward + 2 ≤ turns) :
    ∃ r, Outcome c z origin backward last n r ∧
      ∀ fuel, turns ≤ fuel →
        c.searchLoop z origin (z.midnight last) backward fuel
          (z.midnight n) = some r := by
  induction turns generalizing n with
  | zero => omega
  | succ turns ih =>
      have hFuel :
          ∀ r,
            (∀ f, turns ≤ f →
              c.searchLoop z origin (z.midnight last) backward (f + 1)
                (z.midnight n) = some r) →
            ∀ fuel, turns + 1 ≤ fuel →
              c.searchLoop z origin (z.midnight last) backward fuel
                (z.midnight n) = some r := by
        intro r h fuel hLe
        rcases Nat.exists_eq_add_of_le hLe with ⟨f, rfl⟩
        rw [Nat.add_right_comm]
        exact h (turns + f) (Nat.le_add_right _ _)
      by_cases hOver : past backward last n = true
      · refine ⟨0, .inl ⟨rfl, ?_⟩, hFuel 0 ?_⟩
        · intro k _ hk hIn
          cases backward <;> simp [past] at * <;> omega
        · intro f _
          rw [searchLoop_midnight hz hZero, if_pos hOver]
      by_cases hEnded : c.Ended backward n
      · refine ⟨0, .inl ⟨rfl, ?_⟩, hFuel 0 ?_⟩
        · intro k _ hk _ hHit
          have hYear := hHit.day.1 hEnded.1
          have hPast := hEnded.2
          have hOrder := (day_order k n).1
          have hOrder' := (day_order n k).1
          cases backward <;> simp [past] at * <;> omega
        · intro f _
          rw [searchLoop_midnight hz hZero, if_neg hOver,
            if_pos { hEnded with }]
      have hStay :
          ¬ (0 ≤ c.year ∧ past backward c.year (yearOn n) = true) :=
        hEnded
      have hMatch : c.Matches n := hn.resolve_right hEnded
      have hIn : past backward last n = false :=
        Bool.eq_false_of_not_eq_true hOver
      rcases candidate_cases hz c origin backward n with
        ⟨hHit, hSome⟩ | ⟨hMiss, hNone⟩
      · -- the day has an occurrence past the origin
        have hSelf : past backward n n = false := by
          cases backward <;> simp [past]
        refine ⟨c.occurrence z n, .inr ⟨n, hHit, rfl, hSelf, hIn, ?_⟩,
          hFuel _ ?_⟩
        · exact fun j _ hj _ => hj
        · intro f _
          rw [searchLoop_midnight hz hZero, if_neg hOver,
            if_neg hStay, hSome]
      -- otherwise the search goes on after the day
      have hOther :
          ∀ k, past backward k n = false → c.Hit z origin backward k →
            past backward n k = true := by
        intro k hk hHit
        have hNe : k ≠ n := by
          rintro rfl
          exact hMiss hHit
        cases backward <;> simp [past] at * <;> omega
      have hRoom : c.year < 0 → 20 ≤ yearOn n := by
        have hYears := hw.years
        have hWild := hw.room
        have hOrder := (day_order n first).1
        have hLast := (day_order n last).1
        cases backward <;> simp [past] at * <;> omega
      have hLow : n ≤ 1 → backward = true := by
        have hStart := hw.low
        cases backward <;> simp [past] at *
        omega
      rcases found_nextCivil hz hc hNot hMatch hRoom hLow with
        ⟨hEnd, hFar⟩ | ⟨hGo, m, hEq, hm, hPast, hNext⟩
      · refine ⟨0, .inl ⟨rfl, ?_⟩, hFuel 0 ?_⟩
        · intro k hk hAfter hWithin hHit
          have hLater := hOther k hAfter hHit
          have hYears := hFar k hk hHit.day hLater
          have hNear := hw.near hFirst hLater hWithin
          omega
        · intro f hf
          rw [searchLoop_midnight hz hZero, if_neg hOver,
            if_neg hStay, hNone]
          dsimp only
          rw [hEnd]
          apply searchLoop_zero
          cases backward <;> simp [past, stride] at * <;> omega
      · have hFirst' : past backward m first = false := by
          cases backward <;> simp [past] at * <;> omega
        have hTurns' :
            1 ≤ turns ∧ (last - m) * stride backward + 2 ≤ turns := by
          cases backward <;> simp [past, stride] at * <;> omega
        rcases ih hm hFirst' (hEq ▸ hGo) hTurns' with
          ⟨r, hOutcome, hReturns⟩
        refine ⟨r, ?_, hFuel r ?_⟩
        · have hAfter :
              ∀ k, 1 < k → past backward k n = false →
                c.Hit z origin backward k →
                past backward k m = false :=
            fun k hk hk' hHit => hNext k hk hHit.day (hOther k hk' hHit)
          rcases hOutcome with
            ⟨hZero', hNo⟩ | ⟨k, hHit, hr, hk, hWithin, hBest⟩
          · refine .inl ⟨hZero', ?_⟩
            intro k hk hk' hWithin hHit
            exact hNo k hk (hAfter k hk hk' hHit) hWithin hHit
          · refine .inr ⟨k, hHit, hr, ?_, hWithin, ?_⟩
            · cases backward <;> simp [past] at * <;> omega
            · intro j hj hj' hHit'
              exact hBest j hj (hAfter j hj hj' hHit') hHit'
        · intro f hf
          rw [searchLoop_midnight hz hZero, if_neg hOver,
            if_neg hStay, hNone]
          dsimp only
          rw [hEq]
          exact hReturns f hf

end Loop

------------------------------------------------------------
-- The Start
------------------------------------------------------------

theorem yearStart_le_iff
    (y n : Int) :
    yearStart y ≤ n ↔ y ≤ yearOn n := by
  have hLow := (Date.ofNumber n).yearStart_le_number
  have hHigh := (Date.ofNumber n).number_lt_yearStart
  rw [Date.number_ofNumber] at hLow hHigh
  constructor
  · intro h
    by_contra hLt
    have hLe : yearStart (yearOn n + 1) ≤ yearStart y :=
      yearStart_le (by omega)
    unfold yearOn at hLe
    omega
  · intro h
    exact (yearStart_le h).trans hLow

theorem monthStart_bounds
    (leap : Bool)
    {m : Int}
    (h : 1 ≤ m ∧ m ≤ 12) :
    0 ≤ monthStart leap m ∧ monthStart leap m ≤ 335 := by
  have hFirst := monthStart_le leap (le_refl 1) h.1
  have hLast := monthStart_le leap h.1 h.2
  have hEnds : monthStart leap 1 = 0 ∧ monthStart leap 12 ≤ 335 := by
    cases leap <;> decide
  omega

/- The day at the edge of the fixed fields. -/
def edge (c : OnCalendar) (backward : Bool) : Int :=
  dayNumber
    (if 0 ≤ c.year then c.year else if backward then 9999 else 1)
    (if 0 ≤ c.month then c.month else if backward then 12 else 1)
    (if 0 ≤ c.day then c.day else if backward then 31 else 1)

/- The edge by its fields. -/
theorem edge_eq
    (hc : c.InRange)
    (backward : Bool) :
    ∃ y m d, c.edge backward = dayNumber y m d ∧
      (1 ≤ m ∧ m ≤ 12) ∧ (1 ≤ d ∧ d ≤ 31) ∧
      (0 ≤ c.year → y = c.year) ∧
      (c.year < 0 → y = if backward then 9999 else 1) ∧
      (0 ≤ c.month → m = c.month) ∧
      (c.month < 0 → m = if backward then 12 else 1) ∧
      (0 ≤ c.day → d = c.day) ∧
      (c.day < 0 → d = if backward then 31 else 1) := by
  have hMonths := hc.month
  have hDays := hc.day
  unfold Wild at hMonths hDays
  refine ⟨_, _, _, rfl, ?_, ?_, fun h => if_pos h,
    fun h => if_neg (not_le.mpr h), fun h => if_pos h,
    fun h => if_neg (not_le.mpr h), fun h => if_pos h,
    fun h => if_neg (not_le.mpr h)⟩
  · split
    · omega
    · cases backward <;> simp
  · split
    · omega
    · cases backward <;> simp

/- In a fixed year the edge is not past any matching day. -/
theorem edge_le
    (hc : c.InRange)
    (hNot : ¬ (0 ≤ c.year ∧ 0 ≤ c.month ∧ 0 ≤ c.day))
    (hYear : 0 ≤ c.year)
    {k : Int}
    (hMatch : c.Matches k) :
    past backward k (c.edge backward) = false := by
  rcases edge_eq hc backward with
    ⟨y, m, d, hEq, hm, hd, hFixed, -, hMonth, hEdge, hDay, hEdge'⟩
  have hNumber : dayNumber (yearOn k) (monthOn k) (dayOn k) = k :=
    Date.number_ofNumber k
  have hBounds := monthOn_bounds k
  have hBounds' := dayOn_bounds k
  have hSame := hMatch.2
  rw [hEq, hFixed hYear]
  rw [hMatch.1 hYear] at hNumber
  unfold dayNumber at hNumber ⊢
  by_cases hMonth' : monthOn k = m
  · rw [hMonth'] at hNumber
    cases backward <;> simp [past] at * <;> omega
  -- in another month only if the month is not fixed
  have hWild : c.month < 0 := by omega
  rw [hEdge hWild] at hMonth' ⊢
  cases backward with
  | false =>
      have hFirst : daysInMonth (isLeap c.year) 1 = 31 := by
        cases isLeap c.year <;> decide
      have hBefore :
          monthStart (isLeap c.year) 1 + d - 1 <
            monthStart (isLeap c.year) (monthOn k) :=
        day_lt_monthStart le_rfl (by simp at hMonth'; omega) hBounds.2
          (by omega)
      simp [past]
      omega
  | true =>
      have hLength :
          dayOn k ≤ daysInMonth (isLeap c.year) (monthOn k) := by
        rw [← hMatch.1 hYear]
        exact (Date.ofNumber k).day_le
      have hBefore :
          monthStart (isLeap c.year) (monthOn k) + dayOn k - 1 <
            monthStart (isLeap c.year) 12 :=
        day_lt_monthStart hBounds.1 (by simp at hMonth'; omega) le_rfl
          hLength
      simp [past]
      omega

/- Without a fixed year the edge is out of reach. -/
theorem edge_of_wild
    (hc : c.InRange)
    (hWild : c.year < 0)
    {today : Int}
    (hYear : 100 ≤ yearOn today ∧ yearOn today ≤ 9900) :
    past backward today (c.edge backward) = false := by
  rcases edge_eq hc backward with
    ⟨y, m, d, hEq, hm, hd, -, hEdge, -⟩
  have hLow := (yearStart_le_iff 100 today).mpr hYear.1
  have hHigh := mt (yearStart_le_iff 9901 today).mp (by omega)
  have hStarts :
      yearStart 100 = 36159 ∧ yearStart 9901 = 3615900 ∧
        yearStart 1 = 0 ∧ yearStart 9999 = 3651694 := by
    decide
  have hMonth := monthStart_bounds (isLeap y) hm
  rw [hEq, hEdge hWild] at *
  unfold dayNumber
  cases backward <;> simp [past] at * <;> omega

/- The edge of a fixed year at its end is not one of the first days. -/
theorem edge_low
    (hc : c.InRange)
    (hNot : ¬ (0 ≤ c.year ∧ 0 ≤ c.month ∧ 0 ≤ c.day))
    (hYear : 0 ≤ c.year) :
    1 < c.edge true := by
  rcases edge_eq hc true with
    ⟨y, m, d, hEq, hm, hd, hFixed, -, hMonth, hEdge, hDay, hEdge'⟩
  have hYears := hc.year
  unfold Wild at hYears
  have hStart : yearStart 1 ≤ yearStart y :=
    yearStart_le (by have := hFixed hYear; omega)
  have hFirst : yearStart 1 = 0 := by decide
  have hBounds := monthStart_bounds (isLeap y) hm
  rw [hEq]
  unfold dayNumber
  by_cases hWild : c.month < 0
  · have hLast : monthStart (isLeap y) 12 ≥ 334 := by
      cases isLeap y <;> decide
    have hMonth' : m = 12 := hEdge hWild
    rw [hMonth']
    omega
  · have hDay' : d = 31 := hEdge' (by omega)
    omega

/- If only the year is fixed, the edge is a day of it. -/
theorem edge_matches
    (hYear : 0 ≤ c.year)
    (hMonth : c.month < 0)
    (hDay : c.day < 0) :
    c.Matches (c.edge backward) := by
  have hSpec :
      yearOn (c.edge backward) = c.year := by
    unfold edge
    rw [if_pos hYear, if_neg (not_le.mpr hMonth),
      if_neg (not_le.mpr hDay)]
    cases backward with
    | false | true =>
        exact (dayNumber_spec (by decide)
          (by cases isLeap c.year <;> decide)).1
  exact ⟨fun _ => hSpec, by omega, by omega⟩

/-
  The day a search starts from: the day of the origin, or the
  first day that can match in a fixed year.
-/
structure StartsAt
    (c : OnCalendar)
    (backward : Bool)
    (today n : Int) : Prop where
  low : 1 < n
  wild : c.year < 0 → n = today
  moved : n ≠ today → yearOn n = c.year
  later : past backward n today = false
  none_before :
    ∀ k, c.Matches k → past backward k today = false →
      past backward k n = false
  year_reached :
    0 ≤ c.year → c.month < 0 → c.day < 0 →
      past backward (yearOn n) c.year = false

theorem past_self
    (n : Int) :
    past backward n n = false := by
  cases backward <;> simp [past]

theorem lt_of_year
    {n : Int}
    (hYear : 2 ≤ yearOn n) :
    1 < n := by
  have hFirst := (yearStart_le_iff 2 n).mpr hYear
  have hStart : yearStart 2 = 365 := by decide
  omega

/- A search that starts on the day of its origin. -/
theorem startsAt_today
    {today : Int}
    (hYear : 100 ≤ yearOn today)
    (hReached :
      0 ≤ c.year → c.month < 0 → c.day < 0 →
        past backward (yearOn today) c.year = false) :
    StartsAt c backward today today where
  low := lt_of_year (by omega)
  wild := fun _ => rfl
  moved := fun h => absurd rfl h
  later := past_self today
  none_before := fun _ _ h => h
  year_reached := hReached

section Start

variable (hz : z.Midnights)

include hz

omit hz in
theorem boundDay_eq
    (hc : c.InRange)
    (hSome : ¬ (c.year < 0 ∧ c.month < 0 ∧ c.day < 0)) :
    c.boundDay z backward =
      if c.dateMatches z (z.midnight (c.edge backward)) = false then 0
      else z.midnight (c.edge backward) := by
  have hMonths := hc.month
  unfold Wild at hMonths
  unfold boundDay edge
  rw [if_neg hSome]
  dsimp only
  rw [Zone.make_midnight]
  generalize hMonth :
    (if 0 ≤ c.month then c.month else if backward then 12 else 1) = m
  have hBounds : 1 ≤ m ∧ m ≤ 12 := by
    rw [← hMonth]
    split
    · omega
    · cases backward <;> simp
  have hYear : ∀ y : Int, y + (m - 1) / 12 = y := by
    intro y
    omega
  have hSame : (m - 1) % 12 + 1 = m := by omega
  rw [hYear, hSame]

theorem startDay_spec
    (backward : Bool)
    (hc : c.InRange)
    (hNot : ¬ (0 ≤ c.year ∧ 0 ≤ c.month ∧ 0 ≤ c.day))
    {today : Int}
    (hToday : z.date origin = Date.ofNumber today)
    (hYear : 100 ≤ yearOn today ∧ yearOn today ≤ 9900) :
    ∃ n, c.startDay z origin backward = z.midnight n ∧
      StartsAt c backward today n := by
  have hMake :
      z.make (Date.ofNumber today).year (Date.ofNumber today).month
        (Date.ofNumber today).day 0 0 0 0 = z.midnight today := by
    have hBounds := monthOn_bounds today
    unfold monthOn at hBounds
    have hYear' :
        (Date.ofNumber today).year +
            ((Date.ofNumber today).month - 1) / 12 =
          (Date.ofNumber today).year := by
      omega
    have hSame :
        ((Date.ofNumber today).month - 1) % 12 + 1 =
          (Date.ofNumber today).month := by
      omega
    rw [Zone.make_midnight, hYear', hSame]
    exact congrArg z.midnight (Date.number_ofNumber today)
  unfold startDay
  dsimp only
  rw [hToday, hMake]
  by_cases hWild : c.year < 0 ∧ c.month < 0 ∧ c.day < 0
  · have hBound : c.boundDay z backward = 0 := by
      unfold boundDay
      exact if_pos hWild
    rw [hBound, if_neg (by simp)]
    exact ⟨today, rfl, startsAt_today hYear.1 (by omega)⟩
  rw [boundDay_eq hc hWild]
  by_cases hEdge : c.Matches (c.edge backward)
  · have hDay := (dateMatches_midnight hz _).mpr hEdge
    simp only [hDay, Bool.true_eq_false, ↓reduceIte,
      past_midnight hz]
    have hLow : 1 < today := lt_of_year (by omega)
    split
    · -- the search starts at the edge of the fixed year
      rename_i hMoved
      have hFixed : 0 ≤ c.year := by
        by_contra hWild'
        have hNear : past backward today (c.edge backward) = false :=
          edge_of_wild hc (not_le.mp hWild') hYear
        rw [hMoved.2] at hNear
        cases hNear
      have hYears := hEdge.1 hFixed
      refine ⟨_, rfl, ?_, by omega, fun _ => hYears, ?_,
        fun k hMatch _ => edge_le hc hNot hFixed hMatch, ?_⟩
      · have hEnd := edge_low hc hNot hFixed
        cases backward <;> simp [past] at * <;> omega
      · cases backward <;> simp [past] at * <;> omega
      · rw [hYears]
        exact fun _ _ _ => past_self _
    · rename_i hStay
      refine ⟨today, rfl, startsAt_today hYear.1 ?_⟩
      intro hFixed _ _
      have hYears := hEdge.1 hFixed
      have hOrder := (day_order today (c.edge backward)).1
      have hOrder' := (day_order (c.edge backward) today).1
      by_cases hZero : z.midnight (c.edge backward) = 0
      · have hNear := hz.midnight_eq_zero hZero
        have hEnd := edge_low hc hNot hFixed
        cases backward <;> simp [past] at * <;> omega
      · have hReached :
            past backward today (c.edge backward) = false :=
          Bool.eq_false_of_not_eq_true (fun h => hStay ⟨hZero, h⟩)
        cases backward <;> simp [past] at * <;> omega
  · have hDay :
        c.dateMatches z (z.midnight (c.edge backward)) = false :=
      Bool.eq_false_of_not_eq_true
        (mt (dateMatches_midnight hz _).mp hEdge)
    rw [if_pos hDay, if_neg (by simp)]
    refine ⟨today, rfl, startsAt_today hYear.1 ?_⟩
    exact fun h h' h'' => absurd (edge_matches h h' h'') hEdge

/- Eight years from a day on, and the days around that date. -/
def yearsOn (backward : Bool) (n days : Int) : Int :=
  dayNumber (yearOn n + 8 * stride backward) (monthOn n)
    (dayOn n + days * stride backward)

omit hz in
theorem yearsOn_bounds
    (backward : Bool)
    (n : Int) :
    (backward = false →
        yearOn n + 8 ≤ yearOn (yearsOn backward n 2) ∧
          yearOn (yearsOn backward n 2) ≤ yearOn n + 9 ∧
          yearsOn backward n 2 ≤ n + 3660) ∧
      (backward = true →
        yearOn n - 9 ≤ yearOn (yearsOn backward n 2) ∧
          yearOn (yearsOn backward n 2) ≤ yearOn n - 7 ∧
          n ≤ yearsOn backward n 2 + 3660) := by
  have hBounds := monthOn_bounds n
  have hBounds' := dayOn_bounds n
  have hLow := (yearStart_le_iff (yearOn n) n).mpr le_rfl
  have hHigh := mt (yearStart_le_iff (yearOn n + 1) n).mp (by omega)
  constructor
  · rintro rfl
    have hMonth := monthStart_bounds (isLeap (yearOn n + 8)) hBounds
    have hIndex :
        yearsOn false n 2 =
          yearStart (yearOn n + 8) +
            monthStart (isLeap (yearOn n + 8)) (monthOn n) +
            dayOn n + 1 := by
      simp [yearsOn, stride, dayNumber]
      omega
    have hFrom := yearStart_le_iff (yearOn n + 8) (yearsOn false n 2)
    have hTo := yearStart_le_iff (yearOn n + 10) (yearsOn false n 2)
    have hEight := yearStart_add_bounds (yearOn n) 8
    have hTwo := yearStart_add_bounds (yearOn n + 8) 2
    have hTen : yearOn n + 8 + 2 = yearOn n + 10 := by omega
    push_cast at hEight hTwo
    rw [hTen] at hTwo
    omega
  · rintro rfl
    have hMonth := monthStart_bounds (isLeap (yearOn n - 8)) hBounds
    have hIndex :
        yearsOn true n 2 =
          yearStart (yearOn n - 8) +
            monthStart (isLeap (yearOn n - 8)) (monthOn n) +
            dayOn n - 3 := by
      simp [yearsOn, stride, dayNumber, ← sub_eq_add_neg]
      omega
    have hFrom := yearStart_le_iff (yearOn n - 9) (yearsOn true n 2)
    have hTo := yearStart_le_iff (yearOn n - 6) (yearsOn true n 2)
    have hEight := yearStart_add_bounds (yearOn n - 8) 8
    have hOne := yearStart_add_bounds (yearOn n - 9) 1
    have hTwo := yearStart_add_bounds (yearOn n - 8) 2
    have hNext := yearStart_add_bounds (yearOn n) 1
    push_cast at hEight hOne hTwo hNext
    rw [Int.sub_add_cancel] at hEight
    have hNine : yearOn n - 9 + 1 = yearOn n - 8 := by omega
    have hSix : yearOn n - 8 + 2 = yearOn n - 6 := by omega
    rw [hNine] at hOne
    rw [hSix] at hTwo
    omega

theorem horizon_eq
    (n : Int) :
    z.addDate (z.midnight n) (maxSearchYears * stride backward) 0
        (2 * stride backward) = z.midnight (yearsOn backward n 2) := by
  have hBounds := monthOn_bounds n
  unfold monthOn at hBounds
  have hYear :
      ∀ y : Int, y + ((Date.ofNumber n).month + 0 - 1) / 12 = y := by
    intro y
    omega
  have hSame :
      ((Date.ofNumber n).month + 0 - 1) % 12 + 1 =
        (Date.ofNumber n).month := by
    omega
  rw [hz.addDate_eq, hYear, hSame]
  rfl

/-
  What a search returns if a field is not fixed: the occurrence
  on the first day with one from the day of the origin on, and
  zero only if eight years have none.
-/
def Searched
    (c : OnCalendar)
    (z : Zone)
    (origin : Int)
    (backward : Bool)
    (today r : Int) : Prop :=
  (r = 0 ∧
      ∀ k, 1 < k → past backward k today = false →
        past backward (yearsOn backward today 0) k = false →
        ¬ c.Hit z origin backward k) ∨
    ∃ k, c.Hit z origin backward k ∧ r = c.occurrence z k ∧
      (c.year < 0 → 2 ≤ yearOn k) ∧
      ∀ j, 1 < j → past backward j today = false →
        c.Hit z origin backward j → past backward j k = false

omit hz in
/- Eight years from the origin are within the horizon. -/
theorem within_horizon
    {today n k : Int}
    (hStart : StartsAt c backward today n)
    (hMatch : c.Matches k)
    (hAfter : past backward k n = false)
    (hNear : past backward (yearsOn backward today 0) k = false) :
    past backward (yearsOn backward n 2) k = false := by
  have hBounds := yearsOn_bounds backward n
  by_cases hMoved : n = today
  · subst hMoved
    unfold yearsOn dayNumber at *
    cases backward <;> simp [past, stride] at * <;> omega
  · have hWild := hStart.wild
    have hYear := hStart.moved hMoved
    have hFixed := hMatch.1
    have hOrder := (day_order k (yearsOn backward n 2)).1
    have hOrder' := (day_order (yearsOn backward n 2) k).1
    cases backward <;> simp [past] at * <;> omega

/- The fuel that a search within eight years needs. -/
def searchFuel : Nat := 3700

theorem search_searched
    (hc : c.InRange)
    (hNot : ¬ (0 ≤ c.year ∧ 0 ≤ c.month ∧ 0 ≤ c.day))
    {today : Int}
    (hToday : z.date origin = Date.ofNumber today)
    (hYear : 100 ≤ yearOn today ∧ yearOn today ≤ 9900) :
    ∃ r, Searched c z origin backward today r ∧
      ∀ fuel, searchFuel ≤ fuel →
        c.search z fuel origin backward = some r := by
  have hYears := hc.year
  unfold Wild at hYears
  rcases startDay_spec hz backward hc hNot hToday hYear with
    ⟨n, hEq, hStart⟩
  have hBounds := yearsOn_bounds backward n
  have hShown : (z.date (z.midnight n)).year = yearOn n := by
    rw [hz.date_eq]
    rfl
  have hSearch :
      ∀ fuel, c.search z fuel origin backward =
        if 0 ≤ c.year ∧ past backward c.year (yearOn n) = true then
          some 0
        else
          c.searchLoop z origin (z.midnight (yearsOn backward n 2))
            backward fuel (c.alignCivil z (z.midnight n) backward) := by
    intro fuel
    unfold search
    rw [if_neg hNot]
    dsimp only
    rw [hEq, hShown, horizon_eq hz]
  -- a hit from today on is at or past the start, within the horizon
  have hWithin :
      ∀ k, past backward k today = false →
        past backward (yearsOn backward today 0) k = false →
        c.Hit z origin backward k →
        past backward k n = false ∧
          past backward (yearsOn backward n 2) k = false := by
    intro k hAfter hNear hHit
    have hFrom := hStart.none_before k hHit.day hAfter
    exact ⟨hFrom, within_horizon hStart hHit.day hFrom hNear⟩
  by_cases hEnded : 0 ≤ c.year ∧
      past backward c.year (yearOn n) = true
  · refine ⟨0, .inl ⟨rfl, ?_⟩, ?_⟩
    · intro k _ hAfter hNear hHit
      have hFrom := (hWithin k hAfter hNear hHit).1
      have hSame := hHit.day.1 hEnded.1
      have hOrder := (day_order k n).1
      have hOrder' := (day_order n k).1
      cases backward <;> simp [past] at * <;> omega
    · intro fuel _
      rw [hSearch, if_pos hEnded]
  have hSide :
      0 ≤ c.year → past backward c.year (yearOn n) = false :=
    fun h => Bool.eq_false_of_not_eq_true (fun h' => hEnded ⟨h, h'⟩)
  have hOnly :
      0 ≤ c.year → c.month < 0 → c.day < 0 → yearOn n = c.year := by
    intro h h' h''
    have hReached := hStart.year_reached h h' h''
    have hSide' := hSide h
    cases backward <;> simp [past] at * <;> omega
  have hRoom : c.year < 0 → 30 ≤ yearOn n := by
    intro h
    rw [hStart.wild h]
    omega
  have hSecond : backward = false → 0 ≤ c.year → 2 ≤ c.year := by
    intro h h'
    have hLater := hStart.later
    have hSide' := hSide h'
    have hOrder := (day_order n today).1
    subst h
    simp [past] at *
    omega
  have hWindow : Window c backward n (yearsOn backward n 2) :=
    ⟨hStart.low, hRoom, fun h => (hBounds.1 h).2.1,
      fun h => (hBounds.2 h).1⟩
  rcases found_alignCivil hz hc hNot hSide hOnly (by omega) hSecond
    hStart.low with ⟨hZero, hFar⟩ | ⟨hGo, m, hm, hDay, hFrom, hFirst⟩
  · refine ⟨0, .inl ⟨rfl, ?_⟩, ?_⟩
    · intro k hk hAfter hNear hHit
      have hIn := hWithin k hAfter hNear hHit
      have hYears' := hFar k hk hHit.day hIn.1
      have hOrder := (day_order k n).1
      have hOrder' := (day_order n k).1
      have hLast := (day_order k (yearsOn backward n 2)).1
      have hLast' := (day_order (yearsOn backward n 2) k).1
      cases backward <;> simp [past] at * <;> omega
    · intro fuel hFuel
      unfold searchFuel at hFuel
      rw [hSearch, if_neg hEnded, hZero]
      exact searchLoop_zero (by omega)
  · have hTurns :
        1 ≤ searchFuel ∧
          (yearsOn backward n 2 - m) * stride backward + 2 ≤
            (searchFuel : Int) := by
      unfold searchFuel
      cases backward <;> simp [past, stride] at * <;> omega
    rcases outcome_searchLoop hz origin hc hNot hWindow searchFuel hDay
      hFrom (hm ▸ hGo) hTurns with
      ⟨r, hOutcome, hReturns⟩
    refine ⟨r, ?_, ?_⟩
    · have hNext :
          ∀ k, 1 < k → past backward k today = false →
            c.Hit z origin backward k → past backward k m = false :=
        fun k hk hAfter hHit =>
          hFirst k hk hHit.day (hStart.none_before k hHit.day hAfter)
      rcases hOutcome with
        ⟨hZero, hNone⟩ | ⟨k, hHit, hr, hk, hLast, hBest⟩
      · refine .inl ⟨hZero, ?_⟩
        intro k hk hAfter hNear hHit
        exact hNone k hk (hNext k hk hAfter hHit)
          (hWithin k hAfter hNear hHit).2 hHit
      · refine .inr ⟨k, hHit, hr, ?_, ?_⟩
        · intro h
          have hRoom' := hRoom h
          have hOrder := (day_order k n).1
          have hLast' := (day_order k (yearsOn backward n 2)).1
          cases backward <;> simp [past] at * <;> omega
        · intro j hj hAfter hHit'
          exact hBest j hj (hNext j hj hAfter hHit') hHit'
    · intro fuel hFuel
      rw [hSearch, if_neg hEnded, hm]
      exact hReturns fuel hFuel

end Start

end OnCalendar

end Timers

end Winunitd
