import Winunitd.Lib.WallClock
import Winunitd.Timers.OnCalendar

/-
  The search for the occurrences of a calendar.

  The search visits civil dates that match the date pattern, in
  one direction, until the wall time on one of them lies past
  the instant it started from.  It jumps over months and years
  that cannot match, and it stops at a horizon of eight years.
  The zero instant stands for no instant.

  A step of the search need not move in a zone that skips a
  whole day, so the search has fuel; without any it has not
  returned.

  Key definitions include:
    * `OnCalendar.wallTimeOn`
    * `OnCalendar.alignCivil`, `OnCalendar.nextCivil`
    * `OnCalendar.search`
-/

------------------------------------------------------------
-- Wall Times
------------------------------------------------------------

namespace Winunitd

namespace Timers

open Lib.WallClock
open Lib.Gregorian (Date)

/- The wall clock of an instant shows a date. -/
def onDate (z : Zone) (t y m d : Int) : Bool :=
  (z.date t).year = y && (z.date t).month = m && (z.date t).day = d

/- The wall clock of an instant shows a time of day. -/
def atClock (z : Zone) (t h mi s : Int) : Bool :=
  z.hour t = h && z.minute t = mi && z.sec t = s

/- Instants that show the same differ by their offsets. -/
theorem wall_eq_of_shown
    {z : Zone}
    {t e : Int}
    (hDate : z.date e = z.date t)
    (hClock : atClock z e (z.hour t) (z.minute t) (z.sec t) = true) :
    z.wall e = z.wall t := by
  have hDay : z.wall e / daySeconds = z.wall t / daySeconds := by
    have hNumber := congrArg Date.number hDate
    simpa [Zone.date] using hNumber
  have hSame : z.clock e = z.clock t := by
    simp only [atClock, Bool.and_eq_true, decide_eq_true_eq] at hClock
    rw [← Zone.clock_parts e, ← Zone.clock_parts t, hClock.1.1,
      hClock.1.2, hClock.2]
  unfold Zone.clock at hSame
  unfold daySeconds at hDay hSame
  omega

/-
  The earliest instant with the date and wall time of another
  one, as far as setting back the clock leads to it.  Every
  turn raises the offset.
-/
def firstOccurrence (z : Zone) (t : Int) : Int :=
  let start := z.periodStart t
  if start = 0 then t
  else
    let fold := z.offset (start - 1) - z.offset t
    if _ : fold ≤ 0 then t
    else
      let earlier := t - fold * nanos
      if _ : z.date earlier = z.date t then
        if _ :
            atClock z earlier (z.hour t) (z.minute t) (z.sec t) =
              true then
          firstOccurrence z earlier
        else t
      else t
termination_by (93600 - z.offset t).toNat
decreasing_by
  rename_i hFold hDate hClock
  have hWall : z.wall (t - fold * nanos) = z.wall t :=
    wall_eq_of_shown hDate hClock
  have hHigh : z.offset t < 93600 := z.offset_lt (t / nanos)
  have hPos : 0 < fold := by omega
  change (93600 - z.offset (t - fold * nanos)).toNat <
    (93600 - z.offset t).toNat
  unfold Zone.wall at hWall
  have hSecond :
      (t - fold * nanos) / nanos = t / nanos - fold := by
    unfold nanos
    omega
  rw [hSecond] at hWall
  omega

/-
  The first instant of a date at or after a time of day that
  the clock leaves out.
-/
def gapScan (z : Zone) (y m d : Int) : Nat → Int → Int
| 0, _ => 0
| k + 1, sod =>
    let h := sod / 3600
    let mi := sod / 60 % 60
    let s := sod % 60
    let t := z.make y m d h mi s 0
    if onDate z t y m d = true ∧ atClock z t h mi s = true then
      firstOccurrence z t
    else gapScan z y m d k (sod + 1)

def firstValidAfterGap (z : Zone) (y m d h mi s : Int) : Int :=
  let start := h * 3600 + mi * 60 + s
  gapScan z y m d (24 * 3600 - start).toNat start

namespace OnCalendar

variable (c : OnCalendar)
variable (z : Zone)

def wallOK (t : Int) : Bool :=
  if t = 0 then false else atClock z t c.hour c.minute c.second

/- The expression's wall time on a date; zero if there is none. -/
def wallTimeOn (y m d : Int) : Int :=
  let cand := z.make y m d c.hour c.minute c.second 0
  if onDate z cand y m d = false then 0
  else if c.wallOK z cand = true then firstOccurrence z cand
  else firstValidAfterGap z y m d c.hour c.minute c.second

------------------------------------------------------------
-- Civil Dates
------------------------------------------------------------

def maxSearchYears : Nat := 8

/- One number lies past another one in a direction. -/
def past (backward : Bool) (a b : Int) : Bool :=
  if backward then b < a else a < b

def stride (backward : Bool) : Int :=
  if backward then -1 else 1

/- Midnight of a date, zero for a date that does not exist. -/
def civilAt (y m d : Int) : Int :=
  let t := z.make y m d 0 0 0 0
  if onDate z t y m d = false then 0 else t

def monthEnd (y m : Int) : Int :=
  let t := z.make y (m + 1) 0 0 0 0 0
  if (z.date t).month ≠ m then 0 else t

def addMonths (y m delta : Int) : Int × Int :=
  let n := y * 12 + m - 1 + delta
  if n < 0 then (0, 1) else (n / 12, n % 12 + 1)

/- The civil date of an instant satisfies the date pattern. -/
def dateMatches (t : Int) : Bool :=
  if 0 ≤ c.year ∧ (z.date t).year ≠ c.year then false
  else if 0 ≤ c.month ∧ (z.date t).month ≠ c.month then false
  else if 0 ≤ c.day ∧ (z.date t).day ≠ c.day then false
  else true

/-
  The earliest or the latest midnight that could match the
  fixed fields; zero is no useful bound.
-/
def boundDay (last : Bool) : Int :=
  if c.year < 0 ∧ c.month < 0 ∧ c.day < 0 then 0
  else
    let y := if 0 ≤ c.year then c.year else if last then 9999 else 1
    let m := if 0 ≤ c.month then c.month else if last then 12 else 1
    let d := if 0 ≤ c.day then c.day else if last then 31 else 1
    let t := z.make y m d 0 0 0 0
    if c.dateMatches z t = false then 0 else t

section Align

variable (start : Int)
variable (backward : Bool)

/- Month and day are fixed: one date in every year. -/
def alignYears : Nat → Int → Int
| 0, _ => 0
| i + 1, year =>
    if 0 ≤ c.year ∧ year ≠ c.year then 0
    else
      let t := civilAt z year c.month c.day
      if t ≠ 0 ∧ past backward t start = false then t
      else if 0 ≤ c.year then 0
      else alignYears i (year + stride backward)

/- The day is fixed: at most one date in every month. -/
def alignMonths : Nat → Int → Int → Int
| 0, _, _ => 0
| i + 1, year, month =>
    if 0 ≤ c.year ∧ year ≠ c.year then 0
    else
      let next := addMonths year month (stride backward)
      if 0 ≤ c.month ∧ month ≠ c.month then
        alignMonths i next.1 next.2
      else
        let t := civilAt z year month c.day
        if t ≠ 0 ∧ past backward t start = false then t
        else alignMonths i next.1 next.2

/-
  The first month to look at for a fixed day.  A start in
  another year moves to the edge of the fixed one.
-/
def firstMonth (y m d : Int) : Int × Int :=
  let year := if 0 ≤ c.year then c.year else y
  let edge : Int × Int :=
    if 0 ≤ c.year ∧ backward = false ∧ y < c.year then (1, 0)
    else if 0 ≤ c.year ∧ backward = true ∧ c.year < y then (12, 32)
    else (m, d)
  if backward = false ∧ c.day < edge.2 then addMonths year edge.1 1
  else if backward = true ∧ edge.2 < c.day then
    addMonths year edge.1 (-1)
  else (year, edge.1)

/- The month is fixed: its first or last day, or the start in it. -/
def alignMonth : Int :=
  let y := (z.date start).year
  let m := (z.date start).month
  let year := if 0 ≤ c.year then c.year else y
  if backward = false then
    if y < year ∨ (y = year ∧ m < c.month) then
      civilAt z year c.month 1
    else if y = year ∧ m = c.month then start
    else if 0 ≤ c.year then 0
    else civilAt z (y + 1) c.month 1
  else
    if year < y ∨ (y = year ∧ c.month < m) then
      monthEnd z year c.month
    else if y = year ∧ m = c.month then start
    else if 0 ≤ c.year then 0
    else monthEnd z (y - 1) c.month

/- The first matching date that is not before the start. -/
def alignCivil : Int :=
  if c.dateMatches z start = true then start
  else
    let y := (z.date start).year
    if 0 ≤ c.month ∧ 0 ≤ c.day then
      c.alignYears z start backward (maxSearchYears + 4)
        (if 0 ≤ c.year then c.year else y)
    else if 0 ≤ c.day then
      let first :=
        c.firstMonth backward y (z.date start).month
          (z.date start).day
      c.alignMonths z start backward (12 * (maxSearchYears + 2))
        first.1 first.2
    else if 0 ≤ c.month then c.alignMonth z start backward
    else start

end Align

section Step

variable (backward : Bool)

def nextYears : Nat → Int → Int
| 0, _ => 0
| i + 1, year =>
    let year := year + stride backward
    if 0 ≤ c.year ∧ year ≠ c.year then 0
    else
      let t := civilAt z year c.month c.day
      if t ≠ 0 then t else nextYears i year

def nextMonths : Nat → Int → Int → Int
| 0, _, _ => 0
| i + 1, year, month =>
    let next := addMonths year month (stride backward)
    if 0 ≤ c.year ∧ next.1 ≠ c.year then 0
    else if 0 ≤ c.month ∧ next.2 ≠ c.month then
      nextMonths i next.1 next.2
    else
      let t := civilAt z next.1 next.2 c.day
      if t ≠ 0 then t else nextMonths i next.1 next.2

/- The month is fixed: its days, and the month of other years. -/
def nextInMonth (t : Int) : Int :=
  let next := z.addDate t 0 0 (stride backward)
  if c.dateMatches z next = true then next
  else
    let y := (z.date t).year + stride backward
    if 0 ≤ c.year ∧ y ≠ c.year then 0
    else if backward = true then monthEnd z y c.month
    else civilAt z y c.month 1

/- The next matching date after a date. -/
def nextCivil (t : Int) : Int :=
  let y := (z.date t).year
  if 0 ≤ c.month ∧ 0 ≤ c.day then
    c.nextYears z backward (maxSearchYears + 4) y
  else if 0 ≤ c.day then
    c.nextMonths z backward (12 * (maxSearchYears + 2)) y
      (z.date t).month
  else if 0 ≤ c.month then c.nextInMonth z backward t
  else z.addDate t 0 0 (stride backward)

end Step

------------------------------------------------------------
-- The Search
------------------------------------------------------------

/- The occurrence on a date, if it lies past the origin. -/
def candidate (origin : Int) (backward : Bool) (t : Int) :
    Option Int :=
  if c.dateMatches z t = true then
    let cand :=
      c.wallTimeOn z (z.date t).year (z.date t).month (z.date t).day
    if cand ≠ 0 ∧ c.allowsWeekday (z.weekday cand) = true ∧
        past backward origin cand = true then
      some cand
    else none
  else none

def searchLoop (origin horizon : Int) (backward : Bool) :
    Nat → Int → Option Int
| 0, _ => none
| fuel + 1, t =>
    if t = 0 then some 0
    else if past backward horizon t = true then some 0
    else if 0 ≤ c.year ∧
        past backward c.year (z.date t).year = true then
      some 0
    else
      match c.candidate z origin backward t with
      | some cand => some cand
      | none =>
          searchLoop origin horizon backward fuel
            (c.nextCivil z backward t)

/- The date at which a search starts. -/
def startDay (origin : Int) (backward : Bool) : Int :=
  let start :=
    z.make (z.date origin).year (z.date origin).month
      (z.date origin).day 0 0 0 0
  let bound := c.boundDay z backward
  if bound ≠ 0 ∧ past backward start bound = true then bound else start

/-
  The first occurrence past the origin, zero if the window has
  none; without enough fuel the search has not returned.
-/
def search (fuel : Nat) (origin : Int) (backward : Bool) :
    Option Int :=
  if 0 ≤ c.year ∧ 0 ≤ c.month ∧ 0 ≤ c.day then
    let cand := c.wallTimeOn z c.year c.month c.day
    if cand = 0 ∨ c.allowsWeekday (z.weekday cand) = false then some 0
    else if past backward origin cand = true then some cand
    else some 0
  else
    let start := c.startDay z origin backward
    if 0 ≤ c.year ∧
        past backward c.year (z.date start).year = true then
      some 0
    else
      let horizon :=
        z.addDate start (maxSearchYears * stride backward) 0
          (2 * stride backward)
      c.searchLoop z origin horizon backward fuel
        (c.alignCivil z start backward)

def next (fuel : Nat) (after : Int) : Option Int :=
  c.search z fuel after false

def previous (fuel : Nat) (before : Int) : Option Int :=
  c.search z fuel before true

end OnCalendar

end Timers

end Winunitd
