import Mathlib.Data.Int.ConditionallyCompleteOrder
import Mathlib.Order.ConditionallyCompleteLattice.Indexed
import Winunitd.Lib.Gregorian

/-
  Wall clocks in time zones.

  An instant is a number of nanoseconds since the first day of
  the year 1 in universal time.  A zone divides time into
  periods with one offset each; its wall clock shows the
  instant moved by the offset.  A wall time can be shown by no
  instant or by several, so making an instant from one is a
  guess that is corrected once.

  Key definitions include:
    * `Period`, `Zone`, `Zone.fixed`
    * `Zone.wall`, `Zone.date`, `Zone.clock`
    * `Zone.instant`, `Zone.make`, `Zone.addDate`
    * `Zone.midnight`, `Zone.Midnights`, `Zone.Fixed`

  Key theorems include:
    * `Zone.Midnights.addDate_eq`
    * `Zone.Fixed.midnights`
-/

------------------------------------------------------------
-- Zones
------------------------------------------------------------

namespace Winunitd

namespace Lib

namespace WallClock

open Gregorian

/- A second in nanoseconds, and a day in seconds. -/
def nanos : Int := 1000000000

def daySeconds : Int := 86400

/- A stretch of seconds with one offset; no bound is no end. -/
structure Period where
  offset : Int
  start : Option Int
  stop : Option Int
deriving DecidableEq, Repr

def Period.contains (p : Period) (s : Int) : Bool :=
  p.start.all (fun a => a ≤ s) && p.stop.all (fun b => s < b)

/-
  The period of every second.  Offsets are more than minus 25
  and less than 26 hours, the range of zone files.
-/
structure Zone where
  lookup : Int → Period
  offset_gt : ∀ s, -90000 < (lookup s).offset
  offset_lt : ∀ s, (lookup s).offset < 93600

namespace Zone

/- A zone whose clock is never set. -/
def fixed
    (offset : Int)
    (hLow : -90000 < offset)
    (hHigh : offset < 93600) : Zone where
  lookup := fun _ => { offset := offset, start := none, stop := none }
  offset_gt := fun _ => hLow
  offset_lt := fun _ => hHigh

------------------------------------------------------------
-- Reading The Clock
------------------------------------------------------------

variable (z : Zone)

/- The offset in force at an instant. -/
def offset (t : Int) : Int :=
  (z.lookup (t / nanos)).offset

/- What the wall clock shows, in seconds. -/
def wall (t : Int) : Int :=
  t / nanos + z.offset t

def date (t : Int) : Date :=
  Date.ofNumber (z.wall t / daySeconds)

def clock (t : Int) : Int :=
  z.wall t % daySeconds

def hour (t : Int) : Int :=
  z.clock t / 3600

def minute (t : Int) : Int :=
  z.clock t / 60 % 60

def sec (t : Int) : Int :=
  z.clock t % 60

def weekday (t : Int) : Fin 7 :=
  Gregorian.weekday (z.wall t / daySeconds)

/- The start of the period of an instant; zero is no start. -/
def periodStart (t : Int) : Int :=
  match (z.lookup (t / nanos)).start with
  | none => 0
  | some a => a * nanos

------------------------------------------------------------
-- Making Instants
------------------------------------------------------------

/-
  The second that is to show a wall time.  The offset is first
  looked up as if the wall time were universal, and looked up
  again if the result lies in another period.
-/
def instant (w : Int) : Int :=
  let p := z.lookup w
  if p.offset = 0 then w
  else
    let utc := w - p.offset
    if p.contains utc then utc
    else w - (z.lookup utc).offset

/- Months outside of the year count on into other years. -/
def make (y m d h mi s ns : Int) : Int :=
  z.instant
      (dayNumber (y + (m - 1) / 12) ((m - 1) % 12 + 1) d * daySeconds +
        h * 3600 + mi * 60 + s) * nanos +
    ns

/- The same wall time some years, months and days on. -/
def addDate (t years months days : Int) : Int :=
  z.make ((z.date t).year + years) ((z.date t).month + months)
    ((z.date t).day + days) (z.hour t) (z.minute t) (z.sec t)
    (t % nanos)

def midnight (n : Int) : Int :=
  z.instant (n * daySeconds) * nanos

variable {z}

/- The parts of the clock make up the clock. -/
theorem clock_parts
    (t : Int) :
    z.hour t * 3600 + z.minute t * 60 + z.sec t = z.clock t := by
  unfold hour minute sec
  omega

theorem wall_second
    (s : Int) :
    z.wall (s * nanos) = s + (z.lookup s).offset := by
  unfold wall offset nanos
  rw [Int.mul_ediv_cancel s (by decide)]

/- An instant made at midnight is that day's midnight. -/
theorem make_midnight
    (y m d : Int) :
    z.make y m d 0 0 0 0 =
      z.midnight
        (dayNumber (y + (m - 1) / 12) ((m - 1) % 12 + 1) d) := by
  simp [make, midnight]

------------------------------------------------------------
-- Midnights
------------------------------------------------------------

/- Every day has its midnight, and they follow each other. -/
structure Midnights (z : Zone) : Prop where
  wall_eq : ∀ n, z.wall (z.midnight n) = n * daySeconds
  strictMono : StrictMono z.midnight

namespace Midnights

variable (hz : z.Midnights)

include hz

theorem date_eq
    (n : Int) :
    z.date (z.midnight n) = Date.ofNumber n := by
  unfold date
  rw [hz.wall_eq, Int.mul_ediv_cancel n (by decide)]

theorem clock_eq
    (n : Int) :
    z.clock (z.midnight n) = 0 := by
  unfold clock
  rw [hz.wall_eq, Int.mul_emod_left]

/- From midnight to midnight. -/
theorem addDate_eq
    (n years months days : Int) :
    z.addDate (z.midnight n) years months days =
      z.midnight
        (dayNumber
          ((Date.ofNumber n).year + years +
            ((Date.ofNumber n).month + months - 1) / 12)
          (((Date.ofNumber n).month + months - 1) % 12 + 1)
          ((Date.ofNumber n).day + days)) := by
  have hNanos : z.midnight n % nanos = 0 := by
    unfold midnight
    exact Int.mul_emod_left _ _
  unfold addDate hour minute sec
  rw [hz.date_eq, hz.clock_eq, hNanos]
  exact make_midnight _ _ _

theorem addDate_days
    (n days : Int) :
    z.addDate (z.midnight n) 0 0 days = z.midnight (n + days) := by
  have hNumber := Date.number_ofNumber n
  have hPos := (Date.ofNumber n).month_pos
  have hLe := (Date.ofNumber n).month_le
  have hYear :
      (Date.ofNumber n).year + 0 +
          ((Date.ofNumber n).month + 0 - 1) / 12 =
        (Date.ofNumber n).year := by
    omega
  have hMonth :
      ((Date.ofNumber n).month + 0 - 1) % 12 + 1 =
        (Date.ofNumber n).month := by
    omega
  rw [hz.addDate_eq, hYear, hMonth]
  congr 1
  unfold Date.number dayNumber at hNumber
  unfold dayNumber
  omega

/- The zero instant is a midnight of the first days at most. -/
theorem midnight_eq_zero
    {n : Int}
    (h : z.midnight n = 0) :
    -1 ≤ n ∧ n ≤ 1 := by
  have hWall := hz.wall_eq n
  have hGt := z.offset_gt 0
  have hLt := z.offset_lt 0
  rw [h] at hWall
  unfold wall offset daySeconds at hWall
  rw [Int.zero_ediv] at hWall
  omega

end Midnights

------------------------------------------------------------
-- Fixed Zones
------------------------------------------------------------

/- The clock is never set. -/
def Fixed (z : Zone) (o : Int) : Prop :=
  ∀ s, z.lookup s = { offset := o, start := none, stop := none }

theorem fixed_fixed
    {o : Int}
    (hLow : -90000 < o)
    (hHigh : o < 93600) :
    (fixed o hLow hHigh).Fixed o :=
  fun _ => rfl

namespace Fixed

variable {o : Int}
variable (hf : z.Fixed o)

include hf

theorem bounds : -90000 < o ∧ o < 93600 := by
  have hLow := z.offset_gt 0
  have hHigh := z.offset_lt 0
  rw [hf] at hLow hHigh
  exact ⟨hLow, hHigh⟩

theorem wall_eq
    (t : Int) :
    z.wall t = t / nanos + o := by
  unfold wall offset
  rw [hf]

theorem instant_eq
    (w : Int) :
    z.instant w = w - o := by
  unfold instant
  rw [hf]
  dsimp only
  split
  · omega
  · rfl

theorem periodStart_eq
    (t : Int) :
    z.periodStart t = 0 := by
  unfold periodStart
  rw [hf]

theorem midnights : z.Midnights where
  wall_eq := by
    intro n
    unfold midnight
    rw [wall_second, hf.instant_eq, hf]
    exact Int.sub_add_cancel _ _
  strictMono := by
    intro n k h
    unfold midnight
    rw [hf.instant_eq, hf.instant_eq]
    unfold daySeconds nanos
    omega

end Fixed

end Zone

end WallClock

end Lib

end Winunitd
