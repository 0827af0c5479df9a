import Mathlib.Data.List.Basic
import Winunitd.Lib.Instant

/-
  Timer schedules.

  A schedule has triggers on three clocks: the time since the
  machine started, the time since this instance started, and
  the wall clock for calendars and for the activation of the
  unit.  Durations are nanoseconds.  A time that was read from
  the clock also carries a reading that is never set, by which
  it compares with others; a calendar and a stored record give
  times of the wall clock alone.  The time zero is no time.

  Key definitions include:
    * `Reading`, `Spec`, `Activation`, `Runtime`
    * `nextDeadline`
    * `markFired`

  Key theorems include:
    * `markFired_firedBoot`
    * `markFired_firedStartup`
-/

------------------------------------------------------------
-- Schedules
------------------------------------------------------------

namespace Winunitd

namespace Timers

abbrev Time := Lib.Instant

/- The occurrences around a wall time; zero is none. -/
class Calendar (K : Type) where
  next : K → Int → Int
  previous : K → Int → Int

/- What the clocks show; the wall clock shows some time. -/
structure Reading where
  now : Time
  sinceBoot : Int
  sinceStart : Int
  nonzero : now ≠ 0
deriving DecidableEq, Repr

/- One timer unit's schedule. -/
structure Spec (K : Type) where
  name : String
  unit : String
  onBootSec : Int
  onStartupSec : Int
  onUnitActiveSec : Int
  onCalendar : List K
  persistent : Bool
  onBootSecSet : Bool
  onStartupSecSet : Bool
  onUnitActiveSecSet : Bool
deriving DecidableEq, Repr

/- The result of a delivery attempt, if there is one. -/
inductive Outcome where
| none
| pending
| success
| failed
deriving DecidableEq, Repr

/- A persistent calendar delivery attempt. -/
structure Activation where
  id : String
  unit : String
  result : Outcome
  scheduled : Time
  actual : Time
deriving DecidableEq, Repr

def Activation.empty : Activation where
  id := ""
  unit := ""
  result := .none
  scheduled := 0
  actual := 0

/- Per-activation and persistent timer state. -/
structure Runtime where
  activation : Activation
  lastScheduled : Time
  lastActual : Time
  lastSuccess : Time
  lastUnitActive : Time
  firedBoot : Bool
  firedStartup : Bool
deriving DecidableEq, Repr

def Runtime.empty : Runtime where
  activation := .empty
  lastScheduled := 0
  lastActual := 0
  lastSuccess := 0
  lastUnitActive := 0
  firedBoot := false
  firedStartup := false

------------------------------------------------------------
-- Deadlines
------------------------------------------------------------

section Deadlines

variable {K : Type}

def bootDue (spec : Spec K) (c : Reading) (now : Time) : Time :=
  if spec.onBootSec ≤ c.sinceBoot then now
  else now + (spec.onBootSec - c.sinceBoot)

def startupDue (spec : Spec K) (c : Reading) (now : Time) : Time :=
  if spec.onStartupSec ≤ c.sinceStart then now
  else now + (spec.onStartupSec - c.sinceStart)

/- A missed occurrence is due at once. -/
def persistentCatchup
    [Calendar K]
    (cal : K)
    (rt : Runtime)
    (now : Time) :
    Option Time :=
  if rt.lastActual = 0 then none
  else
    let prev : Time := .ofWall (Calendar.previous cal now.wall)
    if prev = 0 ∨ prev ≤ rt.lastActual then none else some now

theorem persistentCatchup_eq
    [Calendar K]
    {cal : K}
    {rt : Runtime}
    {now t : Time}
    (h : persistentCatchup cal rt now = some t) :
    t = now := by
  unfold persistentCatchup at h
  split at h
  · cases h
  dsimp only at h
  split at h
  · cases h
  · exact (Option.some.inj h).symm

/- The earliest deadline so far, and the earliest on the wall. -/
structure Deadline where
  next : Option Time
  wall : Time
deriving DecidableEq, Repr

/- A deadline in the past is due now. -/
def clamped (now t : Time) : Time :=
  if t < now then now else t

/- Take one more deadline into account. -/
def Deadline.consider
    (now : Time)
    (d : Deadline)
    (t : Time)
    (wallBased : Bool) :
    Deadline :=
  if t = 0 then d
  else
    let t := clamped now t
    { next :=
        match d.next with
        | none => some t
        | some earliest => some (if t < earliest then t else earliest)
      wall :=
        if wallBased = true ∧ (d.wall = 0 ∨ t < d.wall) then t
        else d.wall }

/-
  The earliest deadline of a schedule, with the earliest on
  the wall clock kept apart: a change of that clock can cross
  the projection of a relative deadline.
-/
def nextDeadline
    [Calendar K]
    (spec : Spec K)
    (rt : Runtime)
    (c : Reading) :
    Deadline :=
  let now := c.now
  let d : Deadline := { next := none, wall := 0 }
  let d :=
    if spec.onBootSecSet = true ∧ rt.firedBoot = false then
      d.consider now (bootDue spec c now) false
    else d
  let d :=
    if spec.onStartupSecSet = true ∧ rt.firedStartup = false then
      d.consider now (startupDue spec c now) false
    else d
  let d :=
    if spec.onUnitActiveSecSet = true ∧ rt.lastUnitActive ≠ 0 then
      let due := rt.lastUnitActive + spec.onUnitActiveSec
      -- the deadline that has just fired is not due again
      if rt.lastActual = 0 ∨ rt.lastActual < due then
        d.consider now due true
      else d
    else d
  spec.onCalendar.foldl
    (fun d cal =>
      match
        if spec.persistent = true then persistentCatchup cal rt now
        else none
      with
      | some catchup => d.consider now catchup true
      | none =>
          d.consider now (.ofWall (Calendar.next cal now.wall)) true)
    d

/- A deadline once found is not lost. -/
theorem consider_isSome
    {now : Time}
    {d : Deadline}
    (h : d.next.isSome = true)
    (t : Time)
    (wallBased : Bool) :
    (d.consider now t wallBased).next.isSome = true := by
  unfold Deadline.consider
  split
  · exact h
  · dsimp only
    split <;> rfl

theorem consider_isSome_of_ne
    {now t : Time}
    (h : t ≠ 0)
    (d : Deadline)
    (wallBased : Bool) :
    (d.consider now t wallBased).next.isSome = true := by
  unfold Deadline.consider
  rw [if_neg h]
  dsimp only
  split <;> rfl

------------------------------------------------------------
-- Marks
------------------------------------------------------------

/- The trigger after boot has elapsed and has not fired. -/
def BootPending (spec : Spec K) (rt : Runtime) (c : Reading) : Prop :=
  spec.onBootSecSet = true ∧ rt.firedBoot = false ∧
    spec.onBootSec ≤ c.sinceBoot

instance (spec : Spec K) (rt : Runtime) (c : Reading) :
    Decidable (BootPending spec rt c) :=
  inferInstanceAs (Decidable (_ ∧ _))

def StartupPending (spec : Spec K) (rt : Runtime) (c : Reading) :
    Prop :=
  spec.onStartupSecSet = true ∧ rt.firedStartup = false ∧
    spec.onStartupSec ≤ c.sinceStart

instance (spec : Spec K) (rt : Runtime) (c : Reading) :
    Decidable (StartupPending spec rt c) :=
  inferInstanceAs (Decidable (_ ∧ _))

/- A trigger that has elapsed gives a deadline. -/
theorem nextDeadline_isSome
    [Calendar K]
    {spec : Spec K}
    {rt : Runtime}
    {c : Reading}
    (hNone : spec.onCalendar = [])
    (h : BootPending spec rt c ∨ StartupPending spec rt c) :
    (nextDeadline spec rt c).next.isSome = true := by
  unfold nextDeadline
  rw [hNone, List.foldl_nil]
  -- the trigger of the unit can only add a deadline
  have hUnit :
      ∀ d : Deadline, d.next.isSome = true →
        (if spec.onUnitActiveSecSet = true ∧ rt.lastUnitActive ≠ 0 then
          if rt.lastActual = 0 ∨
              rt.lastActual <
                rt.lastUnitActive + spec.onUnitActiveSec then
            d.consider c.now
              (rt.lastUnitActive + spec.onUnitActiveSec) true
          else d
        else d).next.isSome = true := by
    intro d hd
    split
    · split
      · exact consider_isSome hd _ _
      · exact hd
    · exact hd
  apply hUnit
  rcases h with ⟨hSet, hFired, hElapsed⟩ | ⟨hSet, hFired, hElapsed⟩
  · have hDue : bootDue spec c c.now = c.now := by
      unfold bootDue
      rw [if_pos hElapsed]
    have hFirst :
        spec.onBootSecSet = true ∧ rt.firedBoot = false :=
      ⟨hSet, hFired⟩
    have hFound :
        (Deadline.consider c.now { next := none, wall := 0 } c.now
          false).next.isSome = true :=
      consider_isSome_of_ne c.nonzero _ _
    rw [if_pos hFirst, hDue]
    split
    · exact consider_isSome hFound _ _
    · exact hFound
  · have hDue : startupDue spec c c.now = c.now := by
      unfold startupDue
      rw [if_pos hElapsed]
    have hSecond :
        spec.onStartupSecSet = true ∧ rt.firedStartup = false :=
      ⟨hSet, hFired⟩
    rw [if_pos hSecond, hDue]
    exact consider_isSome_of_ne c.nonzero _ false

/-
  Record that a deadline was consumed, so that the triggers
  that fire once do not fire again.
-/
def markFired
    (spec : Spec K)
    (rt : Runtime)
    (c : Reading)
    (scheduled actual : Time) :
    Runtime :=
  { rt with
    lastScheduled := scheduled
    lastActual := actual
    firedBoot :=
      if spec.onBootSecSet = true ∧ rt.firedBoot = false ∧
          bootDue spec c actual ≤ actual then
        true
      else rt.firedBoot
    firedStartup :=
      if spec.onStartupSecSet = true ∧ rt.firedStartup = false ∧
          startupDue spec c actual ≤ actual then
        true
      else rt.firedStartup }

section

variable (spec : Spec K)
variable (rt : Runtime)
variable (c : Reading)
variable (scheduled actual : Time)

/- Elapsed on its own clock is due at the time of the fire. -/
theorem bootDue_le_iff
    (now : Time) :
    bootDue spec c now ≤ now ↔ spec.onBootSec ≤ c.sinceBoot := by
  unfold bootDue
  split
  · rename_i hElapsed
    exact iff_of_true (Lib.Instant.le_refl now) hElapsed
  · rw [Lib.Instant.add_le_iff]
    omega

theorem startupDue_le_iff
    (now : Time) :
    startupDue spec c now ≤ now ↔
      spec.onStartupSec ≤ c.sinceStart := by
  unfold startupDue
  split
  · rename_i hElapsed
    exact iff_of_true (Lib.Instant.le_refl now) hElapsed
  · rw [Lib.Instant.add_le_iff]
    omega

/- A trigger is marked if it was pending or marked before. -/
theorem markFired_firedBoot :
    (markFired spec rt c scheduled actual).firedBoot = true ↔
      BootPending spec rt c ∨ rt.firedBoot = true := by
  unfold markFired BootPending
  simp only [bootDue_le_iff]
  split <;> simp_all

theorem markFired_firedStartup :
    (markFired spec rt c scheduled actual).firedStartup = true ↔
      StartupPending spec rt c ∨ rt.firedStartup = true := by
  unfold markFired StartupPending
  simp only [startupDue_le_iff]
  split <;> simp_all

end

end Deadlines

end Timers

end Winunitd
