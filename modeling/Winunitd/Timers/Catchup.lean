import Winunitd.Timers.FixedOffset
import Winunitd.Timers.Schedule

/-
  The catch-up of persistent timers.

  The deadline on the wall clock is the earlier one of the
  trigger after the unit's activation and of the calendars, if
  the wall clock was not set since that activation.  A calendar
  of a persistent timer is due at once if its previous
  occurrence is after the last actual fire, and otherwise at
  its next occurrence.  In a zone with a fixed offset the
  search is exact, and so is the catch-up.

  Key definitions include:
    * `zoned`
    * `calendarWall`, `unitWall`, `Steady`
    * `EarliestAfter`, `CatchUp`, `Plans`

  Key theorems include:
    * `nextDeadline_wall_eq`
    * `catchUp_of_due`
    * `catchup_exact`
-/

------------------------------------------------------------
-- Deadlines On The Wall
------------------------------------------------------------

namespace Winunitd

namespace Timers

open Lib.WallClock

/- The calendars as a zone has them. -/
@[reducible] def zoned (z : Zone) : Calendar OnCalendar where
  next := fun c t => (c.next z OnCalendar.searchFuel t).getD 0
  previous := fun c t => (c.previous z OnCalendar.searchFuel t).getD 0

/- The earlier one of two deadlines; zero is none. -/
def earlier (a b : Int) : Int :=
  if a = 0 then b else if b = 0 then a else min a b

theorem earlier_assoc
    (a b c : Int) :
    earlier (earlier a b) c = earlier a (earlier b c) := by
  unfold earlier
  split_ifs <;> omega

theorem foldl_earlier
    (vs : List Int)
    (a : Int) :
    vs.foldl earlier a = earlier a (vs.foldl earlier 0) := by
  induction vs generalizing a with
  | nil => simp [earlier]
  | cons v vs ih =>
      have hZero : earlier 0 v = v := rfl
      rw [List.foldl_cons, List.foldl_cons, ih, hZero, ih v,
        earlier_assoc]

/- The earliest of several deadlines is one of them. -/
theorem foldl_earlier_spec
    (vs : List Int) :
    (vs.foldl earlier 0 = 0 ∧ ∀ v ∈ vs, v = 0) ∨
      (vs.foldl earlier 0 ≠ 0 ∧ vs.foldl earlier 0 ∈ vs ∧
        ∀ v ∈ vs, v ≠ 0 → vs.foldl earlier 0 ≤ v) := by
  induction vs with
  | nil => exact .inl ⟨rfl, nofun⟩
  | cons v vs ih =>
      have hZero : earlier 0 v = v := rfl
      rw [List.foldl_cons, hZero, foldl_earlier]
      generalize vs.foldl earlier 0 = w at ih
      simp only [List.mem_cons, forall_eq_or_imp]
      unfold earlier
      rcases ih with ⟨hw, hAll⟩ | ⟨hw, hMem, hLe⟩
      · subst hw
        by_cases hv : v = 0
        · exact .inl ⟨by simp [hv], hv, hAll⟩
        · refine .inr ?_
          rw [if_neg hv, if_pos rfl]
          exact ⟨hv, .inl rfl, fun _ => le_rfl,
            fun u hu hNe => absurd (hAll u hu) hNe⟩
      · refine .inr ?_
        by_cases hv : v = 0
        · rw [if_pos hv]
          exact ⟨hw, .inr hMem, fun h => absurd hv h, hLe⟩
        · rw [if_neg hv, if_neg hw]
          refine ⟨by omega, ?_, fun _ => min_le_left _ _,
            fun u hu hNe => (min_le_right _ _).trans (hLe u hu hNe)⟩
          rcases min_choice v w with h | h
          · exact .inl h
          · rw [h]
            exact .inr hMem

section Wall

variable {K : Type}
variable [Calendar K]

/- When one calendar is due. -/
def calendarDue
    (spec : Spec K)
    (rt : Runtime)
    (now : Time)
    (cal : K) : Time :=
  match
    if spec.persistent = true then persistentCatchup cal rt now
    else none
  with
  | some catchup => catchup
  | none => .ofWall (Calendar.next cal now.wall)

/- The earliest deadline of the calendars. -/
def calendarWall (spec : Spec K) (rt : Runtime) (now : Time) : Int :=
  (spec.onCalendar.map
    (fun cal => (calendarDue spec rt now cal).wall)).foldl earlier 0

/- The deadline after the activation of the unit. -/
def unitWall (spec : Spec K) (rt : Runtime) (now : Time) : Time :=
  let due := rt.lastUnitActive + spec.onUnitActiveSec
  if spec.onUnitActiveSecSet = true ∧ rt.lastUnitActive ≠ 0 ∧
      (rt.lastActual = 0 ∨ rt.lastActual < due) ∧ due ≠ 0 then
    clamped now due
  else 0

/-
  There is no such deadline, or the wall clock was not set since
  the unit was active.
-/
def Steady (spec : Spec K) (rt : Runtime) (now : Time) : Prop :=
  unitWall spec rt now = 0 ∨
    ∃ offset, now.InStep offset ∧
      (unitWall spec rt now).InStep offset

variable {spec : Spec K}
variable {rt : Runtime}
variable {now : Time}

/- A calendar is due now or at a time of the wall clock. -/
theorem calendarDue_cases
    (spec : Spec K)
    (rt : Runtime)
    (now : Time)
    (cal : K) :
    calendarDue spec rt now cal = now ∨
      ∃ w, calendarDue spec rt now cal = .ofWall w := by
  unfold calendarDue
  split
  · rename_i t hCatchup
    split at hCatchup
    · exact .inl (persistentCatchup_eq hCatchup)
    · cases hCatchup
  · exact .inr ⟨_, rfl⟩

/- Times in step are considered by what they show on the wall. -/
theorem consider_wall_eq
    {offset : Int}
    {d : Deadline}
    {t : Time}
    (hd : d.wall.InStep offset)
    (ht : t.InStep offset)
    (hAhead : t = 0 ∨ now ≤ t) :
    (d.consider now t true).wall.InStep offset ∧
      (d.consider now t true).wall.wall =
        earlier d.wall.wall t.wall := by
  unfold Deadline.consider earlier
  split
  · rename_i hZero
    rw [hZero]
    refine ⟨hd, ?_⟩
    change d.wall.wall =
      if d.wall.wall = 0 then 0
      else if (0 : Int) = 0 then d.wall.wall else min d.wall.wall 0
    split_ifs <;> omega
  · rename_i hSome
    have hClamp : clamped now t = t :=
      if_neg (hAhead.resolve_left hSome)
    have hWall : t.wall ≠ 0 := fun h =>
      hSome (Lib.Instant.eq_zero_iff.mpr h)
    simp only [hClamp, Lib.Instant.lt_iff_wall ht hd,
      Lib.Instant.eq_zero_iff, true_and]
    split
    · rename_i hEarlier
      refine ⟨ht, ?_⟩
      split_ifs <;> omega
    · rename_i hLater
      refine ⟨hd, ?_⟩
      split_ifs <;> omega

theorem consider_aside
    (now : Time)
    (d : Deadline)
    (t : Time) :
    (d.consider now t false).wall = d.wall := by
  unfold Deadline.consider
  split_ifs <;> simp

/- The calendars are considered one by one. -/
theorem foldl_consider_wall
    {offset : Int}
    (hNow : now.InStep offset)
    (cals : List K)
    {d : Deadline}
    (hd : d.wall.InStep offset)
    (h :
      ∀ cal ∈ cals, calendarDue spec rt now cal = 0 ∨
        now ≤ calendarDue spec rt now cal) :
    (cals.foldl
      (fun d cal =>
        match
          if spec.persistent = true then persistentCatchup cal rt now
          else none
        with
        | some catchup => d.consider now catchup true
        | none =>
            d.consider now (.ofWall (Calendar.next cal now.wall)) true)
      d).wall.wall =
      (cals.map (fun cal => (calendarDue spec rt now cal).wall)).foldl
        earlier d.wall.wall := by
  induction cals generalizing d with
  | nil => rfl
  | cons cal cals ih =>
      have hOne :
          (match
            if spec.persistent = true then persistentCatchup cal rt now
            else none
          with
          | some catchup => d.consider now catchup true
          | none =>
              d.consider now (.ofWall (Calendar.next cal now.wall))
                true) =
            d.consider now (calendarDue spec rt now cal) true := by
        unfold calendarDue
        split <;> rfl
      have hStep : (calendarDue spec rt now cal).InStep offset := by
        rcases calendarDue_cases spec rt now cal with hEq | ⟨w, hEq⟩
        · rw [hEq]
          exact hNow
        · rw [hEq]
          exact Lib.Instant.inStep_ofWall offset w
      rcases consider_wall_eq hd hStep (h cal (.head _)) with
        ⟨hNext, hWall⟩
      rw [List.foldl_cons, hOne, List.map_cons, List.foldl_cons,
        ih hNext (fun cal hMem => h cal (.tail _ hMem)), hWall]

/- The deadline on the wall, if no calendar is due in the past. -/
theorem nextDeadline_wall_eq
    {c : Reading}
    (hSteady : Steady spec rt c.now)
    (h :
      ∀ cal ∈ spec.onCalendar, calendarDue spec rt c.now cal = 0 ∨
        c.now ≤ calendarDue spec rt c.now cal) :
    (nextDeadline spec rt c).wall.wall =
      earlier (unitWall spec rt c.now).wall
        (calendarWall spec rt c.now) := by
  have hStep :
      ∃ offset, c.now.InStep offset ∧
        (unitWall spec rt c.now).InStep offset := by
    rcases hSteady with hNone | hStep
    · rcases c.now.exists_inStep with ⟨offset, hNow⟩
      rw [hNone]
      exact ⟨offset, hNow, Lib.Instant.inStep_ofWall offset 0⟩
    · exact hStep
  rcases hStep with ⟨offset, hNow, hUnit⟩
  -- boot and startup set no deadline on the wall
  have hAside :
      (if spec.onStartupSecSet = true ∧ rt.firedStartup = false then
        Deadline.consider c.now
          (if spec.onBootSecSet = true ∧ rt.firedBoot = false then
            Deadline.consider c.now { next := none, wall := 0 }
              (bootDue spec c c.now) false
          else { next := none, wall := 0 })
          (startupDue spec c c.now) false
      else
        if spec.onBootSecSet = true ∧ rt.firedBoot = false then
          Deadline.consider c.now { next := none, wall := 0 }
            (bootDue spec c c.now) false
        else { next := none, wall := 0 }).wall = 0 := by
    split_ifs <;> simp [consider_aside]
  -- the trigger of the unit is the first to set one
  have hFirst :
      ∀ d : Deadline, d.wall = 0 →
        (if spec.onUnitActiveSecSet = true ∧ rt.lastUnitActive ≠ 0 then
          if rt.lastActual = 0 ∨
              rt.lastActual <
                rt.lastUnitActive + spec.onUnitActiveSec then
            d.consider c.now
              (rt.lastUnitActive + spec.onUnitActiveSec) true
          else d
        else d).wall = unitWall spec rt c.now := by
    intro d hd
    unfold unitWall Deadline.consider
    dsimp only
    split_ifs <;> simp_all
  unfold nextDeadline calendarWall
  dsimp only
  have hUnit' := hUnit
  rw [← hFirst _ hAside] at hUnit'
  refine (foldl_consider_wall hNow _ hUnit' h).trans ?_
  rw [hFirst _ hAside, foldl_earlier]

end Wall

------------------------------------------------------------
-- One Calendar
------------------------------------------------------------

section Persistent

variable {z : Zone}
variable {spec : Spec OnCalendar}
variable {rt : Runtime}
variable {last now : Int}

/-
  When one calendar of a persistent timer is due that has fired
  at `last`.
-/
structure Due
    (z : Zone)
    (last now : Int)
    (cal : OnCalendar)
    (v : Int) : Prop where
  catchup :
    ∀ x, cal.Occurs z x → last < x → x < now →
      z.addDate now (-8) 0 0 ≤ x → v = now
  missed : v = now → ∃ x, cal.Occurs z x ∧ last < x ∧ x < now
  next : v ≠ 0 → v ≠ now → cal.Occurs z v ∧ now < v
  none_between :
    v ≠ now → ∀ x, now < x → (v ≠ 0 → x < v) →
      x ≤ z.addDate now 8 0 0 → ¬ cal.Occurs z x

variable {cal : OnCalendar}

/- What a persistent calendar is due at, by what it finds. -/
theorem calendarDue_wall
    (hPersistent : spec.persistent = true)
    (hLast : rt.lastActual ≠ 0)
    (now : Time) :
    (@calendarDue _ (zoned z) spec rt now cal).wall =
      if (zoned z).previous cal now.wall = 0 ∨
          (zoned z).previous cal now.wall ≤ rt.lastActual.wall then
        (zoned z).next cal now.wall
      else now.wall := by
  generalize hPrev : (zoned z).previous cal now.wall = prev
  unfold calendarDue persistentCatchup
  rw [if_pos hPersistent, if_neg hLast, hPrev]
  simp only [Lib.Instant.ofWall_le_iff, Lib.Instant.eq_zero_iff]
  by_cases hNone : prev = 0 ∨ prev ≤ rt.lastActual.wall
  · have hWall :
        (Lib.Instant.ofWall prev).wall = 0 ∨
          prev ≤ rt.lastActual.wall := hNone
    rw [if_pos hNone, if_pos hWall]
    rfl
  · have hWall :
        ¬ ((Lib.Instant.ofWall prev).wall = 0 ∨
          prev ≤ rt.lastActual.wall) := hNone
    rw [if_neg hNone, if_neg hWall]

theorem due_calendarDue
    {o : Int}
    (hf : z.Fixed o)
    (hc : cal.InRange)
    (hPersistent : spec.persistent = true)
    (hLast : rt.lastActual ≠ 0)
    {now : Time}
    (hNow : now ≠ 0)
    (hYear :
      100 ≤ (z.date now.wall).year ∧ (z.date now.wall).year ≤ 9900) :
    Due z rt.lastActual.wall now.wall cal
      (@calendarDue _ (zoned z) spec rt now cal).wall := by
  rcases OnCalendar.first_occurrence hf false hc hYear with
    ⟨next, hNext, hSearch⟩
  rcases OnCalendar.first_occurrence hf true hc hYear with
    ⟨prev, hPrev, hSearch'⟩
  simp only [OnCalendar.FirstOccurrence, OnCalendar.past,
    OnCalendar.stride, Bool.false_eq_true, ↓reduceIte,
    decide_eq_true_eq, decide_eq_false_iff_not, not_lt,
    mul_one] at hNext hPrev
  have hNextEq : (zoned z).next cal now.wall = next := by
    change (cal.search z OnCalendar.searchFuel now.wall false).getD 0 =
      next
    rw [hSearch _ le_rfl]
    rfl
  have hPrevEq : (zoned z).previous cal now.wall = prev := by
    change (cal.search z OnCalendar.searchFuel now.wall true).getD 0 =
      prev
    rw [hSearch' _ le_rfl]
    rfl
  rw [calendarDue_wall hPersistent hLast, hPrevEq, hNextEq]
  rw [ne_eq, Lib.Instant.eq_zero_iff] at hNow
  split
  · rename_i hNone
    have hAfter : next ≠ now.wall := by
      rintro rfl
      exact absurd (hNext.1 hNow).2.1 (lt_irrefl _)
    refine ⟨?_, fun h => absurd h hAfter, ?_, ?_⟩
    · intro x hOccurs hLater hBefore hNear
      exfalso
      rcases hNone with hZero | hOld
      · exact hPrev.2 hZero x hBefore hNear hOccurs
      · by_cases hZero : prev = 0
        · exact hPrev.2 hZero x hBefore hNear hOccurs
        · exact (hPrev.1 hZero).2.2 x hBefore (by omega) hOccurs
    · exact fun h _ => ⟨(hNext.1 h).1, (hNext.1 h).2.1⟩
    · intro _ x hx hLt hNear
      by_cases hZero : next = 0
      · exact hNext.2 hZero x hx hNear
      · exact (hNext.1 hZero).2.2 x hx (hLt hZero)
  · rename_i hSome
    rw [not_or, not_le] at hSome
    have hFound := hPrev.1 hSome.1
    exact ⟨fun _ _ _ _ _ => rfl,
      fun _ => ⟨prev, hFound.1, hSome.2, hFound.2.1⟩,
      fun _ h => absurd rfl h, fun h => absurd rfl h⟩

------------------------------------------------------------
-- Catch-Up
------------------------------------------------------------

/- An occurrence of some calendar. -/
def Scheduled (z : Zone) (spec : Spec OnCalendar) (x : Int) : Prop :=
  ∃ cal ∈ spec.onCalendar, cal.Occurs z x

/-
  The first occurrence of any calendar after now, or zero if
  there is none within eight years.
-/
structure EarliestAfter
    (z : Zone)
    (spec : Spec OnCalendar)
    (now w : Int) : Prop where
  occurs : w ≠ 0 → Scheduled z spec w ∧ now < w
  none_between :
    ∀ x, now < x → (w ≠ 0 → x < w) → x ≤ z.addDate now 8 0 0 →
      ¬ Scheduled z spec x

/-
  What the calendars' deadline is: now, if an occurrence was
  missed, and otherwise the next occurrence.
-/
structure CatchUp
    (z : Zone)
    (spec : Spec OnCalendar)
    (last now w : Int) : Prop where
  catchup :
    ∀ x, Scheduled z spec x → last < x → x < now →
      z.addDate now (-8) 0 0 ≤ x → w = now
  next :
    (∀ x, Scheduled z spec x → last < x → now < x) →
      EarliestAfter z spec now w
  -- a deadline stands for an occurrence after the last fire
  after_last :
    last ≤ now → w ≠ 0 →
      ∃ x, Scheduled z spec x ∧ last < x ∧ w = max now x

theorem Due.ge
    {v : Int}
    (h : Due z last now cal v)
    (hSome : v ≠ 0) :
    now ≤ v := by
  by_cases hNow : v = now
  · exact hNow.ge
  · exact (h.next hSome hNow).2.le

/- The earliest of the calendars' deadlines. -/
theorem catchUp_of_due
    {due : OnCalendar → Int}
    (hNonzero : now ≠ 0)
    (hDue : ∀ cal ∈ spec.onCalendar, Due z last now cal (due cal)) :
    CatchUp z spec last now
      ((spec.onCalendar.map due).foldl earlier 0) := by
  have hWall := foldl_earlier_spec (spec.onCalendar.map due)
  generalize (spec.onCalendar.map due).foldl earlier 0 = w at hWall ⊢
  simp only [List.mem_map, forall_exists_index, and_imp,
    forall_apply_eq_imp_iff₂] at hWall
  constructor
  · rintro x ⟨cal, hMem, hOccurs⟩ hLater hBefore hNear
    have hNow := (hDue cal hMem).catchup x hOccurs hLater hBefore hNear
    rcases hWall with ⟨-, hZero⟩ | ⟨hSome, ⟨other, hOther, rfl⟩, hLeast⟩
    · exact absurd (hNow.symm.trans (hZero cal hMem)) hNonzero
    · have hLe := hLeast cal hMem (hNow ▸ hNonzero)
      rw [hNow] at hLe
      exact le_antisymm hLe ((hDue other hOther).ge hSome)
  · intro hNone
    -- no calendar is due now
    have hLater : ∀ cal ∈ spec.onCalendar, due cal ≠ now := by
      intro cal hMem hNow
      rcases (hDue cal hMem).missed hNow with
        ⟨x, hOccurs, hAfter, hBefore⟩
      exact hBefore.asymm (hNone x ⟨cal, hMem, hOccurs⟩ hAfter)
    rcases hWall with ⟨rfl, hZero⟩ | ⟨hSome, ⟨cal, hMem, rfl⟩, hLeast⟩
    · refine ⟨fun h => absurd rfl h, ?_⟩
      rintro x hx - hNear ⟨cal, hMem, hOccurs⟩
      exact (hDue cal hMem).none_between (hLater cal hMem) x hx
        (fun h => absurd (hZero cal hMem) h) hNear hOccurs
    · have hNext := (hDue cal hMem).next hSome (hLater cal hMem)
      refine ⟨fun _ => ⟨⟨cal, hMem, hNext.1⟩, hNext.2⟩, ?_⟩
      rintro x hx hBefore hNear ⟨other, hOther, hOccurs⟩
      exact (hDue other hOther).none_between (hLater other hOther) x hx
        (fun h => (hBefore hSome).trans_le (hLeast other hOther h))
        hNear hOccurs
  · intro hOrder hSome
    rcases hWall with ⟨rfl, -⟩ | ⟨-, ⟨cal, hMem, rfl⟩, -⟩
    · exact absurd rfl hSome
    by_cases hNow : due cal = now
    · rcases (hDue cal hMem).missed hNow with
        ⟨x, hOccurs, hAfter, hBefore⟩
      refine ⟨x, ⟨cal, hMem, hOccurs⟩, hAfter, ?_⟩
      rw [hNow, max_eq_left hBefore.le]
    · have hNext := (hDue cal hMem).next hSome hNow
      exact ⟨_, ⟨cal, hMem, hNext.1⟩, hOrder.trans_lt hNext.2,
        (max_eq_right hNext.2.le).symm⟩

/-
  The deadline on the wall of a persistent timer: that of the
  unit's trigger or that of the calendars.
-/
def Plans
    (z : Zone)
    (spec : Spec OnCalendar)
    (rt : Runtime)
    (c : Reading)
    (w : Int) : Prop :=
  (Steady spec rt c.now →
    (@nextDeadline _ (zoned z) spec rt c).wall.wall =
      earlier (unitWall spec rt c.now).wall w) ∧
    CatchUp z spec rt.lastActual.wall c.now.wall w

theorem plans_calendarWall
    {o : Int}
    (hf : z.Fixed o)
    (hc : ∀ cal ∈ spec.onCalendar, cal.InRange)
    (hPersistent : spec.persistent = true)
    (hLast : rt.lastActual ≠ 0)
    {c : Reading}
    (hYear :
      100 ≤ (z.date c.now.wall).year ∧
        (z.date c.now.wall).year ≤ 9900) :
    Plans z spec rt c (@calendarWall _ (zoned z) spec rt c.now) := by
  have hDue :
      ∀ cal ∈ spec.onCalendar,
        Due z rt.lastActual.wall c.now.wall cal
          (@calendarDue _ (zoned z) spec rt c.now cal).wall :=
    fun cal hMem =>
      due_calendarDue hf (hc cal hMem) hPersistent hLast c.nonzero hYear
  have hNonzero := mt Lib.Instant.eq_zero_iff.mpr c.nonzero
  refine ⟨fun hSteady => @nextDeadline_wall_eq _ (zoned z) spec rt c
    hSteady ?_, catchUp_of_due hNonzero hDue⟩
  intro cal hMem
  have hGe := (hDue cal hMem).ge
  rcases @calendarDue_cases _ (zoned z) spec rt c.now cal with
    hEq | ⟨w, hEq⟩
  · rw [hEq]
    exact .inr (Lib.Instant.le_refl _)
  · rw [hEq] at hGe ⊢
    rw [Lib.Instant.eq_zero_iff, Lib.Instant.le_ofWall_iff,
      or_iff_not_imp_left]
    exact hGe

/- A timer at midnight, with the midnight of 9 February 2026 fired. -/
def backup : Spec OnCalendar where
  name := "backup.timer"
  unit := "backup.service"
  onBootSec := 0
  onStartupSec := 0
  onUnitActiveSec := 3600000000000
  onCalendar := [daily ['d', 'a', 'i', 'l', 'y']]
  persistent := true
  onBootSecSet := false
  onStartupSecSet := false
  onUnitActiveSecSet := true

def backupFired : Runtime :=
  { Runtime.empty with lastActual := .ofWall 63906192000000000000 }

def backupReading (now : Int) (h : now ≠ 0) : Reading where
  now := .ofWall now
  sinceBoot := 0
  sinceStart := 0
  nonzero := fun hZero => h (Lib.Instant.eq_zero_iff.mp hZero)

def backupZone : Zone :=
  Zone.fixed 0 (by decide) (by decide)

end Persistent

end Timers

end Winunitd
