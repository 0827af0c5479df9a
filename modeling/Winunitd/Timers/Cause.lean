import Winunitd.Timers.DueKept

/-
  Which clock makes a timer fire.

  A timer keeps the earliest deadline on the wall clock apart
  from the projection of its relative triggers.  In every run
  that deadline is one of a calendar or of the activation of
  the unit, so a deadline is consumed only because a retry or
  a relative trigger has elapsed on its own clock or because
  such a deadline has been reached.  A deadline that carries a
  reading is reached by that reading, so the wall clock may not
  have come to it if it was set back since.

  Key definitions include:
    * `WallTrigger`, `Accepted`
    * `Engine.readings`, `Engine.Planned`
    * `Caused`

  Key theorems include:
    * `nextDeadline_wall`
    * `Engine.Planned.step`
    * `Engine.fires_caused`
-/

------------------------------------------------------------
-- Deadlines On The Wall Clock
------------------------------------------------------------

namespace Winunitd

namespace Timers

variable {K : Type}

section Triggers

variable [Calendar K]

/-
  The deadlines on the wall clock that a plan made at the time
  `now` can have.
-/
inductive WallTrigger
    (spec : Spec K)
    (rt : Runtime)
    (now : Time) : Time → Prop where
| unitActive :
    spec.onUnitActiveSecSet = true →
    rt.lastUnitActive ≠ 0 →
    (rt.lastActual = 0 ∨
      rt.lastActual < rt.lastUnitActive + spec.onUnitActiveSec) →
    WallTrigger spec rt now
      (clamped now (rt.lastUnitActive + spec.onUnitActiveSec))
| missed (cal : K) :
    cal ∈ spec.onCalendar →
    spec.persistent = true →
    persistentCatchup cal rt now = some now →
    WallTrigger spec rt now now
| next (cal : K) :
    cal ∈ spec.onCalendar →
    (spec.persistent = true → persistentCatchup cal rt now = none) →
    Lib.Instant.ofWall (Calendar.next cal now.wall) ≠ 0 →
    WallTrigger spec rt now
      (clamped now (.ofWall (Calendar.next cal now.wall)))

/- Only a schedule that depends on the wall clock has one. -/
theorem WallTrigger.wallSensitive
    {spec : Spec K}
    {rt : Runtime}
    {now t : Time}
    (h : WallTrigger spec rt now t) :
    Engine.wallSensitive spec := by
  cases h with
  | unitActive hSet _ _ => exact Or.inr hSet
  | missed cal hMem _ _ => exact Or.inl (List.ne_nil_of_mem hMem)
  | next cal hMem _ _ => exact Or.inl (List.ne_nil_of_mem hMem)

/- It rests on the last activation and the last fire alone. -/
theorem WallTrigger.congr
    {spec : Spec K}
    {rt rt' : Runtime}
    {now t : Time}
    (h : WallTrigger spec rt now t)
    (hActive : rt'.lastUnitActive = rt.lastUnitActive)
    (hActual : rt'.lastActual = rt.lastActual) :
    WallTrigger spec rt' now t := by
  have hCatchup :
      ∀ cal : K,
        persistentCatchup cal rt' now = persistentCatchup cal rt now := by
    intro cal
    unfold persistentCatchup
    rw [hActual]
  cases h with
  | unitActive hSet hSome hOpen =>
      rw [← hActive] at hSome hOpen ⊢
      rw [← hActual] at hOpen
      exact .unitActive hSet hSome hOpen
  | missed cal hMem hPersistent hMissed =>
      exact .missed cal hMem hPersistent ((hCatchup cal).trans hMissed)
  | next cal hMem hNone hSome =>
      exact .next cal hMem
        (fun hPersistent => (hCatchup cal).trans (hNone hPersistent))
        hSome

/- A deadline without a trigger on the wall clock keeps none. -/
theorem consider_wall
    {P : Time → Prop}
    {now : Time}
    {d : Deadline}
    (h : d.wall = 0 ∨ P d.wall)
    {t : Time}
    {wallBased : Bool}
    (hNew : wallBased = true → t ≠ 0 → P (clamped now t)) :
    (d.consider now t wallBased).wall = 0 ∨
      P (d.consider now t wallBased).wall := by
  unfold Deadline.consider
  split
  · exact h
  rename_i hSome
  dsimp only
  by_cases hWall :
      wallBased = true ∧ (d.wall = 0 ∨ clamped now t < d.wall)
  · rw [if_pos hWall]
    exact Or.inr (hNew hWall.1 hSome)
  · rw [if_neg hWall]
    exact h

/- The wall part of a plan is none or one of these deadlines. -/
theorem nextDeadline_wall
    (spec : Spec K)
    (rt : Runtime)
    (c : Reading) :
    (nextDeadline spec rt c).wall = 0 ∨
      WallTrigger spec rt c.now (nextDeadline spec rt c).wall := by
  have hRelative :
      ∀ (d : Deadline) (p : Prop) [Decidable p] (t : Time),
        d.wall = 0 ∨ WallTrigger spec rt c.now d.wall →
        (if p then d.consider c.now t false else d).wall = 0 ∨
          WallTrigger spec rt c.now
            (if p then d.consider c.now t false else d).wall := by
    intro d p _ t hd
    split
    · exact consider_wall hd (fun hFalse => by cases hFalse)
    · exact hd
  unfold nextDeadline
  dsimp only
  refine List.foldlRecOn
    (motive := fun d : Deadline =>
      d.wall = 0 ∨ WallTrigger spec rt c.now d.wall) _ _ ?_ ?_
  · split
    · rename_i hSet
      split
      · rename_i hOpen
        refine consider_wall
          (hRelative _ _ _ (hRelative _ _ _ (Or.inl rfl))) ?_
        exact fun _ _ => .unitActive hSet.1 hSet.2 hOpen
      · exact hRelative _ _ _ (hRelative _ _ _ (Or.inl rfl))
    · exact hRelative _ _ _ (hRelative _ _ _ (Or.inl rfl))
  · intro d hd cal hMem
    split
    · rename_i t hCatchup
      refine consider_wall hd ?_
      intro _ _
      split at hCatchup
      · rename_i hPersistent
        have hNow := persistentCatchup_eq hCatchup
        subst hNow
        have hSelf : clamped c.now c.now = c.now :=
          if_neg (Lib.Instant.lt_irrefl _)
        rw [hSelf]
        exact .missed cal hMem hPersistent hCatchup
      · cases hCatchup
    · rename_i hNone
      refine consider_wall hd (fun _ hSome => .next cal hMem ?_ hSome)
      intro hPersistent
      rwa [if_pos hPersistent] at hNone

end Triggers

------------------------------------------------------------
-- Plans
------------------------------------------------------------

/-
  A deadline on the wall clock that the timer's schedule and
  state had at one of the times `seen`.
-/
def Accepted
    [Calendar K]
    (seen : List Time)
    (a : Armed K)
    (wall : Time) : Prop :=
  ∃ now ∈ seen, WallTrigger a.spec a.rt now wall

/- The time that a step sets. -/
def Label.reading : Label K → Option Time
| .clock c => some c.now
| .clockChanged c _ => some c.now
| _ => none

namespace Engine

/- The times that the clock shows in a run. -/
def readings (s₀ : Engine K) (ls : List (Label K)) : List Time :=
  s₀.clock.now :: ls.filterMap Label.reading

variable [Calendar K]
variable {s s' : Engine K}
variable {seen : List Time}

/- What the planner found or searches for a timer is its own. -/
def PlansFor (seen : List Time) (s : Engine K) :
    Option (PlanPhase K) → Prop
| some (.search name _ gen _ spec rt) =>
    gen ≤ s.nextGen ∧
      ∀ a, s.find name = some a → a.gen = gen →
        a.spec = spec ∧ a.rt.lastUnitActive = rt.lastUnitActive ∧
          a.rt.lastActual = rt.lastActual
| some (.publish name _ gen _ found) =>
    gen ≤ s.nextGen ∧
      ∀ a, s.find name = some a → a.gen = gen →
        found.wall = 0 ∨ Accepted seen a found.wall
| _ => True

/- The deadlines on the wall clock are those of the timers. -/
structure Planned (seen : List Time) (s : Engine K) : Prop where
  clock : s.clock.now ∈ seen
  gens : ∀ name a, s.find name = some a → a.gen ≤ s.nextGen
  arms :
    ∀ name a, s.find name = some a →
      a.wallNext = 0 ∨ Accepted seen a a.wallNext
  planner : s.PlansFor seen s.planner

omit [Calendar K] in
theorem SamePlan.refl
    (a : Armed K) :
    SamePlan a a :=
  ⟨rfl, rfl, rfl, rfl, rfl⟩

theorem SamePlan.accepted
    {a a' : Armed K}
    (h : SamePlan a a')
    {wall : Time}
    (ha : Accepted seen a wall) :
    Accepted seen a' wall := by
  rcases ha with ⟨now, hNow, hTrigger⟩
  refine ⟨now, hNow, ?_⟩
  rw [h.spec]
  exact hTrigger.congr h.active h.actual

theorem Planned.mono
    (h : s.Planned seen)
    {seen' : List Time}
    (hMore : seen ⊆ seen') :
    s.Planned seen' := by
  have hAccepted :
      ∀ (a : Armed K) wall, Accepted seen a wall →
        Accepted seen' a wall := by
    rintro a wall ⟨now, hNow, hTrigger⟩
    exact ⟨now, hMore hNow, hTrigger⟩
  refine ⟨hMore h.clock, h.gens, ?_, ?_⟩
  · intro name a hFind
    exact (h.arms name a hFind).imp_right (hAccepted a _)
  · have hPlan := h.planner
    revert hPlan
    unfold PlansFor
    split
    · exact id
    · exact fun hPlan => ⟨hPlan.1, fun a ha hGen =>
        (hPlan.2 a ha hGen).imp_right (hAccepted a _)⟩
    · exact id

/- The planner's work stays right for timers with their plans. -/
theorem PlansFor.mono
    {p : Option (PlanPhase K)}
    (h : s.PlansFor seen p)
    (hGen : s.nextGen ≤ s'.nextGen)
    (hArms :
      ∀ name a', s'.find name = some a' →
        s.nextGen < a'.gen ∨
          ∃ a, s.find name = some a ∧ SamePlan a a') :
    s'.PlansFor seen p := by
  cases p with
  | none => trivial
  | some phase =>
      cases phase with
      | pick => trivial
      | search name ref gen clockGen spec rt =>
          refine ⟨h.1.trans hGen, ?_⟩
          intro a' ha' hOwn
          rcases hArms name a' ha' with hNew | ⟨a, ha, hSame⟩
          · have hOld := h.1
            omega
          · have hPlan := h.2 a ha (hSame.gen.symm.trans hOwn)
            exact ⟨hSame.spec.trans hPlan.1,
              hSame.active.trans hPlan.2.1,
              hSame.actual.trans hPlan.2.2⟩
      | publish name ref gen clockGen found =>
          refine ⟨h.1.trans hGen, ?_⟩
          intro a' ha' hOwn
          rcases hArms name a' ha' with hNew | ⟨a, ha, hSame⟩
          · have hOld := h.1
            omega
          · rcases h.2 a ha (hSame.gen.symm.trans hOwn) with
              hNone | hPlan
            · exact Or.inl hNone
            · exact Or.inr (hSame.accepted hPlan)

/- What a new plan is. -/
theorem reschedule_plan
    (s : Engine K)
    (a : Armed K) :
    (s.reschedule a).2.gen = s.nextGen + 1 ∧
      ((s.reschedule a).2.wallNext = 0 ∨
        (s.reschedule a).2.wallNext =
          (nextDeadline a.spec a.rt s.clock).wall) ∧
      ((s.reschedule a).1.planner = s.planner ∨
        (s.reschedule a).1.planner = some .pick) := by
  unfold reschedule removeDeadline
  dsimp only
  split
  · exact ⟨rfl, Or.inl rfl, Or.inl rfl⟩
  split
  · exact ⟨rfl, Or.inl rfl, Or.inl rfl⟩
  split
  · refine ⟨rfl, Or.inl rfl, ?_⟩
    unfold startPlanner
    split
    · exact Or.inr rfl
    · exact Or.inl rfl
  · split
    · exact ⟨rfl, Or.inr rfl, Or.inl rfl⟩
    · exact ⟨rfl, Or.inr rfl, Or.inl rfl⟩

namespace Planned

/- Fewer timers, each with its plan. -/
theorem sub
    (h : s.Planned seen)
    (hArms :
      ∀ name a', s'.find name = some a' →
        ∃ a, s.find name = some a ∧ SamePlan a a')
    (hClock : s'.clock = s.clock)
    (hGen : s'.nextGen = s.nextGen)
    (hPlanner : s'.planner = s.planner) :
    s'.Planned seen := by
  refine ⟨hClock ▸ h.clock, ?_, ?_, ?_⟩
  · intro name a' ha'
    rcases hArms name a' ha' with ⟨a, ha, hSame⟩
    rw [hSame.gen, hGen]
    exact h.gens name a ha
  · intro name a' ha'
    rcases hArms name a' ha' with ⟨a, ha, hSame⟩
    rw [hSame.wallNext]
    rcases h.arms name a ha with hNone | hPlan
    · exact Or.inl hNone
    · exact Or.inr (hSame.accepted hPlan)
  · rw [hPlanner]
    exact h.planner.mono hGen.ge
      (fun name a' ha' => Or.inr (hArms name a' ha'))

theorem congr
    (h : s.Planned seen)
    (hFind : ∀ name, s'.find name = s.find name)
    (hClock : s'.clock = s.clock)
    (hGen : s'.nextGen = s.nextGen)
    (hPlanner : s'.planner = s.planner) :
    s'.Planned seen := by
  refine h.sub ?_ hClock hGen hPlanner
  intro name a ha
  rw [hFind] at ha
  exact ⟨a, ha, .refl a⟩

variable {a b : Armed K}

theorem put
    (h : s.Planned seen)
    (hFind : s.find a.name = some b)
    (hSame : SamePlan b a) :
    (s.put a).Planned seen := by
  refine h.sub ?_ rfl rfl rfl
  refine forall_put
    (Q := fun name c => ∃ d, s.find name = some d ∧ SamePlan d c)
    ?_ hFind ⟨b, hFind, hSame⟩
  intro name c hc
  exact ⟨c, hc, .refl c⟩

/-
  A new plan for one timer; the others are as in a state whose
  plans are right.
-/
theorem reschedule
    {t : Engine K}
    (h : t.Planned seen)
    (hOthers : ∀ name, name ≠ a.name → s.find name = t.find name)
    (hClock : s.clock = t.clock)
    (hGen : s.nextGen = t.nextGen)
    (hPlanner : s.planner = t.planner)
    (hFind : s.find a.name = some b) :
    (s.rescheduleLocked a).Planned seen := by
  rcases find_reschedule_self hFind with ⟨hOwn, hSame⟩
  rcases reschedule_plan s a with ⟨hNew, hWall, hPlan⟩
  have hNext : (s.rescheduleLocked a).nextGen = t.nextGen + 1 := by
    rcases rescheduleLocked_eq s a with ⟨_, _, _, _, _, _, _, hEq⟩
    rw [hEq, ← hGen]
  have hArms :
      ∀ name a', (s.rescheduleLocked a).find name = some a' →
        name = a.name ∧ a' = (s.reschedule a).2 ∨
          t.find name = some a' := by
    intro name a' ha'
    by_cases hName : name = a.name
    · subst hName
      rw [hOwn] at ha'
      exact Or.inl ⟨rfl, (Option.some.inj ha').symm⟩
    · rw [find_reschedule_ne hName, hOthers name hName] at ha'
      exact Or.inr ha'
  have hNow : s.clock.now ∈ seen := hClock ▸ h.clock
  refine ⟨?_, ?_, ?_, ?_⟩
  · rw [(kept_reschedule s a).clock]
    exact hNow
  · intro name a' ha'
    rw [hNext]
    rcases hArms name a' ha' with ⟨_, rfl⟩ | hOld
    · rw [hNew, hGen]
    · exact (h.gens name a' hOld).trans (Nat.le_succ _)
  · intro name a' ha'
    rcases hArms name a' ha' with ⟨_, rfl⟩ | hOld
    · rcases hWall with hNone | hWall
      · exact Or.inl hNone
      · rw [hWall]
        rcases nextDeadline_wall a.spec a.rt s.clock with
          hNone | hTrigger
        · exact Or.inl hNone
        · refine Or.inr ⟨s.clock.now, hNow, ?_⟩
          rw [hSame.spec, hSame.rt]
          exact hTrigger
    · exact h.arms name a' hOld
  · have hPhase :
        (s.rescheduleLocked a).planner = (s.reschedule a).1.planner :=
      rfl
    rw [hPhase]
    rcases hPlan with hPlan | hPlan
    · rw [hPlan, hPlanner]
      refine h.planner.mono (by rw [hNext]; exact Nat.le_succ _) ?_
      intro name a' ha'
      rcases hArms name a' ha' with ⟨_, rfl⟩ | hOld
      · left
        rw [hNew, hGen]
        exact Nat.lt_succ_self _
      · exact Or.inr ⟨a', hOld, .refl a'⟩
    · rw [hPlan]
      trivial

section

variable (h : s.Planned seen)

include h

theorem disarm
    (name : String) :
    (s.disarm name).Planned seen := by
  refine h.sub ?_ (kept_disarm s name).clock ?_ ?_
  · intro other a ha
    exact ⟨a, (find_disarm ha).1, .refl a⟩
  · unfold Engine.disarm
    split <;> rfl
  · unfold Engine.disarm
    split <;> rfl

theorem arm
    (cfg : Config)
    (spec : Spec K) :
    (s.arm cfg spec).Planned seen := by
  refine arm_rule h (fun t a b hNew => ?_)
  have hOthers := hNew.others
  have hFind := hNew.find
  rcases hNew.state with ⟨_, _, _, _, rfl⟩
  exact h.reschedule hOthers rfl rfl rfl hFind

/- The planner takes over the timer's own schedule. -/
theorem planStep
    (hStep : s.planStep = some s') :
    s'.Planned seen := by
  unfold Engine.planStep at hStep
  split at hStep
  · cases hStep
  · dsimp only at hStep
    split at hStep
    · cases hStep
      exact ⟨h.clock, h.gens, h.arms, trivial⟩
    · rename_i a hNext
      cases hStep
      rcases Option.bind_eq_some_iff.mp hNext with ⟨name, _, hFind⟩
      rw [← name_of_find hFind] at hFind
      refine ⟨h.clock, h.gens, h.arms, h.gens a.name a hFind, ?_⟩
      intro b hb _
      have hOwn : s.find a.name = some b := hb
      rw [hFind] at hOwn
      cases hOwn
      exact ⟨rfl, rfl, rfl⟩
  · rename_i name ref gen clockGen spec rt hPlanner
    cases hStep
    have hPlan := h.planner
    rw [hPlanner] at hPlan
    refine ⟨h.clock, h.gens, h.arms, hPlan.1, ?_⟩
    intro a ha hGen
    rcases hPlan.2 a ha hGen with ⟨hSpec, hActive, hActual⟩
    rcases nextDeadline_wall spec rt s.clock with hNone | hTrigger
    · exact Or.inl hNone
    · refine Or.inr ⟨s.clock.now, h.clock, ?_⟩
      rw [hSpec]
      exact hTrigger.congr hActive hActual
  · rename_i name ref gen clockGen found hPlanner
    cases hStep
    have hPlan := h.planner
    rw [hPlanner] at hPlan
    refine planPublish_rule ⟨h.clock, h.gens, h.arms, trivial⟩ ?_
    rintro a item pq items k hFind ⟨rfl, rfl, _⟩
    refine ⟨h.clock, forall_put h.gens hFind (h.gens a.name a hFind),
      forall_put h.arms hFind ?_, trivial⟩
    -- the plan that is published is accepted by its timer
    exact hPlan.2 a hFind rfl

end

end Planned

------------------------------------------------------------
-- Fires
------------------------------------------------------------

namespace Planned

variable {cfg : Config}
variable {due : DueTimer}
variable {a : Armed K}

/- The event is of the current arm, so the timer is replanned. -/
theorem launch
    {actual : Time}
    (h : s.Planned seen)
    (hOwned : s.Owned)
    (hFind : s.find a.name = some a) :
    (s.launch cfg a due actual).Planned seen := by
  have hEvent :=
    Owned.accept_event cfg due actual (hOwned.arms a.name a hFind)
  rcases accept_arm (s := s) cfg a due actual with ⟨rt, hArm⟩
  unfold Engine.launch
  dsimp only
  rw [hArm, if_pos hEvent.1.symm]
  exact reschedule (t := s) (b := a) h (fun _ _ => rfl) rfl rfl rfl hFind

theorem consume
    {now : Time}
    (h : s.Planned seen)
    (hOwned : s.Owned)
    (hPopped : Popped s now due s' a) :
    (s'.consumeLocked cfg due now).Planned seen := by
  have h' : s'.Planned seen := by
    have hFind := hPopped.own
    rcases hPopped.after with ⟨pq, rfl⟩
    refine put (b := a) ?_ hFind ⟨rfl, rfl, rfl, rfl, rfl⟩
    exact h.congr (fun _ => rfl) rfl rfl rfl
  exact hPopped.consume_rule h' (fun _ hFound =>
    h'.launch (hOwned.popped hPopped) hFound)

theorem fireDue
    (h : s.Planned seen)
    (hInstalled : s.Installed)
    (hOwned : s.Owned)
    (cfg : Config) :
    (s.fireDueLocked cfg).Planned seen :=
  (fireDue_rule (P := fun t => t.Owned ∧ t.Planned seen) cfg
    (fun _ _ _ _ _ ht _ hPopped _ =>
      ⟨ht.1.consume hPopped, ht.2.consume ht.1 hPopped⟩)
    hInstalled ⟨hOwned, h⟩).1.2

/- Every step keeps the plans right. -/
theorem step
    {l : Label K}
    (h : s.Planned seen)
    (hInstalled : s.Installed)
    (hOwned : s.Owned)
    (hStep : s.step cfg l = some s') :
    s'.Planned (seen ++ l.reading.toList) := by
  have hAll : s.Planned (seen ++ l.reading.toList) :=
    h.mono (List.subset_append_left _ _)
  refine Reworks.step ?_ hInstalled.dropStale hAll hStep
  exact
    { set := fun t c n ht hShown => by
        refine { ht with clock := ?_ }
        rcases hShown with rfl | rfl | ⟨order, rfl⟩
        · exact hAll.clock
        · exact List.mem_append_right _ (.head _)
        · exact List.mem_append_right _ (.head _)
      stop := hAll.congr (fun _ => rfl) rfl rfl rfl
      rest := fun _ _ _ _ _ _ _ _ ht =>
        ht.congr (fun _ => rfl) rfl rfl rfl
      arm := fun spec _ => hAll.arm cfg spec
      disarm := fun _ name ht _ => ht.disarm name
      put := fun _ _ _ ht hFind _ hPlan _ => ht.put hFind hPlan
      reschedule := fun _ _ _ ht hFind _ =>
        ht.reschedule (fun _ _ => rfl) rfl rfl rfl hFind
      fireDue := fun _ ht =>
        ht.fireDue (hInstalled.ticked _) { hOwned with } cfg
      plan := hAll.planStep }

/- The times are those that the clock has shown in the run. -/
theorem of_run
    {s₀ : Engine K}
    (hInit : s₀.Initial)
    {ls : List (Label K)}
    (h : (timing K cfg).run s₀ ls = some s) :
    s.Planned (readings s₀ ls) := by
  have hAlong :
      (timing K cfg).Reachable s ∧ s.Planned (readings s₀ ls) := by
    refine Lib.System.run_invariant (M := timing K cfg)
      (I := fun ls t =>
        (timing K cfg).Reachable t ∧ t.Planned (readings s₀ ls))
      ⟨⟨s₀, hInit, .refl _⟩, ?_⟩ ?_ h
    · rcases hInit with ⟨clock, disk, _, rfl⟩
      refine ⟨.head _, ?_, ?_, trivial⟩
      · intro name a hFind
        cases hFind
      · intro name a hFind
        cases hFind
    · rintro ls t l t' ⟨hReach, hPlanned⟩ hNext
      refine ⟨hReach.step hNext, ?_⟩
      have hMore := Planned.step hPlanned (Installed.of_reachable hReach)
        (Owned.of_reachable hReach) hNext
      have hReadings :
          readings s₀ (ls ++ [l]) =
            readings s₀ ls ++ l.reading.toList := by
        unfold readings
        rw [List.filterMap_append, List.cons_append]
        cases hRead : l.reading <;> simp [hRead]
      rw [hReadings]
      exact hMore
  exact hAlong.2

end Planned

end Engine

------------------------------------------------------------
-- Causes
------------------------------------------------------------

/-
  Why a timer fires: its retry or a relative trigger that has
  not fired is due on its own clock, or an accepted deadline
  of a calendar or of the unit's activation has come, and has
  come on the wall unless the wall clock was set back since the
  reading that the deadline carries.
-/
def Caused
    [Calendar K]
    (seen : List Time)
    (c : Reading)
    (a : Armed K) : Prop :=
  match a.retry with
  | some r => r.after ≤ c.sinceStart
  | none =>
      BootPending a.spec a.rt c ∨ StartupPending a.spec a.rt c ∨
        Accepted seen a a.wallNext ∧ a.wallNext ≤ c.now ∧
          (a.wallNext.Onward c.now → a.wallNext.wall ≤ c.now.wall)

namespace Engine

variable [Calendar K]
variable {s s' : Engine K}
variable {seen : List Time}

variable {a : Armed K}

theorem Planned.caused
    (h : s.Planned seen)
    {c : Reading}
    {name : String}
    (hFind : s.find name = some a)
    (hDue : ItemDue c c.now a) :
    Caused seen c a := by
  unfold ItemDue at hDue
  unfold Caused
  split
  · rename_i r hRetry
    simpa only [hRetry] using hDue
  · rename_i hRetry
    simp only [hRetry] at hDue
    rcases hDue with hBoot | hStartup | ⟨hSome, hReached⟩
    · exact Or.inl hBoot
    · exact Or.inr (Or.inl hStartup)
    · exact Or.inr (Or.inr
        ⟨(h.arms name a hFind).resolve_left hSome, hReached,
          fun hOnward => hOnward.wall_le hReached⟩)

/- A timer without such triggers does not look at the wall. -/
theorem Planned.itemDue_iff
    (h : s.Planned seen)
    {name : String}
    (hFind : s.find name = some a)
    (hRelative : ¬ wallSensitive a.spec)
    {c c' : Reading}
    (hBoot : c'.sinceBoot = c.sinceBoot)
    (hStart : c'.sinceStart = c.sinceStart) :
    ItemDue c' c'.now a ↔ ItemDue c c.now a := by
  have hNone : a.wallNext = 0 := by
    rcases h.arms name a hFind with hNone | ⟨now, _, hTrigger⟩
    · exact hNone
    · exact absurd hTrigger.wallSensitive hRelative
  unfold ItemDue BootPending StartupPending
  rw [hBoot, hStart, hNone]
  simp

/-
  The deadline `x` is consumed as that of a timer that does not
  fire yet.
-/
def ConsumedOf (s : Engine K) (x : Consumed) (a : Armed K) : Prop :=
  s.find a.name = some a ∧ a.firing = false ∧
    ItemDue s.clock s.clock.now a ∧ x = s.taken a x.event

/-
  A turn of the loop leaves the timers that do not fire as they
  were before the loop.
-/
structure Turned (s t : Engine K) : Prop where
  waiting :
    ∀ name a, t.running = true → t.find name = some a →
      a.firing = false → s.find name = some a
  consumed :
    ∃ new, t.consumed = s.consumed ++ new ∧
      ∀ x ∈ new, ∃ a, s.ConsumedOf x a

theorem Turned.consume
    {cfg : Config}
    {t t' : Engine K}
    {due : DueTimer}
    (hClock : t.clock = s.clock)
    (h : Turned s t)
    (hPopped : Popped t s.clock.now due t' a) :
    Turned s (t'.consumeLocked cfg due s.clock.now) := by
  have hOwn := hPopped.own
  have hDue := hPopped.due
  rw [hClock] at hDue
  rw [hPopped.consume]
  rcases hPopped.after with ⟨pq, rfl⟩
  split
  · rename_i hStopped
    exact ⟨fun _ _ hRun => absurd (hStopped.symm.trans hRun) nofun,
      h.consumed⟩
  rename_i hRun
  rw [Bool.not_eq_false] at hRun
  have hBefore := h.waiting a.name a hRun hOwn hPopped.ready
  rcases launch_eq cfg
      (Engine.put { t with pq := pq } { a with item := none })
      { a with item := none } due s.clock.now with
    ⟨rt, a', _, event, _, _, _, _, _, _, _, hSame, hEq⟩
  have hName : a'.name = a.name := hSame.name
  rw [hEq]
  constructor
  · intro name b _ hb hWaiting
    have hPut :
        ((Engine.put { t with pq := pq } { a with item := none }).put
          a').find name = some b := hb
    by_cases hOther : name = a'.name
    · -- the timer that was popped fires now
      subst hOther
      rw [find_put_self (b := { a with item := none })] at hPut
      · cases hPut
        rw [hSame.firing] at hWaiting
        cases hWaiting
      · rw [hName]
        exact find_put_self (b := a) hOwn
    · have hNe : name ≠ a.name := hName ▸ hOther
      rw [find_put_ne hOther, find_put_ne (a := { a with item := none })
        hNe] at hPut
      exact h.waiting name b hRun hPut hWaiting
  · rcases h.consumed with ⟨new, hNew, hAll⟩
    refine ⟨new ++ [s.taken a event], ?_, ?_⟩
    · change t.consumed ++ [t.taken a event] = _
      rw [hNew, List.append_assoc]
      unfold taken
      rw [hClock]
    · intro x hx
      rcases List.mem_append.mp hx with hOld | hLast
      · exact hAll x hOld
      · rw [List.mem_singleton.mp hLast]
        exact ⟨a, hBefore, hPopped.ready, hDue, rfl⟩

theorem turned_fireDue
    (hInstalled : s.Installed)
    (cfg : Config) :
    Turned s (s.fireDueLocked cfg) := by
  refine (fireDue_rule (P := Turned s) cfg
    (fun _ _ _ _ hClock ht _ hPopped _ => ht.consume hClock hPopped)
    hInstalled ⟨fun _ _ _ hFind _ => hFind, [], ?_, nofun⟩).1
  simp

/-
  In every run a deadline is consumed only for a cause: at that
  moment a retry or a relative trigger is due on its own clock,
  or an accepted deadline of the wall clock has come.  So for
  a timer with relative triggers alone a jump of the wall clock
  does not change whether it is due.
-/
theorem fires_caused
    {cfg : Config}
    {s₀ : Engine K}
    (hInit : s₀.Initial)
    {ls : List (Label K)}
    (hRun : (timing K cfg).run s₀ ls = some s)
    {l : Label K}
    (hStep : s.step cfg l = some s') :
    (∃ new, s'.consumed = s.consumed ++ new ∧
        ∀ x ∈ new, ∃ a, s.ConsumedOf x a ∧
          Caused (readings s₀ ls) s.clock a) ∧
      ∀ name a, s.find name = some a → ¬ wallSensitive a.spec →
        ∀ c : Reading, c.sinceBoot = s.clock.sinceBoot →
          c.sinceStart = s.clock.sinceStart →
          (ItemDue c c.now a ↔ ItemDue s.clock s.clock.now a) := by
  have hInstalled := Installed.of_reachable
    (Lib.System.reachable_of_run ls hInit hRun)
  have hPlanned := Planned.of_run hInit hRun
  constructor
  · rcases step_consumed hInstalled hStep with hSame | ⟨clockGen, hEq⟩
    · exact ⟨[], by simp [hSame], nofun⟩
    · rcases (turned_fireDue (s := { s with clockGen := clockGen })
          { hInstalled with } cfg).consumed with ⟨new, hNew, hAll⟩
      refine ⟨new, hEq.trans hNew, fun x hx => ?_⟩
      rcases hAll x hx with ⟨a, hOf⟩
      exact ⟨a, hOf, hPlanned.caused hOf.1 hOf.2.2.1⟩
  · intro name a hFind hRelative c hBoot hStart
    exact hPlanned.itemDue_iff hFind hRelative hBoot hStart

end Engine

section Runs

local instance causeCalendar : Calendar Nat := periodic

/- The wall clock jumps ahead while the other clocks stand. -/
def jumped (wall : Nat) (n : Nat) : Reading where
  now := .ofWall (wall + 1)
  sinceBoot := n
  sinceStart := n
  nonzero := instant_ne_zero wall

/- On a calendar, and after the start of this instance. -/
def calendarOrStart : Spec Nat where
  name := "a.timer"
  unit := "a.service"
  onBootSec := 0
  onStartupSec := 500
  onUnitActiveSec := 0
  onCalendar := [60]
  persistent := false
  onBootSecSet := false
  onStartupSecSet := true
  onUnitActiveSecSet := false

/- The timer is armed and planned, and the wall clock jumps. -/
def jumpedAhead : List (Label Nat) :=
  [.arm calendarOrStart, .plan, .plan, .plan, .plan,
    .clock (jumped 1000 99)]

theorem fires_caused_jumpedAhead :
    ∃ s s', (timing Nat volatile).run (.fresh (instant 99))
        jumpedAhead = some s ∧
      s.step volatile .fireDue = some s' ∧
      s'.consumed.map (fun x => (x.event.name, x.startup)) =
        [("a.timer", false)] ∧
      ((∃ new, s'.consumed = s.consumed ++ new ∧
          ∀ x ∈ new, ∃ a, s.ConsumedOf x a ∧
            Caused (Engine.readings (.fresh (instant 99)) jumpedAhead)
              s.clock a) ∧
        ∀ name a, s.find name = some a →
          ¬ Engine.wallSensitive a.spec →
          ∀ c : Reading, c.sinceBoot = s.clock.sinceBoot →
            c.sinceStart = s.clock.sinceStart →
            (Engine.ItemDue c c.now a ↔
              Engine.ItemDue s.clock s.clock.now a)) := by
  have hRun :
      ((timing Nat volatile).run (.fresh (instant 99))
            jumpedAhead).map
          (fun s =>
            (s.step volatile .fireDue).map
              (fun s' =>
                s'.consumed.map
                  (fun x => (x.event.name, x.startup)))) =
        some (some [("a.timer", false)]) := by
    decide +kernel
  rcases Option.map_eq_some_iff.mp hRun with ⟨s, hs, hEq⟩
  rcases Option.map_eq_some_iff.mp hEq with ⟨s', hStep, hFired⟩
  exact ⟨s, s', hs, hStep, hFired,
    Engine.fires_caused (Engine.initial_fresh _) hs hStep⟩

/- An hour after the unit was active. -/
def hourAfter : Spec Nat :=
  { calendarOrStart with
    onUnitActiveSec := 3600000000000
    onCalendar := []
    onStartupSecSet := false
    onUnitActiveSecSet := true }

/-
  The unit is active at midnight.  Half an hour later the wall
  clock is set back by two hours, and half an hour passes.
-/
def hourPassed : List (Label Nat) :=
  [.arm hourAfter, .unitActive "a.service" 0 ["a.timer"],
    .clockChanged
      (clocks 63906186600000000000 1800000000000 (by decide))
      ["a.timer"],
    .clock (clocks 63906188400000000000 3600000000000 (by decide))]

/- The timer fires at eleven though it is due at one. -/
theorem fires_before_wall :
    ∃ s s' a, (timing Nat volatile).Reachable s ∧
      s.step volatile .fireDue = some s' ∧
      s.find "a.timer" = some a ∧ a.retry = none ∧
      ¬ BootPending a.spec a.rt s.clock ∧
      ¬ StartupPending a.spec a.rt s.clock ∧
      s'.consumed.map (fun x => x.ref) = [a.ref] ∧
      s.clock.now.wall + 7200000000000 = a.wallNext.wall := by
  have hRun :
      ((timing Nat volatile).run
            (.fresh (clocks 63906192000000000000 0 (by decide)))
            hourPassed).map
          (fun s =>
            ((s.step volatile .fireDue).map
              (fun s' => s'.consumed.map (fun x => x.ref)),
              (s.find "a.timer").map
                (fun a =>
                  decide
                    (a.ref = 0 ∧ a.retry = none ∧
                      ¬ BootPending a.spec a.rt s.clock ∧
                      ¬ StartupPending a.spec a.rt s.clock ∧
                      s.clock.now.wall + 7200000000000 =
                        a.wallNext.wall)))) =
        some (some [0], some true) := by
    decide +kernel
  rcases Option.map_eq_some_iff.mp hRun with ⟨s, hs, hEq⟩
  simp only [Prod.mk.injEq, Option.map_eq_some_iff,
    decide_eq_true_eq] at hEq
  rcases hEq with
    ⟨⟨s', hStep, hFired⟩, a, hFind, hRef, hRetry, hBoot, hStartup,
      hWall⟩
  exact ⟨s, s', a,
    Lib.System.reachable_of_run hourPassed (Engine.initial_fresh _) hs,
    hStep, hFind, hRetry, hBoot, hStartup, hRef ▸ hFired, hWall⟩

end Runs

end Timers

end Winunitd
