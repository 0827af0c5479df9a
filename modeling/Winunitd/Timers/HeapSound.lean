import Mathlib.Data.String.Basic
import Winunitd.Lib.HeapOrder
import Winunitd.Timers.DueKept

/-
  The heap of the timer engine over whole runs.

  Every entry is the item of the armed timer of its name, with
  that timer's generation and its own position; no timer has two
  entries; and there are no more entries than armed timers, of
  which there are at most 1024.  So the search for stale entries
  finds none, and a plan that is out of date is dropped by the
  planner.  No entry is before its parent as long as the times
  of all deadlines are in one order, as they are while the wall
  clock keeps step with the clock that is never set.

  Key definitions include:
    * `Engine.Consistent`
    * `Engine.Arranged`
    * `Engine.Unset`, `Engine.Timed`
    * `Engine.HeapSound`

  Key theorems include:
    * `Engine.consistent_of_inStep`
    * `Engine.Arranged.step`
    * `Engine.Timed.step`
    * `Engine.consistent_of_unset`
    * `Engine.heap_sound`
-/

------------------------------------------------------------
-- The Order Of Deadlines
------------------------------------------------------------

namespace Winunitd

namespace Timers

variable {K : Type}

namespace Engine

variable {s : Engine K}
variable {items : Nat → PqItem}

/-
  The comparisons of all deadlines that have been installed so
  far are those of an order.
-/
def Consistent (s : Engine K) : Prop :=
  Lib.Heap.StrictWeak (less s.items) (List.range s.nextItem)

/- Deadlines come by time, and by name at the same time. -/
theorem less_eq_false_iff
    {offset : Int}
    {i j : Nat}
    (hi : (items i).when.InStep offset)
    (hj : (items j).when.InStep offset) :
    less items i j = false ↔
      (items j).when.wall < (items i).when.wall ∨
        (items i).when.wall = (items j).when.wall ∧
          (items j).name ≤ (items i).name := by
  unfold less
  split
  · rename_i hSame
    rw [Lib.Instant.same_iff_wall hi hj] at hSame
    rw [decide_eq_false_iff_not, not_lt]
    constructor
    · exact fun h => Or.inr ⟨hSame, h⟩
    · rintro (hLess | ⟨_, hName⟩)
      · omega
      · exact hName
  · rename_i hOther
    rw [Lib.Instant.same_iff_wall hi hj] at hOther
    rw [decide_eq_false_iff_not, Lib.Instant.lt_iff_wall hi hj]
    constructor
    · exact fun h => Or.inl (by omega)
    · rintro (hLess | ⟨hEq, _⟩)
      · omega
      · exact absurd hEq hOther

/- Readings in step with the wall clock give an order. -/
theorem consistent_of_inStep
    {offset : Int}
    (h : ∀ it < s.nextItem, (s.items it).when.InStep offset) :
    s.Consistent where
  asymm i hi j hj hLess := by
    have hi' := h i (List.mem_range.mp hi)
    have hj' := h j (List.mem_range.mp hj)
    by_contra hNot
    have hOne := mt (less_eq_false_iff hi' hj').mpr (by simp [hLess])
    have hTwo := mt (less_eq_false_iff hj' hi').mpr hNot
    rw [not_or, not_and, not_le] at hOne hTwo
    have hWall :
        (s.items i).when.wall = (s.items j).when.wall := by
      omega
    exact lt_asymm (hOne.2 hWall) (hTwo.2 hWall.symm)
  trans i hi j hj k hk hij hjk := by
    have hi' := h i (List.mem_range.mp hi)
    have hj' := h j (List.mem_range.mp hj)
    have hk' := h k (List.mem_range.mp hk)
    rw [less_eq_false_iff hi' hj'] at hij
    rw [less_eq_false_iff hj' hk'] at hjk
    rw [less_eq_false_iff hi' hk']
    rcases hij with hij | ⟨hij, hName⟩
    · exact Or.inl (by omega)
    · rcases hjk with hjk | ⟨hjk, hName'⟩
      · exact Or.inl (by omega)
      · exact Or.inr ⟨hij.trans hjk, hName'.trans hName⟩

section

variable (hFresh : ∀ it ∈ s.pq.arr, it < s.nextItem)

include hFresh

theorem Consistent.heap
    (h : s.Consistent) :
    Lib.Heap.StrictWeak (less s.items) s.pq.arr :=
  h.sub (fun it hIt => List.mem_range.mpr (hFresh it hIt))

theorem ordered_dequeued
    (hOrder : s.Consistent)
    (h : s.pq.Ordered (less s.items))
    (a : Armed K) :
    (s.dequeued a).Ordered (less s.items) := by
  unfold dequeued
  split
  · exact h
  · dsimp only
    split
    · rename_i hPos
      exact h.remove (hOrder.heap hFresh)
        (Lib.Heap.lt_of_getElem hPos.2)
    · exact h

omit hFresh in
theorem less_enqueue
    (a : Armed K)
    (when : Time)
    (gen : Nat)
    {i j : Nat}
    (hi : i < s.nextItem)
    (hj : j < s.nextItem) :
    less (s.enqueue a when gen).1.items i j = less s.items i j := by
  have hOld :
      ∀ it < s.nextItem,
        (s.enqueue a when gen).1.items it = s.items it :=
    fun it hIt => Function.update_of_ne (Nat.ne_of_lt hIt) _ _
  simp only [less, hOld i hi, hOld j hj]

omit hFresh in
/- What was installed before compares as before. -/
theorem Consistent.of_enqueue
    {a : Armed K}
    {when : Time}
    {gen : Nat}
    (h : (s.enqueue a when gen).1.Consistent) :
    s.Consistent := by
  refine h.congr (List.range_subset.mpr (Nat.le_succ _)) ?_
  intro i hi j hj
  rw [List.mem_range] at hi hj
  exact (less_enqueue a when gen hi hj).symm

/- The new item is not in the heap yet. -/
theorem ordered_enqueue
    {a : Armed K}
    {when : Time}
    {gen : Nat}
    (h : s.pq.Ordered (less s.items))
    (hOrder : (s.enqueue a when gen).1.Consistent) :
    (s.enqueue a when gen).1.pq.Ordered
      (less (s.enqueue a when gen).1.items) := by
  refine Lib.Heap.Ordered.push (hOrder.sub ?_) (h.congr ?_)
  · intro it hIt
    refine List.mem_range.mpr ?_
    change it < s.nextItem + 1
    rcases List.mem_append.mp hIt with hOld | hNew
    · exact Nat.lt_succ_of_lt (hFresh it hOld)
    · rw [List.mem_singleton.mp hNew]
      exact Nat.lt_succ_self _
  · intro i hi j hj
    exact less_enqueue a when gen (hFresh i hi) (hFresh j hj)

end

------------------------------------------------------------
-- Arrangement
------------------------------------------------------------

/-
  The heap is in the order of its deadlines, if there is one,
  and the arm budget is kept.
-/
structure Arranged (s : Engine K) : Prop where
  ordered : s.Consistent → s.pq.Ordered (less s.items)
  bound : s.armed.length ≤ maxArmedTimers

theorem length_put
    (a : Armed K) :
    (s.put a).armed.length = s.armed.length := by
  unfold put Lib.Keyed.modify
  exact List.length_map _

theorem length_reschedule
    [Calendar K]
    (s : Engine K)
    (a : Armed K) :
    (s.rescheduleLocked a).armed.length = s.armed.length := by
  rcases rescheduleLocked_eq s a with ⟨a', _, _, _, _, _, _, hEq⟩
  rw [hEq]
  exact length_put a'

/- A new timer is armed within the budget only. -/
theorem arm_bound
    [Calendar K]
    (h : s.armed.length ≤ maxArmedTimers)
    (cfg : Config)
    (spec : Spec K) :
    (s.arm cfg spec).armed.length ≤ maxArmedTimers := by
  unfold arm
  split
  · exact h
  split
  · rename_i a _
    rcases enrol_eq s s.nextRef s.armed (NeedsLoad a) with
      ⟨loader, _, hEnrol⟩
    rw [hEnrol, length_reschedule]
    exact h
  split
  · exact h
  · rename_i hRoom
    rcases enrol_eq s (s.nextRef + 1)
        (s.armed ++ [newArm cfg s spec]) (cfg.stored = true) with
      ⟨loader, _, hEnrol⟩
    rw [hEnrol, length_reschedule]
    simp only [List.length_append, List.length_singleton]
    omega

namespace Arranged

theorem put
    (h : s.Arranged)
    (a : Armed K) :
    (s.put a).Arranged where
  ordered := h.ordered
  bound := by
    rw [length_put]
    exact h.bound

theorem reschedule
    [Calendar K]
    {a b : Armed K}
    (h : s.Arranged)
    (hInstalled : s.Installed)
    (hFind : s.find a.name = some b)
    (hItem : a.item = b.item) :
    (s.rescheduleLocked a).Arranged := by
  have hOrdered : s.Consistent →
      (s.dequeued a).Ordered (less s.items) := fun hOrder =>
    ordered_dequeued hInstalled.queue.fresh hOrder (h.ordered hOrder) a
  have hFresh := (hInstalled.dequeue hFind hItem).queue.fresh
  refine ⟨?_, ?_⟩
  · unfold rescheduleLocked
    rcases reschedule_cases s a with
      ⟨a', p, _, _, _, _, ⟨_, hEq⟩ | ⟨_, _, _, when, _, hEq⟩⟩
    · rw [hEq]
      exact hOrdered
    · rw [hEq]
      intro hOrder
      exact ordered_enqueue
        (s :=
          { s with pq := s.dequeued a, nextGen := s.nextGen + 1 })
        hFresh (hOrdered (Consistent.of_enqueue hOrder)) hOrder
  · rw [length_reschedule]
    exact h.bound

theorem disarm
    (h : s.Arranged)
    (hInstalled : s.Installed)
    (name : String) :
    (s.disarm name).Arranged := by
  unfold Engine.disarm
  split
  · exact h
  · rename_i a _
    refine ⟨fun hOrder => ?_, ?_⟩
    · exact ordered_dequeued hInstalled.queue.fresh hOrder
        (h.ordered hOrder) a
    · exact (List.length_filter_le _ _).trans h.bound

variable {cfg : Config}
variable {due : DueTimer}

theorem launch
    [Calendar K]
    {actual : Time}
    {a : Armed K}
    (h : s.Arranged)
    (hInstalled : s.Installed)
    (hFind : s.find a.name = some a) :
    (s.launch cfg a due actual).Arranged := by
  rcases accept_arm (s := s) cfg a due actual with ⟨rt, hArm⟩
  unfold Engine.launch
  dsimp only
  rw [hArm]
  split
  · refine reschedule (b := a) { h with } ?_ hFind rfl
    exact { hInstalled with }
  · refine put ?_ _
    exact { h with }

variable {s' : Engine K}

theorem popDue
    {now : Time}
    (h : s.Arranged)
    (hInstalled : s.Installed)
    (hPop : s.popDueLocked now = some (due, s')) :
    s'.Arranged := by
  unfold popDueLocked at hPop
  rw [hInstalled.dropStale] at hPop
  dsimp only at hPop
  split at hPop
  · cases hPop
  rename_i best hBest
  rcases bestReady_spec hBest with ⟨it, hIt, _⟩
  have hOrdered : s.Consistent → _ := fun hOrder =>
    (h.ordered hOrder).remove (hOrder.heap hInstalled.queue.fresh)
      (Lib.Heap.lt_of_getElem hIt)
  split at hPop
  · cases hPop
  split at hPop
  · cases hPop
  rename_i a _
  split at hPop
  · cases hPop
    refine put ?_ _
    exact ⟨hOrdered, h.bound⟩
  · cases hPop
    exact ⟨hOrdered, h.bound⟩

theorem consume
    [Calendar K]
    {now : Time}
    {a : Armed K}
    (hPopped : Popped s now due s' a)
    (hInstalled : s'.Installed)
    (h : s'.Arranged) :
    (s'.consumeLocked cfg due now).Arranged :=
  hPopped.consume_rule h (fun _ hFound => h.launch hInstalled hFound)

section

variable (h : s.Arranged)
variable (hInstalled : s.Installed)

include h hInstalled

theorem fireDue
    [Calendar K]
    (cfg : Config) :
    (s.fireDueLocked cfg).Arranged := by
  refine (fireDueAux_rule (P := Arranged) cfg ?_ _ hInstalled h).1
  intro t due t' a _ ht hInstalled hPop hPopped hInstalled'
  exact consume hPopped hInstalled' (ht.popDue hInstalled hPop)

------------------------------------------------------------
-- Steps
------------------------------------------------------------

theorem arm
    [Calendar K]
    (cfg : Config)
    (spec : Spec K) :
    (s.arm cfg spec).Arranged := by
  refine ⟨?_, arm_bound h.bound cfg spec⟩
  rcases arm_cases cfg s spec with
    hEq | ⟨loader, _, _, ⟨a, hFind, hEq⟩ | ⟨hNew, hEq⟩⟩
  · rw [hEq]
    exact h.ordered
  · rcases refreshed_eq a (s.nextArm + 1) spec with
      ⟨loading, error, hFresh⟩
    rw [hEq, hFresh]
    refine Arranged.ordered (reschedule (b := a) ?_ ?_ ?_ rfl)
    · exact { h with }
    · exact { hInstalled with }
    · exact hFind
  · -- the plan of the new timer needs no room for its entry
    have hAppend :=
      hInstalled.append (a := newArm cfg s spec) hNew rfl rfl
    rw [hEq]
    unfold rescheduleLocked
    rcases reschedule_cases
        { s with
          nextArm := s.nextArm + 1
          nextRef := s.nextRef + 1
          armed := s.armed ++ [newArm cfg s spec]
          loader := loader }
        (newArm cfg s spec) with
      ⟨a', p, _, _, _, _, ⟨_, hPlan⟩ | ⟨_, _, _, when, _, hPlan⟩⟩
    · rw [hPlan]
      exact h.ordered
    · rw [hPlan]
      intro hOrder
      exact ordered_enqueue
        (s :=
          { s with
            nextArm := s.nextArm + 1
            nextRef := s.nextRef + 1
            armed := s.armed ++ [newArm cfg s spec]
            loader := loader
            nextGen := s.nextGen + 1 })
        hAppend.queue.fresh
        (h.ordered (Consistent.of_enqueue hOrder)) hOrder

theorem planPublish
    (name : String)
    (ref gen clockGen : Nat)
    (found : Deadline) :
    (s.planPublish name ref gen clockGen found).Arranged := by
  rcases planPublish_cases s name ref gen clockGen found with
    hEq | ⟨a, hFind, _, _, _, _, _, hEq | ⟨when, _, hEq⟩⟩
  · rw [hEq]
    exact { h with }
  · rw [hEq]
    refine put ?_ _
    exact { h with }
  · rw [← name_of_find hFind] at hFind
    rw [hEq]
    refine put ?_ _
    refine ⟨fun hOrder => ?_, h.bound⟩
    have hBefore : s.Consistent := Consistent.of_enqueue hOrder
    exact ordered_enqueue
      (s := { s with pq := s.dequeued a, planner := some .pick })
      (hInstalled.dequeue hFind rfl).queue.fresh
      (ordered_dequeued hInstalled.queue.fresh hBefore
        (h.ordered hBefore) a) hOrder

theorem step
    [Calendar K]
    {l : Label K}
    (hStep : s.step cfg l = some s') :
    s'.Arranged := by
  have hWorks : Reworks cfg Installed s l s' := hInstalled.reworks
  refine (Reworks.step (P := fun t => t.Installed ∧ t.Arranged) ?_
    hInstalled.dropStale ⟨hInstalled, h⟩ hStep).2
  exact
    { set := fun t c n ht hShown =>
        ⟨hWorks.set t c n ht.1 hShown, ht.2.ordered, ht.2.bound⟩
      stop := ⟨hWorks.stop, h.ordered, h.bound⟩
      rest := fun t _ _ _ _ _ _ _ ht =>
        ⟨hWorks.rest t ht.1, ht.2.ordered, ht.2.bound⟩
      arm := fun spec hl =>
        ⟨hWorks.arm spec hl, h.arm hInstalled cfg spec⟩
      disarm := fun t name ht hEnds =>
        ⟨hWorks.disarm t name ht.1 hEnds, ht.2.disarm ht.1 name⟩
      put := fun t a b ht hFind hEdits hPlan hSame =>
        ⟨hWorks.put t a b ht.1 hFind hEdits hPlan hSame, ht.2.put a⟩
      reschedule := fun t a b ht hFind hEdits =>
        ⟨hWorks.reschedule t a b ht.1 hFind hEdits,
          ht.2.reschedule ht.1 hFind hEdits.item⟩
      fireDue := fun clockGen ht =>
        ⟨hWorks.fireDue clockGen ht.1, ht.2.fireDue ht.1 cfg⟩
      plan := fun hPlan => by
        refine ⟨hWorks.plan hPlan, ?_⟩
        cases planStep_move hPlan with
        | pick => exact { h with }
        | publish name ref gen clockGen found =>
            exact h.planPublish hInstalled name ref gen clockGen found }

end

theorem of_reachable
    [Calendar K]
    (h : (timing K cfg).Reachable s) :
    s.Arranged := by
  refine Lib.System.reachable_invariant (I := Arranged) ?_ ?_ h
  · rintro t ⟨clock, disk, _, rfl⟩
    refine ⟨?_, Nat.zero_le _⟩
    intro _ k _ hk
    simp [start] at hk
  · intro t l t' ht hArranged hStep
    exact Arranged.step (s := t) hArranged (Installed.of_reachable ht)
      hStep

end Arranged

------------------------------------------------------------
-- Clocks In Step
------------------------------------------------------------

section

variable {offset : Int}
variable {now : Time}

theorem consider_inStep
    {d : Deadline}
    {t : Time}
    (hNow : now.InStep offset)
    (hd : ∀ u ∈ d.next, u.InStep offset)
    (ht : t.InStep offset)
    (wallBased : Bool) :
    ∀ u ∈ (d.consider now t wallBased).next, u.InStep offset := by
  have hClamped : (clamped now t).InStep offset := by
    unfold clamped
    split
    · exact hNow
    · exact ht
  unfold Deadline.consider
  split
  · exact hd
  · dsimp only
    split
    · rintro u ⟨⟩
      exact hClamped
    · rename_i earliest hEarliest
      rintro u ⟨⟩
      split
      · exact hClamped
      · exact hd earliest hEarliest

/- A deadline is in step if what it is reckoned from is. -/
theorem nextDeadline_inStep
    [Calendar K]
    {spec : Spec K}
    {rt : Runtime}
    {c : Reading}
    (hNow : c.now.InStep offset)
    (hActive : rt.lastUnitActive.InStep offset) :
    ∀ t ∈ (nextDeadline spec rt c).next, t.InStep offset := by
  have hBoot : (bootDue spec c c.now).InStep offset := by
    unfold bootDue
    split
    · exact hNow
    · exact hNow.add _
  have hStartup : (startupDue spec c c.now).InStep offset := by
    unfold startupDue
    split
    · exact hNow
    · exact hNow.add _
  -- a trigger that is set is taken into account
  have hTrigger :
      ∀ (P : Prop) [Decidable P] (d : Deadline) t wallBased,
        (∀ u ∈ d.next, u.InStep offset) → t.InStep offset →
        ∀ u ∈ (if P then d.consider c.now t wallBased else d).next,
          u.InStep offset := by
    intro P _ d t wallBased hd ht
    split
    · exact consider_inStep hNow hd ht wallBased
    · exact hd
  unfold nextDeadline
  refine List.foldlRecOn
    (motive := fun d : Deadline => ∀ t ∈ d.next, t.InStep offset)
    _ _ ?_ ?_
  · have hNone :
        ∀ u ∈ (⟨none, 0⟩ : Deadline).next, u.InStep offset := by
      rintro u ⟨⟩
    split
    · refine hTrigger _ _ _ true ?_ (hActive.add _)
      refine hTrigger _ _ _ false ?_ hStartup
      exact hTrigger _ _ _ false hNone hBoot
    · refine hTrigger _ _ _ false ?_ hStartup
      exact hTrigger _ _ _ false hNone hBoot
  · intro d hd cal _
    split
    · rename_i t hCatchup
      split at hCatchup
      · rw [persistentCatchup_eq hCatchup]
        exact consider_inStep hNow hd hNow true
      · cases hCatchup
    · exact consider_inStep hNow hd (Lib.Instant.inStep_ofWall _ _) true

/- The times that a step brings are in step. -/
def TimesInStep (offset : Int) : Label K → Prop
| .clock c => c.now.InStep offset
| .clockChanged c _ => c.now.InStep offset
| .unitActive _ when _ => when.InStep offset
| _ => True

instance (offset : Int) :
    ∀ l : Label K, Decidable (TimesInStep offset l)
| .clock c => inferInstanceAs (Decidable (c.now.InStep offset))
| .clockChanged c _ => inferInstanceAs (Decidable (c.now.InStep offset))
| .unitActive _ when _ =>
    inferInstanceAs (Decidable (when.InStep offset))
| .arm _ | .disarm _ | .retain _ _ | .fireDue | .wait | .retry _
| .recordResult _ _ | .stop | .plan | .load _ _ | .fire _ _
| .result _ _ => isTrue trivial

/- The wall clock keeps step with the clock that is never set. -/
def Unset (offset : Int) (s : Engine K) (l : Label K) : Prop :=
  s.clock.now.InStep offset ∧ TimesInStep offset l

instance (offset : Int) (s : Engine K) (l : Label K) :
    Decidable (s.Unset offset l) :=
  inferInstanceAs (Decidable (_ ∧ _))

/- What the planner reckons from or has found is in step. -/
def PlanInStep (offset : Int) : Option (PlanPhase K) → Prop
| some (.search _ _ _ _ _ rt) => rt.lastUnitActive.InStep offset
| some (.publish _ _ _ _ found) => ∀ t ∈ found.next, t.InStep offset
| _ => True

/- Every deadline, and what deadlines are reckoned from. -/
structure Timed (offset : Int) (s : Engine K) : Prop where
  clock : s.clock.now.InStep offset
  arms :
    ∀ name a, s.find name = some a →
      a.rt.lastUnitActive.InStep offset
  items : ∀ it < s.nextItem, (s.items it).when.InStep offset
  planner : PlanInStep offset s.planner

namespace Timed

variable {a b : Armed K}

theorem put
    (h : s.Timed offset)
    (hFind : s.find a.name = some b)
    (ha : a.rt.lastUnitActive.InStep offset) :
    (s.put a).Timed offset :=
  { h with arms := forall_put h.arms hFind ha }

theorem enqueue
    {when : Time}
    (h : s.Timed offset)
    (hWhen : when.InStep offset)
    (a : Armed K)
    (gen : Nat) :
    (s.enqueue a when gen).1.Timed offset := by
  refine { h with items := ?_ }
  intro it hIt
  change ((Function.update s.items s.nextItem _) it).when.InStep offset
  by_cases hNew : it = s.nextItem
  · rw [hNew, Function.update_self]
    exact hWhen
  · rw [Function.update_of_ne hNew]
    have hOld : it < s.nextItem + 1 := hIt
    exact h.items it (by omega)

theorem disarm
    (h : s.Timed offset)
    (name : String) :
    (s.disarm name).Timed offset := by
  have hArms :
      ∀ other c, (s.disarm name).find other = some c →
        c.rt.lastUnitActive.InStep offset :=
    fun other c hc => h.arms other c (find_disarm hc).1
  unfold Engine.disarm at hArms ⊢
  split at hArms
  · exact h
  · exact { h with arms := hArms }

variable [Calendar K]

/- The timer that is planned may be a new one. -/
theorem reschedule
    (h : s.Timed offset)
    (hFind : s.find a.name = some b)
    (ha : a.rt.lastUnitActive.InStep offset) :
    (s.rescheduleLocked a).Timed offset := by
  have hArms :=
    forall_reschedule
      (Q := fun _ c => c.rt.lastUnitActive.InStep offset)
      (fun _ c c' hSame hc => by rw [hSame.rt]; exact hc)
      h.arms hFind ha
  unfold rescheduleLocked at hArms ⊢
  rcases reschedule_cases s a with
    ⟨a', p, _, _, _, _, ⟨hPlanner, hEq⟩ | ⟨_, _, _, when, hWhen, hEq⟩⟩
  · rw [hEq] at hArms ⊢
    refine ⟨h.clock, hArms, h.items, ?_⟩
    rcases hPlanner with rfl | rfl
    · exact h.planner
    · trivial
  · rw [hEq] at hArms ⊢
    have hTime : when.InStep offset := by
      rcases hWhen with ⟨d, rfl⟩ | hNext
      · exact h.clock.add d
      · exact nextDeadline_inStep h.clock ha when hNext
    have hDequeued :
        Timed offset
          { s with pq := s.dequeued a, nextGen := s.nextGen + 1 } :=
      { h with }
    exact ⟨h.clock, hArms, (hDequeued.enqueue hTime a' a'.gen).items,
      h.planner⟩

theorem arm
    (h : s.Timed offset)
    (cfg : Config)
    (spec : Spec K) :
    (s.arm cfg spec).Timed offset := by
  refine arm_rule h (fun t a b hNew => ?_)
  have ha : a.rt.lastUnitActive.InStep offset := by
    rcases hNew.origin with ⟨hFind, hEq⟩ | ⟨_, hEq, _⟩
    · rcases refreshed_eq b (s.nextArm + 1) spec with ⟨_, _, hFresh⟩
      rw [hEq, hFresh]
      exact h.arms _ b hFind
    · rw [hEq]
      exact Lib.Instant.inStep_ofWall _ _
  have hArms :=
    hNew.forall_find
      (Q := fun _ c => c.rt.lastUnitActive.InStep offset) h.arms ha
  have hFind := hNew.find
  rcases hNew.state with ⟨_, _, _, _, rfl⟩
  exact reschedule { h with arms := hArms } hFind ha

variable {cfg : Config}
variable {due : DueTimer}
variable {s' : Engine K}

theorem launch
    {actual : Time}
    (h : s.Timed offset)
    (hFind : s.find a.name = some a) :
    (s.launch cfg a due actual).Timed offset := by
  have ha := h.arms _ a hFind
  rw [← accept_active (s := s) cfg a due actual] at ha
  rcases accept_arm (s := s) cfg a due actual with ⟨rt, hArm⟩
  rw [hArm] at ha
  unfold Engine.launch
  dsimp only
  rw [hArm]
  split
  · refine reschedule (b := a) ?_ hFind ha
    exact { h with }
  · refine put (b := a) ?_ hFind ha
    exact { h with }

theorem fireDue
    (h : s.Timed offset)
    (hInstalled : s.Installed)
    (cfg : Config) :
    (s.fireDueLocked cfg).Timed offset := by
  refine (fireDue_rule (P := Timed offset) cfg ?_ hInstalled h).1
  intro t due t' a _ ht _ hPopped _
  have ht' : t'.Timed offset := by
    have hFind := hPopped.own
    rcases hPopped.after with ⟨pq, rfl⟩
    refine put (b := a) ?_ hFind (ht.arms _ a hFind)
    exact { ht with }
  exact hPopped.consume_rule ht' (fun _ hFound => ht'.launch hFound)

theorem planStep
    (h : s.Timed offset)
    (hStep : s.planStep = some s') :
    s'.Timed offset := by
  unfold Engine.planStep at hStep
  split at hStep
  · cases hStep
  · dsimp only at hStep
    split at hStep
    · cases hStep
      exact { h with planner := trivial }
    · rename_i a hNext
      cases hStep
      rcases Option.bind_eq_some_iff.mp hNext with ⟨name, _, hFind⟩
      exact { h with planner := h.arms name a hFind }
  · rename_i name ref gen clockGen spec rt hPlanner
    cases hStep
    have hPlan := h.planner
    rw [hPlanner] at hPlan
    exact { h with planner := nextDeadline_inStep h.clock hPlan }
  · rename_i name ref gen clockGen found hPlanner
    cases hStep
    have hPlan := h.planner
    rw [hPlanner] at hPlan
    rcases planPublish_cases s name ref gen clockGen found with
      hEq | ⟨a, hFind, _, _, _, _, _, hEq | ⟨when, hWhen, hEq⟩⟩
    · rw [hEq]
      exact { h with planner := trivial }
    · rw [← name_of_find hFind] at hFind
      rw [hEq]
      refine put (b := a) ?_ hFind (h.arms _ a hFind)
      exact { h with planner := trivial }
    · rw [← name_of_find hFind] at hFind
      rw [hEq]
      refine put (b := a) (enqueue ?_ (hPlan when hWhen) _ gen) hFind
        (h.arms _ a hFind)
      exact { h with planner := trivial }

theorem step
    {l : Label K}
    (h : s.Timed offset)
    (hInstalled : s.Installed)
    (hUnset : TimesInStep offset l)
    (hStep : s.step cfg l = some s') :
    s'.Timed offset := by
  have hActive :
      ∀ (t : Engine K) a b, t.Timed offset →
        t.find a.name = some b → Edits s l b a →
        a.rt.lastUnitActive.InStep offset := by
    intro t a b ht hFind hEdits
    rcases hEdits.active with hSame | ⟨unit, when, order, rfl, hEq⟩
    · rw [hSame]
      exact ht.arms _ b hFind
    · rw [hEq]
      split
      · exact h.clock
      · exact hUnset
  refine Reworks.step ?_ hInstalled.dropStale h hStep
  exact
    { set := fun t c n ht hShown => by
        refine { ht with clock := ?_ }
        rcases hShown with rfl | rfl | ⟨order, rfl⟩
        · exact h.clock
        · exact hUnset
        · exact hUnset
      stop := { h with }
      rest := fun _ _ _ _ _ _ _ _ ht => { ht with }
      arm := fun spec _ => h.arm cfg spec
      disarm := fun _ name ht _ => ht.disarm name
      put := fun t a b ht hFind hEdits _ _ =>
        ht.put hFind (hActive t a b ht hFind hEdits)
      reschedule := fun t a b ht hFind hEdits =>
        ht.reschedule hFind (hActive t a b ht hFind hEdits)
      fireDue := fun clockGen ht =>
        ht.fireDue (hInstalled.ticked clockGen) cfg
      plan := h.planStep }

end Timed

/- While the clocks keep step, the deadlines have an order. -/
theorem consistent_of_unset
    [Calendar K]
    {cfg : Config}
    (h : (timing K cfg).ReachableWhere (Unset offset) s) :
    s.Consistent := by
  have hTimed : s.Initial ∨ s.Timed offset := by
    refine Lib.System.reachableWhere_invariant
      (I := fun s => s.Initial ∨ s.Timed offset)
      (fun _ hInit => Or.inl hInit) ?_ h
    intro t l t' hReach hBefore hUnset hStep
    have ht : t.Timed offset := by
      rcases hBefore with ⟨clock, disk, _, rfl⟩ | hTimed
      · refine ⟨hUnset.1, ?_, ?_, trivial⟩
        · intro name a hFind
          cases hFind
        · intro it hIt
          exact absurd hIt (Nat.not_lt_zero it)
      · exact hTimed
    exact Or.inr (ht.step (Installed.of_reachable hReach.reachable)
      hUnset.2 hStep)
  rcases hTimed with ⟨clock, disk, _, rfl⟩ | hTimed
  · have hNone :
        ∀ it < (start clock disk : Engine K).nextItem,
          ((start clock disk : Engine K).items it).when.InStep offset :=
      fun it hIt => absurd hIt (Nat.not_lt_zero it)
    exact consistent_of_inStep hNone
  · exact consistent_of_inStep hTimed.items

end

------------------------------------------------------------
-- The Heap
------------------------------------------------------------

/- The heap represents the deadlines of the armed timers. -/
structure HeapSound (s : Engine K) : Prop where
  entry :
    ∀ (i it : Nat), s.pq.arr[i]? = some it →
      s.pq.pos it = i ∧
        ∃ a, s.find (s.items it).name = some a ∧
          a.item = some it ∧ (s.items it).gen = a.gen
  single :
    ∀ (i j it jt : Nat), s.pq.arr[i]? = some it → s.pq.arr[j]? = some jt →
      (s.items it).name = (s.items jt).name → i = j
  ordered :
    s.Consistent →
      ∀ k, 0 < k → k < s.pq.arr.length →
        s.pq.lessAt (less s.items) k ((k - 1) / 2) = false
  entries : s.pq.arr.length ≤ s.armed.length
  arms : s.armed.length ≤ maxArmedTimers
  fresh : s.dropStaleLocked = s

namespace Installed

theorem entry
    (h : s.Installed)
    {i it : Nat}
    (hi : s.pq.arr[i]? = some it) :
    s.pq.pos it = i ∧
      ∃ a, s.find (s.items it).name = some a ∧
        a.item = some it ∧ (s.items it).gen = a.gen := by
  rcases h.queue.owned it (List.mem_of_getElem? hi) with
    ⟨_, a, hFind, hItem, hGen⟩
  exact ⟨h.queue.indexed i it hi, a, hFind, hItem, hGen⟩

/- Entries of one name are the same entry. -/
theorem single
    (h : s.Installed)
    {it jt : Nat}
    (hit : it ∈ s.pq.arr)
    (hjt : jt ∈ s.pq.arr)
    (hName : (s.items it).name = (s.items jt).name) :
    it = jt := by
  rcases h.queue.owned it hit with ⟨_, a, hFind, hItem, _⟩
  rcases h.queue.owned jt hjt with ⟨_, b, hFind', hItem', _⟩
  rw [hName, hFind'] at hFind
  cases hFind
  rw [hItem'] at hItem
  exact (Option.some.inj hItem).symm

/- Each entry has a name of its own among the armed ones. -/
theorem entries
    (h : s.Installed) :
    s.pq.arr.length ≤ s.armed.length := by
  have hNodup :
      (s.pq.arr.map (fun it => (s.items it).name)).Nodup :=
    List.Nodup.map_on (fun _ hi _ hj => h.single hi hj)
      h.queue.indexed.nodup
  have hSub :
      s.pq.arr.map (fun it => (s.items it).name) ⊆ s.names := by
    intro name hMem
    rcases List.mem_map.mp hMem with ⟨it, hIt, rfl⟩
    rcases h.queue.owned it hIt with ⟨_, a, hFind, _, _⟩
    rw [← name_of_find hFind]
    exact List.mem_map_of_mem (mem_of_find hFind)
  have hLength := (List.subperm_of_subset hNodup hSub).length_le
  simpa [Engine.names] using hLength

end Installed

/-
  In every run the heap represents the deadlines of the armed
  timers, in their order if they have one, as they do while the
  wall clock is not set.  Stale entries are not found before any
  turn of the loop over due timers either, and a plan is installed
  only for the arm, the generation and the clock it was made for.
-/
theorem heap_sound
    [Calendar K]
    {cfg : Config}
    (h : (timing K cfg).Reachable s) :
    s.HeapSound ∧
      (∀ offset, (timing K cfg).ReachableWhere (Unset offset) s →
        s.Consistent) ∧
      (∀ turns clockGen,
        (fireDueAux cfg s.clock.now turns
            { s with clockGen := clockGen }).dropStaleLocked =
          fireDueAux cfg s.clock.now turns
            { s with clockGen := clockGen }) ∧
      ∀ name ref gen clockGen found s',
        s.planner = some (.publish name ref gen clockGen found) →
        s.step cfg .plan = some s' →
        (∀ a, s.find name = some a → a.ref = ref → a.gen = gen →
          s.clockGen ≠ clockGen) →
        s'.pq = s.pq ∧ s'.items = s.items ∧ s'.armed = s.armed := by
  have hInstalled := Installed.of_reachable h
  have hArranged := Arranged.of_reachable h
  refine ⟨⟨?_, ?_, hArranged.ordered, hInstalled.entries,
    hArranged.bound, hInstalled.dropStale⟩,
    fun _ => consistent_of_unset, ?_, ?_⟩
  · intro i it hi
    exact hInstalled.entry hi
  · intro i j it jt hi hj hName
    have hEq := hInstalled.single (List.mem_of_getElem? hi)
      (List.mem_of_getElem? hj) hName
    subst hEq
    exact hInstalled.queue.indexed.eq_of_getElem hi hj
  · intro turns clockGen
    have hLoop :=
      fireDueAux_rule (s := { s with clockGen := clockGen })
        (P := fun _ => True) cfg (fun _ _ _ _ _ _ _ _ _ _ => trivial)
        turns { hInstalled with }
        trivial
    exact hLoop.2.dropStale
  · intro name ref gen clockGen found s' hPlanner hStep hOld
    simp only [Engine.step, planStep, hPlanner,
      Option.some.injEq] at hStep
    subst hStep
    rcases planPublish_cases s name ref gen clockGen found with
      hEq | ⟨a, hFind, _, hRef, hGen, hClock, _⟩
    · rw [hEq]
      exact ⟨rfl, rfl, rfl⟩
    · exact absurd hClock (hOld a hFind hRef hGen)

end Engine

section Runs

local instance heapCalendar : Calendar Nat := periodic

/- After the start of this instance alone. -/
def relative (name : String) (after : Int) : Spec Nat where
  name := name
  unit := "a.service"
  onBootSec := 0
  onStartupSec := after
  onUnitActiveSec := 0
  onCalendar := []
  persistent := false
  onBootSecSet := false
  onStartupSecSet := true
  onUnitActiveSecSet := false

/- Three timers are armed, the latest deadline first. -/
def threeArmed : List (Label Nat) :=
  [.arm (relative "c.timer" 300), .arm (relative "b.timer" 200),
    .arm (relative "a.timer" 100), .arm (relative "b.timer" 50)]

theorem heap_sound_threeArmed :
    ∃ s,
      (timing Nat volatile).ReachableWhere
        (Engine.Unset 63906191999999999990) s ∧
      s.pq.arr.map (fun it => (s.items it).name) =
        ["b.timer", "c.timer", "a.timer"] ∧
      (s.HeapSound ∧
        (∀ offset,
          (timing Nat volatile).ReachableWhere (Engine.Unset offset) s →
            s.Consistent) ∧
        (∀ turns clockGen,
          (Engine.fireDueAux volatile s.clock.now turns
              { s with clockGen := clockGen }).dropStaleLocked =
            Engine.fireDueAux volatile s.clock.now turns
              { s with clockGen := clockGen }) ∧
        ∀ name ref gen clockGen found s',
          s.planner = some (.publish name ref gen clockGen found) →
          s.step volatile .plan = some s' →
          (∀ a, s.find name = some a → a.ref = ref → a.gen = gen →
            s.clockGen ≠ clockGen) →
          s'.pq = s.pq ∧ s'.items = s.items ∧
            s'.armed = s.armed) := by
  have hRun :
      ((timing Nat volatile).run
            (.fresh (clocks 63906192000000000000 10 (by decide)))
            threeArmed).map
          (fun s => s.pq.arr.map (fun it => (s.items it).name)) =
        some ["b.timer", "c.timer", "a.timer"] := by
    decide +kernel
  rcases Option.map_eq_some_iff.mp hRun with ⟨s, hs, hEq⟩
  have hReach :
      (timing Nat volatile).ReachableWhere
        (Engine.Unset 63906191999999999990) s :=
    Lib.System.reachableWhere_of_run threeArmed
      (Engine.initial_fresh _) hs (by decide +kernel)
  exact ⟨s, hReach, hEq, Engine.heap_sound hReach.reachable⟩

/- Every full hour. -/
def hourly : Spec Nat :=
  { relative "r.timer" 0 with
    onCalendar := [3600000000000]
    onStartupSecSet := false }

/-
  One timer is armed for 30 minutes.  After a minute the wall
  clock is set back by an hour; then one is armed for another
  40 minutes, and one for the full hour.
-/
def setBack : List (Label Nat) :=
  [.arm (relative "p.timer" 1800000000000),
    .clockChanged
      (clocks 63906188460000000000 60000000000 (by decide))
      ["p.timer"],
    .arm (relative "q.timer" 2460000000000), .arm hourly, .plan, .plan,
    .plan]

/-
  The first one is before the second on the clock that is never
  set; on the wall clock the second is before the full hour, and
  that is before the first.
-/
theorem heap_disordered :
    ∃ s k, (timing Nat volatile).Reachable s ∧
      0 < k ∧ k < s.pq.arr.length ∧
      s.pq.lessAt (Engine.less s.items) k ((k - 1) / 2) = true := by
  have hRun :
      ((timing Nat volatile).run
            (.fresh (clocks 63906192000000000000 0 (by decide)))
            setBack).map
          (fun s =>
            (s.pq.arr.length, s.pq.lessAt (Engine.less s.items) 1 0)) =
        some (3, true) := by
    decide +kernel
  rcases Option.map_eq_some_iff.mp hRun with ⟨s, hs, hEq⟩
  simp only [Prod.mk.injEq] at hEq
  exact ⟨s, 1,
    Lib.System.reachable_of_run setBack (Engine.initial_fresh _) hs,
    by decide, by omega, hEq.2⟩

end Runs

end Timers

end Winunitd
