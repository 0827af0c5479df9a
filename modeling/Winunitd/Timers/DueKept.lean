import Winunitd.Timers.Ownership

/-
  Due deadlines are not dropped.

  A deadline that is due stays installed and due until it is
  consumed or its arm ends, in the runs whose steps meet
  `Careful`: no clock goes back behind it, and no event plans
  its timer again while it is due.  The activation of the unit
  does plan again, and so loses a due calendar occurrence.

  Key definitions include:
    * `Trigger`, `Elapsed`
    * `Engine.DueAt`
    * `Engine.Careful`
    * `Engine.Released`

  Key theorems include:
    * `Engine.DueAt.step`
    * `Engine.due_kept`
-/

------------------------------------------------------------
-- Triggers
------------------------------------------------------------

namespace Winunitd

namespace Timers

variable {K : Type}

/- What makes a deadline due. -/
inductive Trigger where
| retry (r : PendingRetry)
| boot
| startup
| wall (t : Time)
deriving DecidableEq, Repr

/- The trigger has elapsed on its own clock. -/
def Elapsed (c : Reading) (a : Armed K) : Trigger → Prop
| .retry r => a.retry = some r ∧ r.after ≤ c.sinceStart
| .boot => a.retry = none ∧ BootPending a.spec a.rt c
| .startup => a.retry = none ∧ StartupPending a.spec a.rt c
| .wall t => a.retry = none ∧ a.wallNext = t ∧ t ≠ 0 ∧ t ≤ c.now

variable {c : Reading}

theorem exists_elapsed
    {a : Armed K}
    (h : Engine.ItemDue c c.now a) :
    ∃ τ, Elapsed c a τ := by
  unfold Engine.ItemDue at h
  split at h
  · rename_i r hRetry
    exact ⟨.retry r, hRetry, h⟩
  · rename_i hRetry
    rcases h with hBoot | hStartup | hWall
    · exact ⟨.boot, hRetry, hBoot⟩
    · exact ⟨.startup, hRetry, hStartup⟩
    · exact ⟨.wall a.wallNext, hRetry, rfl, hWall⟩

theorem itemDue_of_elapsed
    {a : Armed K}
    {τ : Trigger}
    (h : Elapsed c a τ) :
    Engine.ItemDue c c.now a := by
  unfold Engine.ItemDue
  cases τ with
  | retry r =>
      rw [h.1]
      exact h.2
  | boot =>
      rw [h.1]
      exact Or.inl h.2
  | startup =>
      rw [h.1]
      exact Or.inr (Or.inl h.2)
  | wall t =>
      rcases h with ⟨hRetry, rfl, hTime⟩
      rw [hRetry]
      exact Or.inr (Or.inr hTime)

/- The timer keeps what the trigger rests on. -/
theorem Elapsed.congr
    {a a' : Armed K}
    {τ : Trigger}
    (h : Elapsed c a τ)
    (hRetry : a'.retry = a.retry)
    (hSpec : a'.spec = a.spec)
    (hBoot : a'.rt.firedBoot = a.rt.firedBoot)
    (hStartup : a'.rt.firedStartup = a.rt.firedStartup)
    (hWall : ∀ t, τ = .wall t → a'.wallNext = a.wallNext) :
    Elapsed c a' τ := by
  cases τ with
  | retry r => exact ⟨hRetry.trans h.1, h.2⟩
  | boot =>
      refine ⟨hRetry.trans h.1, ?_⟩
      unfold BootPending
      rw [hSpec, hBoot]
      exact h.2
  | startup =>
      refine ⟨hRetry.trans h.1, ?_⟩
      unfold StartupPending
      rw [hSpec, hStartup]
      exact h.2
  | wall t =>
      exact ⟨hRetry.trans h.1, (hWall t rfl).trans h.2.1, h.2.2⟩

------------------------------------------------------------
-- Due Deadlines
------------------------------------------------------------

namespace Engine

variable {s s' : Engine K}

/- The deadline of a timer that is not firing is due. -/
def Waits (s : Engine K) (a : Armed K) : Prop :=
  a.firing = false ∧ a.item.isSome = true ∧
    ItemDue s.clock s.clock.now a

instance (s : Engine K) (a : Armed K) : Decidable (s.Waits a) :=
  inferInstanceAs (Decidable (_ ∧ _))

/- The wall deadline of a timer has passed. -/
def WallDue (c : Reading) (a : Armed K) : Prop :=
  a.wallNext ≠ 0 ∧ a.wallNext ≤ c.now

instance (c : Reading) (a : Armed K) : Decidable (WallDue c a) :=
  inferInstanceAs (Decidable (_ ∧ _))

/-
  The clocks since boot and since the start go on, and the
  wall clock is not set back behind a due deadline.
-/
def Onward (s : Engine K) (c : Reading) : Prop :=
  s.clock.sinceBoot ≤ c.sinceBoot ∧
    s.clock.sinceStart ≤ c.sinceStart ∧
    ∀ a ∈ s.armed, s.Waits a → WallDue s.clock a → WallDue c a

instance (s : Engine K) (c : Reading) : Decidable (s.Onward c) :=
  inferInstanceAs (Decidable (_ ∧ _))

/-
  The step does not plan a timer again whose deadline is due,
  unless the plan has the same deadline.
-/
def Careful (s : Engine K) : Label K → Prop
| .clock c => s.Onward c
| .clockChanged c _ => s.Onward c
| .unitActive unit _ _ =>
    ∀ a ∈ s.armed, s.Waits a → a.spec.unit = unit →
      a.spec.onUnitActiveSecSet = true →
      a.retry ≠ none ∨
        a.spec.onCalendar = [] ∧ ¬ WallDue s.clock a
| .retry event =>
    ∀ a ∈ s.armed, s.Waits a → a.name = event.name →
      a.token ≠ event.token
| .result i _ =>
    ∀ w ∈ s.results[i]?, w.phase = .apply →
      ∀ a ∈ s.armed, s.Waits a → a.name = w.event.name →
        a.token = w.event.token → a.retry = none
| _ => True

instance (s : Engine K) : ∀ l, Decidable (s.Careful l)
| .clock c => inferInstanceAs (Decidable (s.Onward c))
| .clockChanged c _ => inferInstanceAs (Decidable (s.Onward c))
| .unitActive unit _ _ =>
    inferInstanceAs
      (Decidable
        (∀ a ∈ s.armed, s.Waits a → a.spec.unit = unit →
          a.spec.onUnitActiveSecSet = true →
          a.retry ≠ none ∨
            a.spec.onCalendar = [] ∧ ¬ WallDue s.clock a))
| .retry event =>
    inferInstanceAs
      (Decidable
        (∀ a ∈ s.armed, s.Waits a → a.name = event.name →
          a.token ≠ event.token))
| .result i _ =>
    inferInstanceAs
      (Decidable
        (∀ w ∈ s.results[i]?, w.phase = .apply →
          ∀ a ∈ s.armed, s.Waits a → a.name = w.event.name →
            a.token = w.event.token → a.retry = none))
| .arm _ | .disarm _ | .retain _ _ | .fireDue | .wait
| .recordResult _ _ | .stop | .plan | .load _ _ | .fire _ _ =>
    isTrue trivial

/- A deadline of an arm that is installed and due. -/
def DueAt
    (s : Engine K)
    (name : String)
    (ref token : Nat)
    (τ : Trigger) : Prop :=
  ∃ a, s.find name = some a ∧ a.ref = ref ∧ a.token = token ∧
    a.firing = false ∧ a.item ≠ none ∧ Elapsed s.clock a τ

/- A step that ends a due deadline. -/
inductive Released
    (s : Engine K)
    (l : Label K)
    (s' : Engine K)
    (name : String)
    (ref : Nat) : Prop where
| consumed (new : List Consumed) (x : Consumed) :
    s'.consumed = s.consumed ++ new → x ∈ new → x.ref = ref →
    Released s l s' name ref
| rearmed (spec : Spec K) :
    l = .arm spec → spec.name = name → Released s l s' name ref
| disarmed :
    l = .disarm name → Released s l s' name ref
| dropped (keep order : List String) :
    l = .retain keep order → name ∉ keep → Released s l s' name ref
| suspended (a : Armed K) :
    s'.find name = some a → a.ref = ref → a.storageError ≠ "" →
    Released s l s' name ref
| stopped :
    s'.running = false → Released s l s' name ref

namespace DueAt

variable {name : String}
variable {ref token : Nat}
variable {τ : Trigger}

theorem congr
    (h : s.DueAt name ref token τ)
    (hFind : s'.find name = s.find name)
    (hClock : s'.clock = s.clock) :
    s'.DueAt name ref token τ := by
  rcases h with ⟨a, ha, hArm⟩
  refine ⟨a, hFind.trans ha, ?_⟩
  rw [hClock]
  exact hArm

variable {a : Armed K}

theorem waits
    (hFiring : a.firing = false)
    (hItem : a.item ≠ none)
    (hElapsed : Elapsed s.clock a τ) :
    s.Waits a :=
  ⟨hFiring, Option.isSome_iff_ne_none.mpr hItem,
    itemDue_of_elapsed hElapsed⟩

/- Other timers' plans do not matter. -/
theorem reschedule_ne
    [Calendar K]
    (h : s.DueAt name ref token τ)
    (hNe : name ≠ a.name) :
    (s.rescheduleLocked a).DueAt name ref token τ :=
  h.congr (find_reschedule_ne hNe) (kept_reschedule s a).clock

theorem put_ne
    (h : s.DueAt name ref token τ)
    (hNe : name ≠ a.name) :
    (s.put a).DueAt name ref token τ :=
  h.congr (find_put_ne hNe) rfl

/- A clock that goes on leaves a trigger elapsed. -/
theorem onward
    (hOnward : s.Onward c)
    (hFind : s.find name = some a)
    (hFiring : a.firing = false)
    (hItem : a.item ≠ none)
    (hElapsed : Elapsed s.clock a τ) :
    Elapsed c a τ := by
  cases τ with
  | retry r => exact ⟨hElapsed.1, hElapsed.2.trans hOnward.2.1⟩
  | boot =>
      exact ⟨hElapsed.1, hElapsed.2.1, hElapsed.2.2.1,
        hElapsed.2.2.2.trans hOnward.1⟩
  | startup =>
      exact ⟨hElapsed.1, hElapsed.2.1, hElapsed.2.2.1,
        hElapsed.2.2.2.trans hOnward.2.1⟩
  | wall t =>
      have hWaits := waits hFiring hItem hElapsed
      rcases hElapsed with ⟨hRetry, rfl, hTime⟩
      exact ⟨hRetry, rfl,
        hOnward.2.2 a (mem_of_find hFind) hWaits hTime⟩

/-
  A plan that has the deadline: a retry, or an elapsed relative
  trigger where there is no calendar.
-/
theorem reschedule_installed
    [Calendar K]
    (hReady : a.loading = false ∧ a.storageError = "")
    (hPlan :
      a.retry ≠ none ∨
        a.spec.onCalendar = [] ∧
          (nextDeadline a.spec a.rt s.clock).next.isSome = true) :
    (s.reschedule a).2.item ≠ none := by
  unfold reschedule removeDeadline
  dsimp only
  have hOpen : ¬ (a.loading = true ∨ a.storageError ≠ "") := by
    rw [hReady.1, hReady.2]
    simp
  rw [if_neg hOpen]
  split
  · simp [installDeadline, enqueue]
  · rename_i hRetry
    rcases hPlan with hSome | ⟨hNone, hFound⟩
    · exact absurd hRetry hSome
    · rw [if_neg (not_not.mpr hNone)]
      split
      · simp [installDeadline, enqueue]
      · rename_i hMissing
        rw [hMissing] at hFound
        cases hFound

/- A timer that is planned again with its due deadline. -/
theorem reschedule_self
    [Calendar K]
    {a b : Armed K}
    (hFind : s.find a.name = some b)
    (hReady : a.loading = false ∧ a.storageError = "")
    (hFiring : a.firing = false)
    (hElapsed : Elapsed s.clock a τ)
    (hPlan :
      (∃ r, τ = .retry r) ∨
        a.spec.onCalendar = [] ∧ ∀ t, τ ≠ .wall t) :
    (s.rescheduleLocked a).DueAt a.name a.ref a.token τ := by
  have hItem : (s.reschedule a).2.item ≠ none := by
    apply reschedule_installed hReady
    rcases hPlan with ⟨r, rfl⟩ | ⟨hNone, hRelative⟩
    · left
      rw [hElapsed.1]
      simp
    · cases τ with
      | retry r =>
          left
          rw [hElapsed.1]
          simp
      | boot =>
          exact Or.inr
            ⟨hNone, nextDeadline_isSome hNone (Or.inl hElapsed.2)⟩
      | startup =>
          exact Or.inr
            ⟨hNone, nextDeadline_isSome hNone (Or.inr hElapsed.2)⟩
      | wall t => exact absurd rfl (hRelative t)
  rcases find_reschedule_self hFind with ⟨hFound, hSame⟩
  refine ⟨_, hFound, hSame.ref, hSame.token, ?_, hItem, ?_⟩
  · rw [hSame.firing]
    exact hFiring
  · rw [(kept_reschedule s a).clock]
    refine hElapsed.congr hSame.retry hSame.spec ?_ ?_ ?_
    · rw [hSame.rt]
    · rw [hSame.rt]
    · rintro t rfl
      rcases hPlan with ⟨r, hEq⟩ | ⟨_, hRelative⟩
      · cases hEq
      · exact absurd rfl (hRelative t)

/- An installed timer is neither loading nor suspended. -/
theorem ready
    (hInstalled : s.Installed)
    (hRun : s.running = true)
    (hFind : s.find name = some a)
    (hItem : a.item ≠ none) :
    a.planning = false ∧ a.loading = false ∧ a.storageError = "" := by
  have hIdle := mt (hInstalled.settled hRun name a hFind).idle hItem
  rw [not_or, not_or, Bool.not_eq_true, Bool.not_eq_true,
    not_not] at hIdle
  exact hIdle

/- A plan that keeps the deadline: a retry, or no calendar. -/
def Replans (spec : Spec K) (τ : Trigger) : Prop :=
  (∃ r, τ = .retry r) ∨ spec.onCalendar = [] ∧ ∀ t, τ ≠ .wall t

variable {when : Time}
variable {unit other : String}

theorem noteActive
    [Calendar K]
    (hInstalled : s.Installed)
    (hRun : s.running = true)
    (h : s.DueAt name ref token τ)
    (hSafe :
      ∀ a, s.find name = some a → a.spec.unit = unit →
        a.spec.onUnitActiveSecSet = true → Replans a.spec τ) :
    (Engine.noteActive unit when s other).DueAt name ref token τ := by
  refine noteActive_rule (P := fun t => t.DueAt name ref token τ) h ?_
  intro b hFind hUnit hSet
  by_cases hOther : name = b.name
  · subst hOther
    rcases h with ⟨a, ha, rfl, rfl, hFiring, hItem, hElapsed⟩
    rw [hFind] at ha
    cases ha
    refine reschedule_self
      (a := { b with rt := { b.rt with lastUnitActive := when } })
      hFind (ready hInstalled hRun hFind hItem).2 hFiring ?_
      (hSafe b hFind hUnit hSet)
    exact hElapsed.congr rfl rfl rfl rfl (fun _ _ => rfl)
  · exact h.reschedule_ne hOther

/- The schedules are not changed. -/
theorem find_noteActive
    [Calendar K]
    {b : Armed K}
    (h : (Engine.noteActive unit when s other).find name = some b) :
    ∃ a, s.find name = some a ∧ b.spec = a.spec := by
  refine noteActive_rule (P := fun t =>
    ∀ n b, t.find n = some b → ∃ a, s.find n = some a ∧ b.spec = a.spec)
    (fun _ b hb => ⟨b, hb, rfl⟩) ?_ name b h
  intro a hFind _ _
  refine forall_reschedule ?_ (fun _ b hb => ⟨b, hb, rfl⟩) hFind
    ⟨a, hFind, rfl⟩
  rintro n c c' hSame ⟨a, ha, hSpec⟩
  exact ⟨a, ha, hSame.spec.trans hSpec⟩

section

variable (h : s.DueAt name ref token τ)

include h

theorem unitActive
    [Calendar K]
    (hInstalled : s.Installed)
    (hRun : s.running = true)
    {unit : String}
    {order : List String}
    (hCareful : s.Careful (.unitActive unit when order)) :
    (s.unitActive unit when order).DueAt name ref token τ := by
  unfold Engine.unitActive
  split
  · exact h
  · dsimp only
    generalize (if when = 0 then s.clock.now else when) = time
    rcases h with ⟨a, hFind, hRef, hToken, hFiring, hItem, hElapsed⟩
    have hSafe :
        a.spec.unit = unit → a.spec.onUnitActiveSecSet = true →
          Replans a.spec τ := by
      intro hUnit hSet
      have hWaits := waits hFiring hItem hElapsed
      rcases hCareful a (mem_of_find hFind) hWaits hUnit hSet with
        hRetry | ⟨hNone, hWall⟩
      · cases τ with
        | retry r => exact Or.inl ⟨r, rfl⟩
        | boot | startup | wall => exact absurd hElapsed.1 hRetry
      · refine Or.inr ⟨hNone, ?_⟩
        rintro t rfl
        rcases hElapsed with ⟨_, rfl, hTime⟩
        exact hWall hTime
    -- the schedule of the timer stays the same in the loop
    have hLoop :
        (order.foldl (Engine.noteActive unit time) s).Installed ∧
        (order.foldl (Engine.noteActive unit time) s).running = true ∧
        (order.foldl (Engine.noteActive unit time) s).DueAt name ref
          token τ ∧
        ∀ b, (order.foldl (Engine.noteActive unit time) s).find name =
          some b → b.spec = a.spec := by
      refine List.foldlRecOn (motive := fun t : Engine K =>
        t.Installed ∧ t.running = true ∧ t.DueAt name ref token τ ∧
          ∀ b, t.find name = some b → b.spec = a.spec) order _ ?_ ?_
      · refine ⟨hInstalled, hRun,
          ⟨a, hFind, hRef, hToken, hFiring, hItem, hElapsed⟩, ?_⟩
        intro b hb
        rw [hFind] at hb
        cases hb
        rfl
      · rintro t ⟨hInst, hRunning, hDue, hSpec⟩ other _
        refine ⟨noteActive_rule hInst (fun b hb _ _ =>
          hInst.reschedule (b := b) hb rfl), ?_, ?_, ?_⟩
        · rw [(kept_noteActive t unit time other).running]
          exact hRunning
        · refine hDue.noteActive hInst hRunning ?_
          intro b hb hUnit hSet
          rw [hSpec b hb] at hUnit hSet ⊢
          exact hSafe hUnit hSet
        · intro b hb
          rcases find_noteActive hb with ⟨c, hc, hSame⟩
          exact hSame.trans (hSpec c hc)
    exact hLoop.2.2.1

variable {other : String}

theorem replan
    [Calendar K] :
    (s.replan other).DueAt name ref token τ := by
  refine replan_rule (P := fun t => t.DueAt name ref token τ) h ?_ ?_
  · intro b hFind
    by_cases hOther : name = b.name
    · subst hOther
      rcases h with ⟨a, ha, hRef, hToken, hFiring, hItem, hElapsed⟩
      rw [hFind] at ha
      cases ha
      exact ⟨_, find_put_self (a := { b with schedGen := s.clockGen })
        hFind, hRef, hToken, hFiring, hItem,
        hElapsed.congr rfl rfl rfl rfl (fun _ _ => rfl)⟩
    · exact h.put_ne hOther
  · intro b hFind hNot
    by_cases hOther : name = b.name
    · subst hOther
      rcases h with ⟨a, ha, _, _, _, hItem, hElapsed⟩
      rw [hFind] at ha
      cases ha
      exact absurd ⟨Option.isSome_iff_ne_none.mpr hItem,
        itemDue_of_elapsed hElapsed⟩ hNot
    · exact h.reschedule_ne hOther

/- A due deadline is consumed in the loop, or is left alone. -/
theorem fireDue
    [Calendar K]
    (cfg : Config)
    (hInstalled : s.Installed)
    (hOwned : s.Owned)
    (hRun : s.running = true) :
    ∃ new, (s.fireDueLocked cfg).consumed = s.consumed ++ new ∧
      (s.fireDueLocked cfg).clock = s.clock ∧
      ((s.fireDueLocked cfg).find name = s.find name ∨
        ∃ x ∈ new, x.ref = ref) := by
  have hLoop :=
    fireDue_rule (s := s)
      (P := fun t =>
        t.Owned ∧ t.running = true ∧
          ∃ new, t.consumed = s.consumed ++ new ∧ t.clock = s.clock ∧
            (t.find name = s.find name ∨ ∃ x ∈ new, x.ref = ref))
      cfg ?_ hInstalled ⟨hOwned, hRun, [], by simp, rfl, Or.inl rfl⟩
  · exact hLoop.1.2.2
  rintro t due t' a _ ⟨hOwn, hRunning, new, hNew, hClock, hCase⟩ _
    hPopped _
  rcases hOwn.took cfg hPopped hRunning with
    ⟨event, rt, b, _, _, _, _, _, hOthers, hConsumed, hRunning'⟩
  refine ⟨hOwn.consume hPopped, hRunning',
    new ++ [t'.taken { a with item := none } event], ?_,
    hPopped.clock.trans hClock, ?_⟩
  · rw [hConsumed, hNew, List.append_assoc]
  · rcases hCase with hFind | ⟨x, hx, hRef⟩
    · by_cases hSelf : name = due.name
      · -- the deadline itself has been consumed
        subst hSelf
        rcases h with ⟨c, hc, hRef, _⟩
        rw [← hFind, hPopped.find] at hc
        cases hc
        exact Or.inr ⟨_, List.mem_append_right new
          (List.mem_singleton_self _), hRef⟩
      · exact Or.inl ((hOthers name hSelf).trans hFind)
    · exact Or.inr ⟨x, List.mem_append_left _ hx, hRef⟩

/- A write that fails suspends the timer it is for. -/
theorem persistSettle
    [Calendar K]
    (event : Fire)
    (own : Nat)
    {err : Option String}
    (hText : err ≠ some "") :
    (s.persistSettle event own err).1.DueAt name ref token τ ∨
      ∃ a, (s.persistSettle event own err).1.find name = some a ∧
        a.ref = ref ∧ a.storageError ≠ "" := by
  refine persistSettle_rule
    (P := fun t => t.DueAt name ref token τ ∨
      ∃ a, t.find name = some a ∧ a.ref = ref ∧ a.storageError ≠ "")
    (Or.inl (h.congr rfl rfl)) ?_
  rintro b text rfl hFind _ _
  by_cases hOther : name = b.name
  · right
    subst hOther
    rcases h with ⟨a, ha, hRef, _⟩
    rw [hFind] at ha
    cases ha
    rcases find_reschedule_self (s := { s with storageIO := false })
        (a := { b with storageError := text }) hFind with
      ⟨hFound, hSame⟩
    refine ⟨_, hFound, hSame.ref.trans hRef, ?_⟩
    rw [hSame.storageError]
    rintro rfl
    exact hText rfl
  · left
    have hFree : DueAt { s with storageIO := false } name ref token τ :=
      h.congr rfl rfl
    exact hFree.reschedule_ne (a := { b with storageError := text }) hOther

/- The callback that ends is not of this arm. -/
theorem fireDone
    [Calendar K]
    {w : FireWork}
    {i : Nat}
    (hOwned : s.Owned)
    (hw : s.fires[i]? = some w)
    (hPhase : w.phase ≠ .done) :
    (s.fireDone w).DueAt name ref token τ := by
  have hLess :
      DueAt { s with activeFires := s.activeFires - 1 } name ref
        token τ :=
    h.congr rfl rfl
  refine fireDone_rule (P := fun t => t.DueAt name ref token τ) hLess ?_
  rintro b _ error rfl _ hFind hName hToken
  have hNe : name ≠ b.name := by
    rintro rfl
    rcases h with ⟨a, ha, _, _, hFiring, _⟩
    rw [hFind] at ha
    cases ha
    have hTrue := (hOwned.arms _ b hFind).firing i w hw
      ⟨hPhase, hName, hToken⟩
    rw [hFiring] at hTrue
    cases hTrue
  exact ⟨hLess.reschedule_ne hNe, fun _ => hLess.put_ne hNe⟩

/- A result that is taken over, unless the timer is to retry. -/
theorem applyResult
    {w : ResultWork}
    (hCareful :
      ∀ a ∈ s.armed, s.Waits a → a.name = w.event.name →
        a.token = w.event.token → a.retry = none) :
    (s.applyResult w).DueAt name ref token τ := by
  refine applyResult_rule (P := fun t => t.DueAt name ref token τ) h ?_
  intro b hFind hName hToken _
  by_cases hOther : name = b.name
  · subst hOther
    rcases h with ⟨a, ha, hRef, hArm, hFiring, hItem, hElapsed⟩
    rw [hFind] at ha
    cases ha
    have hRetry := hCareful b (mem_of_find hFind)
      (waits hFiring hItem hElapsed) hName.symm hToken.symm
    refine ⟨_, find_put_self (b := b) hFind, hRef, hArm, hFiring, hItem,
      hElapsed.congr ?_ rfl rfl rfl (fun _ _ => rfl)⟩
    exact hRetry.symm
  · exact h.put_ne hOther

/- A timer with a deadline is neither planned nor loaded. -/
theorem planPublish
    {own gen clockGen : Nat}
    {found : Deadline}
    (hInstalled : s.Installed)
    (hRun : s.running = true) :
    (s.planPublish other own gen clockGen found).DueAt name ref
      token τ := by
  refine planPublish_rule (P := fun t => t.DueAt name ref token τ)
    (h.congr rfl rfl) ?_
  rintro b item pq items k hFind ⟨_, _, hPlanning⟩
  have hNe : name ≠ b.name := by
    rintro rfl
    rcases h with ⟨a, ha, _, _, _, hItem, _⟩
    have hReady := ready hInstalled hRun ha hItem
    rw [hFind] at ha
    cases ha
    rw [hPlanning] at hReady
    cases hReady.1
  exact h.congr (find_put_ne
    (a := { published b clockGen found with item := item }) hNe) rfl

theorem loadApply
    [Calendar K]
    {own : Nat}
    {result : Except String Runtime}
    (hInstalled : s.Installed)
    (hRun : s.running = true) :
    (s.loadApply other own result).DueAt name ref token τ := by
  have hFree :
      DueAt { s with storageIO := false, loader := some .pick } name ref
        token τ :=
    h.congr rfl rfl
  refine loadApply_rule (P := fun t => t.DueAt name ref token τ) hFree ?_
  rintro b c _ hFind _ _ _ hLoading
  refine hFree.reschedule_ne ?_
  rintro rfl
  rcases h with ⟨a, ha, _, _, _, hItem, _⟩
  have hReady := ready hInstalled hRun ha hItem
  rw [hFind] at ha
  cases ha
  rw [hLoading] at hReady
  cases hReady.2.1

theorem arm
    [Calendar K]
    {cfg : Config}
    {spec : Spec K}
    (hNe : name ≠ spec.name) :
    (s.arm cfg spec).DueAt name ref token τ := by
  refine arm_rule (P := fun t => t.DueAt name ref token τ) h ?_
  intro t b c hNew
  have hOther : name ≠ b.name := by
    rw [Armed.name, hNew.named]
    exact hNe
  have hSame := hNew.others name hOther
  rcases hNew.state with ⟨_, _, _, _, rfl⟩
  exact reschedule_ne (h.congr hSame rfl) hOther

theorem retry
    [Calendar K]
    {event : Fire}
    (hCareful : s.Careful (.retry event)) :
    (s.retry event).DueAt name ref token τ := by
  refine retry_rule (P := fun t => t.DueAt name ref token τ) h ?_
  intro b after hFind hName hToken
  refine h.reschedule_ne ?_
  intro hOwn
  rcases h with ⟨a, ha, _, _, hFiring, hItem, hElapsed⟩
  rw [show name = b.name from hOwn, hFind] at ha
  cases ha
  exact hCareful b (mem_of_find hFind)
    (waits hFiring hItem hElapsed) hName.symm hToken.symm

theorem retain
    {keep order : List String}
    (hKeep : name ∈ keep) :
    (s.retain keep order).DueAt name ref token τ := by
  refine List.foldlRecOn
    (motive := fun t : Engine K => t.DueAt name ref token τ) order _ h ?_
  intro t ht other _
  split
  · exact ht
  · rename_i hDrop
    refine ht.congr (find_disarm_ne ?_) (kept_disarm t other).clock
    rintro rfl
    exact hDrop hKeep

/- After a change of the clock the due deadlines are retained. -/
theorem clockChanged
    [Calendar K]
    (cfg : Config)
    (order : List String)
    (hInstalled : s.Installed)
    (hOwned : s.Owned)
    (hRun : s.running = true)
    (hOnward : s.Onward c) :
    ∃ new, (s.clockChanged cfg c order).consumed = s.consumed ++ new ∧
      ((s.clockChanged cfg c order).DueAt name ref token τ ∨
        ∃ x ∈ new, x.ref = ref) := by
  rcases h with ⟨a, hFind, hArm⟩
  have hNext :
      DueAt { s with clockGen := s.clockGen + 1 } name ref token τ :=
    ⟨a, hFind, hArm⟩
  rcases hNext.fireDue cfg (hInstalled.ticked _)
      { hOwned with } hRun with
    ⟨new, hNew, _, hCase⟩
  unfold Engine.clockChanged
  rw [if_neg (by rw [hRun]; simp)]
  dsimp only
  generalize
    fireDueLocked cfg { s with clockGen := s.clockGen + 1 } = t
    at hNew hCase ⊢
  have hKept :
      Kept { t with clock := c }
        (order.foldl Engine.replan { t with clock := c }) :=
    List.foldlRecOn (motive := Kept { t with clock := c }) order _
      (.refl _) (fun u hu other _ => hu.trans (kept_replan u other))
  refine ⟨new, hKept.consumed.trans hNew, ?_⟩
  rcases hCase with hSame | hTaken
  · left
    refine List.foldlRecOn
      (motive := fun u : Engine K => u.DueAt name ref token τ) order _ ?_
      (fun u hu other _ => hu.replan)
    refine ⟨a, hSame.trans hFind, hArm.1, hArm.2.1, hArm.2.2.1,
      hArm.2.2.2.1, ?_⟩
    exact onward hOnward hFind hArm.2.2.1 hArm.2.2.2.1 hArm.2.2.2.2
  · exact Or.inr hTaken

/-
  A step keeps a due deadline or ends it in one of the ways
  that end a deadline.
-/
theorem step
    [Calendar K]
    {cfg : Config}
    {l : Label K}
    (hInstalled : s.Installed)
    (hOwned : s.Owned)
    (hWorded : s.Worded)
    (hRun : s.running = true)
    (hCareful : s.Careful l)
    (hStep : s.step cfg l = some s') :
    s'.DueAt name ref token τ ∨ Released s l s' name ref := by
  cases l with
  | clock c =>
      cases hStep
      rcases h with ⟨a, hFind, hRef, hToken, hFiring, hItem, hElapsed⟩
      exact Or.inl ⟨a, hFind, hRef, hToken, hFiring, hItem,
        onward hCareful hFind hFiring hItem hElapsed⟩
  | arm spec =>
      cases hStep
      by_cases hName : spec.name = name
      · exact Or.inr (.rearmed spec rfl hName)
      · exact Or.inl (h.arm (Ne.symm hName))
  | disarm other =>
      cases hStep
      by_cases hName : name = other
      · subst hName
        exact Or.inr (.disarmed rfl)
      · exact Or.inl
          (h.congr (find_disarm_ne hName) (kept_disarm s other).clock)
  | retain keep order =>
      obtain ⟨_, ⟨⟩⟩ := Option.ite_none_right_eq_some.mp hStep
      by_cases hKeep : name ∈ keep
      · exact Or.inl (h.retain hKeep)
      · exact Or.inr (.dropped keep order rfl hKeep)
  | unitActive unit when order =>
      obtain ⟨_, ⟨⟩⟩ := Option.ite_none_right_eq_some.mp hStep
      exact Or.inl (h.unitActive hInstalled hRun hCareful)
  | clockChanged c order =>
      obtain ⟨_, ⟨⟩⟩ := Option.ite_none_right_eq_some.mp hStep
      rcases h.clockChanged cfg order hInstalled hOwned hRun hCareful with
        ⟨new, hNew, hDue | ⟨x, hx, hRef⟩⟩
      · exact Or.inl hDue
      · exact Or.inr (.consumed new x hNew hx hRef)
  | fireDue =>
      cases hStep
      rcases h.fireDue cfg hInstalled hOwned hRun with
        ⟨new, hNew, hClock, hSame | ⟨x, hx, hRef⟩⟩
      · exact Or.inl (h.congr hSame hClock)
      · exact Or.inr (.consumed new x hNew hx hRef)
  | wait =>
      cases hStep
      rw [hInstalled.dropStale]
      exact Or.inl h
  | retry event =>
      cases hStep
      exact Or.inl (h.retry hCareful)
  | recordResult event success =>
      cases hStep
      rcases recordResult_eq s event success with ⟨results, hEq⟩
      rw [hEq]
      exact Or.inl (h.congr rfl rfl)
  | stop =>
      cases hStep
      exact Or.inr (.stopped rfl)
  | plan =>
      cases planStep_move hStep with
      | pick => exact Or.inl (h.congr rfl rfl)
      | publish => exact Or.inl (h.planPublish hInstalled hRun)
  | load other r =>
      cases loadStep_move hStep with
      | pick | exit | hold | pass | read => exact Or.inl (h.congr rfl rfl)
      | apply => exact Or.inl (h.loadApply hInstalled hRun)
  | fire i r =>
      rcases fireStep_move hStep with ⟨w, hw, hMove⟩
      have hText := hWorded.fires w (List.mem_of_getElem? hw)
      cases hMove with
      | hold | pass | save | call | late | back =>
          exact Or.inl (h.congr rfl rfl)
      | ready err hPhase | drop err hPhase =>
          rw [hPhase] at hText
          rcases h.persistSettle w.event w.ref
              (by simpa using hText) with
            hDue | ⟨a, hFind, hRef, hError⟩
          · exact Or.inl (hDue.congr rfl rfl)
          · exact Or.inr (.suspended a hFind hRef hError)
      | done hPhase =>
          have hDone := h.fireDone hOwned hw (by rw [hPhase]; simp)
          exact Or.inl (hDone.congr rfl rfl)
  | result i r =>
      rcases resultStep_move hStep with ⟨w, hw, hMove⟩
      have hText := hWorded.results w (List.mem_of_getElem? hw)
      cases hMove with
      | hold | pass | save => exact Or.inl (h.congr rfl rfl)
      | ready err hPhase | drop err hPhase =>
          rw [hPhase] at hText
          rcases h.persistSettle w.event w.ref
              (by simpa using hText) with
            hDue | ⟨a, hFind, hRef, hError⟩
          · exact Or.inl (hDue.congr rfl rfl)
          · exact Or.inr (.suspended a hFind hRef hError)
      | apply hPhase =>
          have hDue := h.applyResult (hCareful w hw hPhase)
          exact Or.inl (hDue.congr rfl rfl)

end

end DueAt

/- The item of a timer stands in the heap. -/
theorem DueAt.listed
    {name : String}
    {ref token : Nat}
    {τ : Trigger}
    (hInstalled : s.Installed)
    (h : s.DueAt name ref token τ) :
    ∃ a it, s.find name = some a ∧ a.ref = ref ∧ a.token = token ∧
      s.Waits a ∧ Elapsed s.clock a τ ∧ a.item = some it ∧
      it ∈ s.pq.arr := by
  rcases h with ⟨a, hFind, hRef, hToken, hFiring, hItem, hElapsed⟩
  rcases Option.ne_none_iff_exists'.mp hItem with ⟨it, hIt⟩
  exact ⟨a, it, hFind, hRef, hToken, waits hFiring hItem hElapsed,
    hElapsed, hIt,
    (hInstalled.queue.listed name a it (by simp) hFind hIt).1⟩

/-
  A due deadline of a timer that is not firing has a trigger
  that has elapsed, and for each such trigger it stays in the
  heap and due until a step ends it.
-/
theorem due_kept
    [Calendar K]
    {cfg : Config}
    {t : Engine K}
    {name : String}
    {a : Armed K}
    (hReach : (timing K cfg).Reachable s)
    (hRun : s.running = true)
    (hFind : s.find name = some a)
    (hWaits : s.Waits a)
    (hPath : (timing K cfg).Path Careful s t) :
    (∃ τ, Elapsed s.clock a τ) ∧
      ∀ τ, Elapsed s.clock a τ →
        (t.running = true ∧
          ∃ b it, t.find name = some b ∧ b.ref = a.ref ∧
            b.token = a.token ∧ t.Waits b ∧ Elapsed t.clock b τ ∧
            b.item = some it ∧ it ∈ t.pq.arr) ∨
          ∃ u l u', (timing K cfg).Path Careful s u ∧
            u.step cfg l = some u' ∧ (timing K cfg).Path Careful u' t ∧
            Released u l u' name a.ref := by
  refine ⟨exists_elapsed hWaits.2.2, ?_⟩
  intro τ hElapsed
  have hDue : s.DueAt name a.ref a.token τ :=
    ⟨a, hFind, rfl, rfl, hWaits.1,
      Option.isSome_iff_ne_none.mp hWaits.2.1, hElapsed⟩
  -- along the run: still due, or released at an earlier step
  have hAlong :
      (timing K cfg).Reachable t ∧
        (t.running = true ∧ t.DueAt name a.ref a.token τ ∨
          ∃ u l u', (timing K cfg).Path Careful s u ∧
            u.step cfg l = some u' ∧ (timing K cfg).Path Careful u' t ∧
            Released u l u' name a.ref) := by
    induction hPath with
    | refl => exact ⟨hReach, Or.inl ⟨hRun, hDue⟩⟩
    | tail hPre hCareful hNext ih =>
        rename_i v v' l
        rcases ih with ⟨hReached, hState⟩
        refine ⟨hReached.step hNext, ?_⟩
        rcases hState with ⟨hRunning, hStill⟩ | ⟨u, k, u', hu, hk, hu', h⟩
        · rcases hStill.step (.of_reachable hReached)
              (.of_reachable hReached) (.of_reachable hReached) hRunning
              hCareful hNext with
            hKept | hReleased
          · cases hStop : v'.running with
            | true => exact Or.inl ⟨rfl, hKept⟩
            | false =>
                exact Or.inr ⟨v, l, v', hPre, hNext, .refl v',
                  .stopped hStop⟩
          · exact Or.inr ⟨v, l, v', hPre, hNext, .refl v', hReleased⟩
        · exact Or.inr ⟨u, k, u', hu, hk, .tail hu' hCareful hNext, h⟩
  rcases hAlong with ⟨hReached, ⟨hRunning, hStill⟩ | hReleased⟩
  · exact Or.inl ⟨hRunning, hStill.listed (.of_reachable hReached)⟩
  · exact Or.inr hReleased

end Engine

------------------------------------------------------------
-- Runs
------------------------------------------------------------

section Runs

/- Every `k` nanoseconds. -/
@[reducible]
def periodic : Calendar Nat where
  next k t := (t / k + 1) * k
  previous k t := t / k * k

local instance : Calendar Nat := periodic

/- An engine without a store. -/
def volatile : Config where
  namespaceText := "n"
  callback := true
  stored := false

theorem instant_ne_zero
    (n : Nat) :
    Lib.Instant.ofWall (n + 1) ≠ 0 := by
  intro h
  have hWall : (n : Int) + 1 = 0 := congrArg Lib.Instant.wall h
  omega

/- All clocks after the same time. -/
def instant (n : Nat) : Reading where
  now := .ofWall (n + 1)
  sinceBoot := n
  sinceStart := n
  nonzero := instant_ne_zero n

/- The wall clock and the clock that is never set. -/
def clocks (wall mono : Int) (h : Lib.Instant.Roomy wall) :
    Reading where
  now := { wall := wall, mono := some mono, roomy := fun _ => h }
  sinceBoot := mono
  sinceStart := mono
  nonzero := Lib.Instant.ne_zero_of_roomy h

/- On a calendar, and after the unit has been active. -/
def mixed : Spec Nat where
  name := "a.timer"
  unit := "a.service"
  onBootSec := 0
  onStartupSec := 0
  onUnitActiveSec := 1000
  onCalendar := [60]
  persistent := false
  onBootSecSet := false
  onStartupSecSet := false
  onUnitActiveSecSet := true

/- The timer is armed and planned, and its deadline passes. -/
def passed : List (Label Nat) :=
  [.arm mixed, .plan, .plan, .plan, .plan, .clock (instant 130)]

/- Another unit is active, and the clock goes on. -/
def otherActive : List (Label Nat) :=
  [.unitActive "b.service" 0 ["a.timer"], .clock (instant 140)]

theorem due_kept_otherActive :
    ∃ s t a, (timing Nat volatile).Reachable s ∧
      s.find "a.timer" = some a ∧ s.Waits a ∧ a.wallNext = .ofWall 120 ∧
      (timing Nat volatile).Path Engine.Careful s t ∧
      ((∃ τ, Elapsed s.clock a τ) ∧
        ∀ τ, Elapsed s.clock a τ →
          (t.running = true ∧
            ∃ b it, t.find "a.timer" = some b ∧ b.ref = a.ref ∧
              b.token = a.token ∧ t.Waits b ∧ Elapsed t.clock b τ ∧
              b.item = some it ∧ it ∈ t.pq.arr) ∨
            ∃ u l u', (timing Nat volatile).Path Engine.Careful s u ∧
              u.step volatile l = some u' ∧
              (timing Nat volatile).Path Engine.Careful u' t ∧
              Engine.Released u l u' "a.timer" a.ref) := by
  have hRun :
      ((timing Nat volatile).run (.fresh (instant 99)) passed).map
          (fun s =>
            ((s.running,
              (s.find "a.timer").map
                (fun a => (decide (s.Waits a), a.wallNext))),
              decide
                ((timing Nat volatile).Meets Engine.Careful s
                  otherActive),
              ((timing Nat volatile).run s otherActive).isSome)) =
        some ((true, some (true, .ofWall 120)), true, true) := by
    decide +kernel
  rcases Option.map_eq_some_iff.mp hRun with ⟨s, hs, hEq⟩
  simp only [Prod.mk.injEq, Option.map_eq_some_iff,
    decide_eq_true_eq, Option.isSome_iff_exists] at hEq
  rcases hEq with ⟨⟨hRunning, a, hFind, hWaits, hWall⟩, hMeets, t, ht⟩
  have hReach :=
    Lib.System.reachable_of_run passed (Engine.initial_fresh _) hs
  have hPath := Lib.System.path_of_meets hMeets ht
  exact ⟨s, t, a, hReach, hFind, hWaits, hWall, hPath,
    Engine.due_kept hReach hRunning hFind hWaits hPath⟩

/- The unit of the timer is active first. -/
def replanned : List (Label Nat) :=
  [.unitActive "a.service" 0 ["a.timer"], .plan, .plan, .plan,
    .fireDue]

/-
  The occurrence at 120 is due and not consumed; after the
  activation of the unit the next one is at 180.
-/
theorem due_occurrence_lost :
    ∃ s t a b, (timing Nat volatile).Reachable s ∧
      s.find "a.timer" = some a ∧ s.Waits a ∧ a.wallNext = .ofWall 120 ∧
      (timing Nat volatile).run s replanned = some t ∧
      t.running = true ∧ t.consumed = [] ∧
      t.find "a.timer" = some b ∧ b.ref = a.ref ∧
      b.token = a.token ∧ b.storageError = "" ∧
      b.wallNext = .ofWall 180 ∧ ¬ t.Waits b := by
  have hRun :
      ((timing Nat volatile).run (.fresh (instant 99)) passed).map
          (fun s =>
            ((s.find "a.timer").map
                (fun a =>
                  decide
                    (s.Waits a ∧ a.wallNext = .ofWall 120 ∧
                      a.ref = 0 ∧ a.token = 1)),
              ((timing Nat volatile).run s replanned).map
                (fun t =>
                  (decide (t.running = true ∧ t.consumed = []),
                    (t.find "a.timer").map
                      (fun b =>
                        decide
                          ((b.ref = 0 ∧ b.token = 1) ∧
                            b.storageError = "" ∧
                            b.wallNext = .ofWall 180 ∧
                            ¬ t.Waits b)))))) =
        some (some true, some (true, some true)) := by
    decide +kernel
  rcases Option.map_eq_some_iff.mp hRun with ⟨s, hs, hEq⟩
  simp only [Prod.mk.injEq, Option.map_eq_some_iff,
    decide_eq_true_eq] at hEq
  rcases hEq with
    ⟨⟨a, hFind, hWaits, hWall, hRef, hToken⟩, t, ht, hState, b, hFind',
      ⟨hRef', hToken'⟩, hPlan⟩
  exact ⟨s, t, a, b,
    Lib.System.reachable_of_run passed (Engine.initial_fresh _) hs,
    hFind, hWaits, hWall, ht, hState.1, hState.2, hFind',
    hRef'.trans hRef.symm, hToken'.trans hToken.symm, hPlan⟩

end Runs

end Timers

end Winunitd
