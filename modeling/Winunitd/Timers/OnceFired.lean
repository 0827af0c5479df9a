import Winunitd.Timers.DueKept

/-
  The triggers that fire once.

  The trigger after boot and the trigger after the start of the
  engine are marked when a deadline is consumed while they are
  pending.  A mark lasts as long as its timer is armed, except
  that a stored record that is taken over has none.  In the runs
  in which no record is taken over by a timer with a mark, each
  of the two triggers accounts for at most one consumed deadline
  of a timer.

  Key definitions include:
    * `Once`
    * `Engine.Unmarked`
    * `Engine.Marks`

  Key theorems include:
    * `Engine.Marks.step`
    * `Engine.fires_once`
-/

------------------------------------------------------------
-- Triggers
------------------------------------------------------------

namespace Winunitd

namespace Timers

variable {K : Type}

/- The triggers that fire once. -/
inductive Once where
| boot
| startup
deriving DecidableEq, Repr

/- The trigger is marked as fired. -/
def Runtime.fired (rt : Runtime) : Once → Bool
| .boot => rt.firedBoot
| .startup => rt.firedStartup

/- The trigger has elapsed and is not marked. -/
def Pending (k : Once) (spec : Spec K) (rt : Runtime) (c : Reading) :
    Prop :=
  match k with
  | .boot => BootPending spec rt c
  | .startup => StartupPending spec rt c

theorem Pending.unmarked
    {k : Once}
    {spec : Spec K}
    {rt : Runtime}
    {c : Reading}
    (h : Pending k spec rt c) :
    rt.fired k = false := by
  cases k with
  | boot => exact h.2.1
  | startup => exact h.2.1

theorem markFired_fired
    (k : Once)
    (spec : Spec K)
    (rt : Runtime)
    (c : Reading)
    (scheduled actual : Time) :
    (markFired spec rt c scheduled actual).fired k = true ↔
      Pending k spec rt c ∨ rt.fired k = true := by
  cases k with
  | boot => exact markFired_firedBoot spec rt c scheduled actual
  | startup => exact markFired_firedStartup spec rt c scheduled actual

/- A consumed deadline that the trigger accounts for. -/
def Consumed.By (k : Once) (ref : Nat) (x : Consumed) : Prop :=
  x.ref = ref ∧ x.retried = false ∧
    match k with
    | .boot => x.boot = true
    | .startup => x.startup = true

instance (k : Once) (ref : Nat) (x : Consumed) :
    Decidable (x.By k ref) := by
  unfold Consumed.By
  cases k <;> infer_instance

namespace Engine

variable {s s' : Engine K}

/- How many consumed deadlines a trigger accounts for. -/
def firedBy (s : Engine K) (k : Once) (ref : Nat) : Nat :=
  s.consumed.countP (fun x => decide (x.By k ref))

------------------------------------------------------------
-- Marks
------------------------------------------------------------

/- The timers are the same ones, and no mark is lost. -/
structure Held (s s' : Engine K) : Prop where
  nextRef : s'.nextRef = s.nextRef
  arms :
    ∀ name a', s'.find name = some a' →
      ∃ a, s.find name = some a ∧ a'.ref = a.ref ∧
        ∀ k, a.rt.fired k = true → a'.rt.fired k = true

namespace Held

theorem trans
    {t : Engine K}
    (h : s.Held s')
    (h' : s'.Held t) :
    s.Held t := by
  refine ⟨h'.nextRef.trans h.nextRef, ?_⟩
  intro name c hc
  rcases h'.arms name c hc with ⟨b, hb, hRef', hMark'⟩
  rcases h.arms name b hb with ⟨a, ha, hRef, hMark⟩
  exact ⟨a, ha, hRef'.trans hRef, fun k hk => hMark' k (hMark k hk)⟩

theorem congr
    (hFind : ∀ name, s'.find name = s.find name)
    (hRef : s'.nextRef = s.nextRef) :
    s.Held s' := by
  refine ⟨hRef, ?_⟩
  intro name a ha
  rw [hFind] at ha
  exact ⟨a, ha, rfl, fun _ hk => hk⟩

theorem put
    {a b : Armed K}
    (hFind : s.find a.name = some b)
    (hRef : a.ref = b.ref)
    (hMark : ∀ k, b.rt.fired k = true → a.rt.fired k = true) :
    s.Held (s.put a) := by
  refine ⟨rfl, ?_⟩
  intro name c hc
  by_cases hName : name = a.name
  · subst hName
    rw [find_put_self hFind] at hc
    cases hc
    exact ⟨b, hFind, hRef, hMark⟩
  · rw [find_put_ne hName] at hc
    exact ⟨c, hc, rfl, fun _ hk => hk⟩

theorem reschedule
    [Calendar K]
    {a b : Armed K}
    (hFind : s.find a.name = some b)
    (hRef : a.ref = b.ref)
    (hMark : ∀ k, b.rt.fired k = true → a.rt.fired k = true) :
    s.Held (s.rescheduleLocked a) := by
  refine ⟨(kept_reschedule s a).nextRef, ?_⟩
  intro name c hc
  by_cases hName : name = a.name
  · subst hName
    rcases find_reschedule_self hFind with ⟨hFound, hSame⟩
    rw [hFound] at hc
    cases hc
    refine ⟨b, hFind, hSame.ref.trans hRef, ?_⟩
    rw [hSame.rt]
    exact hMark
  · rw [find_reschedule_ne hName] at hc
    exact ⟨c, hc, rfl, fun _ hk => hk⟩

theorem disarm
    (s : Engine K)
    (name : String) :
    s.Held (s.disarm name) := by
  refine ⟨(kept_disarm s name).nextRef, ?_⟩
  intro other a ha
  exact ⟨a, (find_disarm ha).1, rfl, fun _ hk => hk⟩

theorem planMove
    [Calendar K]
    (hMove : PlanMove s s') :
    s.Held s' := by
  cases hMove with
  | pick => exact congr (fun _ => rfl) rfl
  | publish name ref gen clockGen found =>
      refine planPublish_rule (P := s.Held) (congr (fun _ => rfl) rfl) ?_
      intro a item pq items k hFind _
      have hQueue :
          s.Held
            { s with
              planner := some .pick
              pq := pq
              items := items
              nextItem := k } :=
        congr (fun _ => rfl) rfl
      exact hQueue.trans (put (b := a) hFind rfl (fun _ hk => hk))

end Held

------------------------------------------------------------
-- Loads
------------------------------------------------------------

/- No stored record is taken over by a timer with a mark. -/
def Unmarked (s : Engine K) : Label K → Prop
| .load _ _ =>
    match s.loader with
    | some (.apply name ref (.ok _)) =>
        ∀ a ∈ s.find name, a.ref = ref → a.loading = true →
          a.rt.firedBoot = false ∧ a.rt.firedStartup = false
    | _ => True
| _ => True

instance (s : Engine K) : ∀ l, Decidable (s.Unmarked l)
| .load _ _ => by
    unfold Unmarked
    dsimp only
    split <;> infer_instance
| .clock _ | .clockChanged _ _ | .unitActive _ _ _ | .retry _
| .result _ _ | .arm _ | .disarm _ | .retain _ _ | .fireDue | .wait
| .recordResult _ _ | .stop | .plan | .fire _ _ =>
    isTrue trivial

/- A change to a timer loses no mark. -/
theorem Unmarked.edits
    {l : Label K}
    {a b : Armed K}
    (h : s.Unmarked l)
    (hEdits : Edits s l b a)
    (k : Once)
    (hk : b.rt.fired k = true) :
    a.rt.fired k = true := by
  rcases hEdits.marks with
    ⟨hBoot, hStartup⟩ | ⟨hLoading, hFind, _, _, rt, rfl, hLoader⟩
  · cases k with
    | boot => exact hBoot.trans hk
    | startup => exact hStartup.trans hk
  · unfold Unmarked at h
    rw [hLoader] at h
    have hNone := h b hFind rfl hLoading
    cases k with
    | boot => exact absurd (hNone.1.symm.trans hk) nofun
    | startup => exact absurd (hNone.2.symm.trans hk) nofun

------------------------------------------------------------
-- Accounts
------------------------------------------------------------

/-
  What the marks say about the consumed deadlines.  The timers
  in `marked` have had a mark before, and have it still.
-/
structure Marks (marked : Once → Nat → Prop) (s : Engine K) :
    Prop where
  known : ∀ name a, s.find name = some a → a.ref < s.nextRef
  apart :
    ∀ n m a b, s.find n = some a → s.find m = some b →
      a.ref = b.ref → n = m
  fresh : ∀ k ref, s.nextRef ≤ ref → s.firedBy k ref = 0
  once : ∀ k ref, s.firedBy k ref ≤ 1
  unmarked :
    ∀ k name a, s.find name = some a → a.rt.fired k = false →
      s.firedBy k a.ref = 0
  old : ∀ k ref, marked k ref → ref < s.nextRef
  lasting :
    ∀ k name a, s.find name = some a → marked k a.ref →
      a.rt.fired k = true

namespace Marks

variable {marked : Once → Nat → Prop}

theorem held
    (h : Marks marked s)
    (hHeld : s.Held s')
    (hConsumed : s'.consumed = s.consumed) :
    Marks marked s' := by
  have hBy : ∀ k ref, s'.firedBy k ref = s.firedBy k ref := by
    intro k ref
    unfold firedBy
    rw [hConsumed]
  refine ⟨?_, ?_, ?_, ?_, ?_, ?_, ?_⟩
  · intro name a ha
    rcases hHeld.arms name a ha with ⟨b, hb, hRef, _⟩
    rw [hRef, hHeld.nextRef]
    exact h.known name b hb
  · intro n m a b ha hb hEq
    rcases hHeld.arms n a ha with ⟨a', ha', hRefA, _⟩
    rcases hHeld.arms m b hb with ⟨b', hb', hRefB, _⟩
    exact h.apart n m a' b' ha' hb' (by rw [← hRefA, ← hRefB, hEq])
  · intro k ref hRef
    rw [hBy]
    rw [hHeld.nextRef] at hRef
    exact h.fresh k ref hRef
  · intro k ref
    rw [hBy]
    exact h.once k ref
  · intro k name a ha hNot
    rcases hHeld.arms name a ha with ⟨b, hb, hRef, hMark⟩
    rw [hBy, hRef]
    refine h.unmarked k name b hb ?_
    by_contra hTrue
    rw [Bool.not_eq_false] at hTrue
    rw [hMark k hTrue] at hNot
    cases hNot
  · intro k ref hMarked
    rw [hHeld.nextRef]
    exact h.old k ref hMarked
  · intro k name a ha hMarked
    rcases hHeld.arms name a ha with ⟨b, hb, hRef, hMark⟩
    rw [hRef] at hMarked
    exact hMark k (h.lasting k name b hb hMarked)

/- A timer that is armed for the first time has no marks. -/
theorem enrol
    {a : Armed K}
    (h : Marks marked s)
    (hFind :
      ∀ name, s'.find name =
        if name = a.name then some a else s.find name)
    (hNew : a.ref = s.nextRef)
    (hNext : s'.nextRef = s.nextRef + 1)
    (hConsumed : s'.consumed = s.consumed) :
    Marks marked s' := by
  -- every timer is the new one or an old one
  have hCases :
      ∀ name b, s'.find name = some b →
        name = a.name ∧ b = a ∨ s.find name = some b := by
    intro name b hb
    rw [hFind] at hb
    split at hb
    · rename_i hName
      cases hb
      exact Or.inl ⟨hName, rfl⟩
    · exact Or.inr hb
  have hBy : ∀ k ref, s'.firedBy k ref = s.firedBy k ref := by
    intro k ref
    rw [firedBy, hConsumed, firedBy]
  refine ⟨?_, ?_, ?_, ?_, ?_, ?_, ?_⟩
  · intro name b hb
    rw [hNext]
    rcases hCases name b hb with ⟨_, rfl⟩ | hOld
    · exact hNew ▸ Nat.lt_succ_self _
    · exact Nat.lt_succ_of_lt (h.known name b hOld)
  · intro n m b c hb hc hEq
    rcases hCases n b hb with ⟨rfl, rfl⟩ | hOldB
    · rcases hCases m c hc with ⟨rfl, _⟩ | hOldC
      · rfl
      · have hLess := h.known m c hOldC
        omega
    · rcases hCases m c hc with ⟨rfl, rfl⟩ | hOldC
      · have hLess := h.known n b hOldB
        omega
      · exact h.apart n m b c hOldB hOldC hEq
  · intro k ref hRef
    rw [hBy]
    exact h.fresh k ref (by omega)
  · intro k ref
    rw [hBy]
    exact h.once k ref
  · intro k name b hb hNot
    rw [hBy]
    rcases hCases name b hb with ⟨_, rfl⟩ | hOld
    · exact h.fresh k _ hNew.ge
    · exact h.unmarked k name b hOld hNot
  · intro k ref hMarked
    rw [hNext]
    exact Nat.lt_succ_of_lt (h.old k ref hMarked)
  · intro k name b hb hMarked
    rcases hCases name b hb with ⟨_, rfl⟩ | hOld
    · exact absurd (h.old k _ hMarked) hNew.not_lt
    · exact h.lasting k name b hOld hMarked

theorem arm
    [Calendar K]
    (h : Marks marked s)
    (cfg : Config)
    (spec : Spec K) :
    Marks marked (s.arm cfg spec) := by
  rcases arm_cases cfg s spec with
    hEq | ⟨loader, _, _, ⟨a, hFind, hEq⟩ | ⟨hNew, hEq⟩⟩
  · rw [hEq]
    exact h
  · rw [hEq]
    rcases refreshed_eq a (s.nextArm + 1) spec with
      ⟨loading, error, hFresh⟩
    rw [hFresh]
    have hNext :
        s.Held { s with nextArm := s.nextArm + 1, loader := loader } :=
      .congr (fun _ => rfl) rfl
    refine h.held (hNext.trans (.reschedule (b := a) ?_ rfl ?_)) ?_
    · exact hFind
    · exact fun _ hk => hk
    · exact (kept_reschedule _ _).consumed
  · rw [hEq]
    have hFind := find_append (a := newArm cfg s spec) hNew
    refine held ?_ (.reschedule (b := newArm cfg s spec) ?_ rfl ?_) ?_
    · exact h.enrol hFind rfl rfl rfl
    · exact (hFind spec.name).trans (if_pos rfl)
    · exact fun _ hk => hk
    · exact (kept_reschedule _ _).consumed

/- The record of an accepted deadline has the marks. -/
theorem accept_fired
    (cfg : Config)
    (s : Engine K)
    (a : Armed K)
    (due : DueTimer)
    (actual : Time)
    (k : Once) :
    (a.rt.fired k = true →
      (s.accept cfg a due actual).2.1.rt.fired k = true) ∧
      (a.retry = none → Pending k a.spec a.rt s.clock →
        (s.accept cfg a due actual).2.1.rt.fired k = true) := by
  have hMark := markFired_fired k a.spec a.rt s.clock due.scheduled actual
  have hActivation : ∀ (rt : Runtime) (n : Activation),
      ({ rt with activation := n } : Runtime).fired k = rt.fired k := by
    intro rt n
    cases k <;> rfl
  have hActual : ∀ (rt : Runtime) (n : Activation) (t : Time),
      ({ rt with lastActual := t, activation := n } : Runtime).fired k =
        rt.fired k := by
    intro rt n t
    cases k <;> rfl
  unfold accept
  split
  · rename_i r hRetry
    refine ⟨?_, fun hNone => by rw [hNone] at hRetry; cases hRetry⟩
    intro hk
    dsimp only
    split
    · rw [hActual]
      exact hk
    · exact hk
  · split
    · refine ⟨fun hk => ?_, fun _ hPending => ?_⟩
      · dsimp only
        rw [hActivation]
        exact hMark.mpr (Or.inr hk)
      · dsimp only
        rw [hActivation]
        exact hMark.mpr (Or.inl hPending)
    · exact ⟨fun hk => hMark.mpr (Or.inr hk),
        fun _ hPending => hMark.mpr (Or.inl hPending)⟩

variable {a : Armed K}

/- An entry counts for a trigger that was pending. -/
theorem by_taken
    {k : Once}
    {ref : Nat}
    {event : Fire} :
    (s.taken a event).By k ref ↔
      a.ref = ref ∧ a.retry = none ∧ Pending k a.spec a.rt s.clock := by
  unfold Consumed.By taken Pending
  cases k <;> simp

variable {cfg : Config}
variable {due : DueTimer}

theorem launch
    [Calendar K]
    {actual : Time}
    (h : Marks marked s)
    (hFind : s.find a.name = some a) :
    Marks marked (s.launch cfg a due actual) := by
  rcases launch_eq cfg s a due actual with
    ⟨rt, a', n, event, pq, items, i, g, p, _, hRt, hSame, hEq⟩
  have hFired := fun k => accept_fired cfg s a due actual k
  rw [hRt] at hFired
  have hName := hSame.name
  have hHeld :
      s.Held (s.put a') := by
    refine .put (b := a) (by rw [hName]; exact hFind) hSame.ref ?_
    intro k hk
    rw [hSame.rt]
    exact (hFired k).1 hk
  have hBy :
      ∀ k ref, (s.launch cfg a due actual).firedBy k ref =
        s.firedBy k ref +
          if (s.taken a event).By k ref then 1 else 0 := by
    intro k ref
    rw [hEq]
    unfold firedBy
    rw [List.countP_append]
    simp [List.countP_cons]
  have hArms :
      ∀ name, (s.launch cfg a due actual).find name =
        (s.put a').find name := by
    intro name
    rw [hEq]
    rfl
  have hRefs : (s.launch cfg a due actual).nextRef = s.nextRef := by
    rw [hEq]
  have hPut : Marks marked (s.put a') := h.held hHeld rfl
  have hOther : ∀ k ref, a.ref ≠ ref →
      (s.launch cfg a due actual).firedBy k ref = s.firedBy k ref := by
    intro k ref hNe
    have hNot : ¬ (s.taken a event).By k ref :=
      fun hTaken => hNe (by_taken.mp hTaken).1
    rw [hBy, if_neg hNot, Nat.add_zero]
  refine ⟨?_, ?_, ?_, ?_, ?_, ?_, ?_⟩
  · intro name b hb
    rw [hArms] at hb
    rw [hRefs]
    exact hPut.known name b hb
  · intro m m' b b' hb hb'
    rw [hArms] at hb hb'
    exact hPut.apart m m' b b' hb hb'
  · intro k ref hRef
    rw [hRefs] at hRef
    rw [hOther k ref]
    · exact h.fresh k ref hRef
    · have hKnown := h.known a.name a hFind
      omega
  · intro k ref
    rw [hBy]
    split
    · rename_i hTaken
      rcases by_taken.mp hTaken with ⟨rfl, _, hPending⟩
      rw [h.unmarked k a.name a hFind hPending.unmarked]
    · exact h.once k ref
  · intro k name b hb hNot
    rw [hArms] at hb
    by_cases hOwn : name = a'.name
    · -- the trigger was not pending, or it would be marked
      subst hOwn
      have hOwn' := hName ▸ hFind
      rw [find_put_self (b := a) hOwn'] at hb
      cases hb
      rw [hSame.rt] at hNot
      have hOpen : a.rt.fired k = false := by
        by_contra hTrue
        rw [Bool.not_eq_false] at hTrue
        rw [(hFired k).1 hTrue] at hNot
        cases hNot
      have hTaken : ¬ (s.taken a event).By k a.ref := by
        rw [by_taken]
        rintro ⟨_, hRetry, hPending⟩
        rw [(hFired k).2 hRetry hPending] at hNot
        cases hNot
      rw [hSame.ref, hBy, if_neg hTaken,
        h.unmarked k a.name a hFind hOpen]
    · rw [find_put_ne hOwn] at hb
      rw [hOther k b.ref]
      · exact h.unmarked k name b hb hNot
      · intro hRef
        rw [hName] at hOwn
        exact hOwn (h.apart name a.name b a hb hFind hRef.symm)
  · intro k ref hMarked
    rw [hRefs]
    exact h.old k ref hMarked
  · intro k name b hb hMarked
    rw [hArms] at hb
    exact hPut.lasting k name b hb hMarked

theorem consume
    [Calendar K]
    {now : Time}
    (h : Marks marked s)
    (hPopped : Popped s now due s' a) :
    Marks marked (s'.consumeLocked cfg due now) := by
  have h' : Marks marked s' := by
    have hFind := hPopped.own
    rcases hPopped.after with ⟨pq, rfl⟩
    have hQueue : s.Held { s with pq := pq } := .congr (fun _ => rfl) rfl
    exact h.held
      (hQueue.trans (.put (b := a) hFind rfl (fun _ hk => hk))) rfl
  exact hPopped.consume_rule h' (fun _ hFound => h'.launch hFound)

/- Every step that meets the condition keeps the account. -/
theorem step
    [Calendar K]
    {l : Label K}
    (h : Marks marked s)
    (hInstalled : s.Installed)
    (hUnmarked : s.Unmarked l)
    (hStep : s.step cfg l = some s') :
    Marks marked s' := by
  refine Reworks.step ?_ hInstalled.dropStale h hStep
  exact
    { set := fun _ _ _ ht _ => ht.held (.congr (fun _ => rfl) rfl) rfl
      stop := h.held (.congr (fun _ => rfl) rfl) rfl
      rest := fun _ _ _ _ _ _ _ _ ht =>
        ht.held (.congr (fun _ => rfl) rfl) rfl
      arm := fun spec _ => h.arm cfg spec
      disarm := fun t name ht _ =>
        ht.held (.disarm t name) (kept_disarm t name).consumed
      put := fun _ _ _ ht hFind hEdits _ _ =>
        ht.held (.put hFind hEdits.ref (hUnmarked.edits hEdits)) rfl
      reschedule := fun t a _ ht hFind hEdits =>
        ht.held (.reschedule hFind hEdits.ref (hUnmarked.edits hEdits))
          (kept_reschedule t a).consumed
      fireDue := fun _ ht =>
        (fireDue_rule (P := Marks marked) cfg
          (fun _ _ _ _ _ hU _ hPopped _ => hU.consume hPopped)
          (hInstalled.ticked _) ht).1
      plan := fun hPlan => by
        have hMove := planStep_move hPlan
        exact h.held (.planMove hMove) (kept_planMove hMove).consumed }

theorem of_initial
    (h : s.Initial) :
    Marks (fun _ _ => False) s := by
  rcases h with ⟨clock, disk, _, rfl⟩
  refine ⟨?_, ?_, fun _ _ _ => rfl, fun _ _ => Nat.zero_le _, ?_,
    fun _ _ hMarked => hMarked.elim, ?_⟩
  · intro name a hFind
    cases hFind
  · intro n m a b hFind
    cases hFind
  · intro k name a hFind
    cases hFind
  · intro k name a hFind
    cases hFind

theorem of_reachable
    [Calendar K]
    (h : (timing K cfg).ReachableWhere Unmarked s) :
    Marks (fun _ _ => False) s := by
  refine Lib.System.reachableWhere_invariant ?_ ?_ h
  · intro t hInit
    exact of_initial hInit
  · intro t l t' hReach hMarks hUnmarked hStep
    exact Marks.step (s := t) hMarks (.of_reachable hReach.reachable)
      hUnmarked hStep

end Marks

/-
  Each trigger accounts for at most one consumed deadline of a
  timer, and a mark lasts as long as the timer.
-/
theorem fires_once
    [Calendar K]
    {cfg : Config}
    (h : (timing K cfg).ReachableWhere Unmarked s) :
    (∀ k ref, s.firedBy k ref ≤ 1) ∧
      ∀ t k name a, (timing K cfg).Path Unmarked s t →
        s.find name = some a → a.rt.fired k = true →
        ∀ m b, t.find m = some b → b.ref = a.ref →
          b.rt.fired k = true := by
  have hMarks := Marks.of_reachable h
  refine ⟨hMarks.once, ?_⟩
  intro t k name a hPath hFind hFired m b hb hRef
  have hStart : Marks (fun k' ref => k' = k ∧ ref = a.ref) s := by
    refine ⟨hMarks.known, hMarks.apart, hMarks.fresh, hMarks.once,
      hMarks.unmarked, ?_, ?_⟩
    · rintro k' ref ⟨_, rfl⟩
      exact hMarks.known name a hFind
    · rintro k' n c hc ⟨rfl, hSame⟩
      have hName := hMarks.apart n name c a hc hFind hSame
      rw [hName, hFind] at hc
      cases hc
      exact hFired
  have hAlong :
      (timing K cfg).Reachable t ∧
        Marks (fun k' ref => k' = k ∧ ref = a.ref) t := by
    refine Lib.System.path_invariant
      (I := fun u => (timing K cfg).Reachable u ∧
        Marks (fun k' ref => k' = k ∧ ref = a.ref) u)
      ?_ hPath ⟨h.reachable, hStart⟩
    rintro u l u' ⟨hReach, hU⟩ hUnmarked hStep
    exact ⟨hReach.step hStep,
      Marks.step hU (.of_reachable hReach) hUnmarked hStep⟩
  exact hAlong.2.lasting k m b hb ⟨rfl, hRef⟩

end Engine

------------------------------------------------------------
-- Runs
------------------------------------------------------------

section Runs

local instance : Calendar Nat := periodic

/- An engine with a store. -/
def durable : Config where
  namespaceText := "n"
  callback := true
  stored := true

/- Once, ten nanoseconds after the start. -/
def afterStart : Spec Nat where
  name := "a.timer"
  unit := "a.service"
  onBootSec := 0
  onStartupSec := 10
  onUnitActiveSec := 0
  onCalendar := []
  persistent := false
  onBootSecSet := false
  onStartupSecSet := true
  onUnitActiveSecSet := false

/- The stored record is read and taken over. -/
def taking : List (Label Nat) :=
  List.replicate 5 (.load "a.timer" .done)

/- The timer is armed and its deadline is consumed. -/
def firedAtStart : List (Label Nat) :=
  [.arm afterStart] ++ taking ++ [.clock (instant 20), .fireDue]

/- The callback runs to its end. -/
def completed : List (Label Nat) :=
  List.replicate 6 (.fire 0 .done)

theorem fires_once_completed :
    ∃ s t a, (timing Nat durable).ReachableWhere Engine.Unmarked s ∧
      s.find "a.timer" = some a ∧ a.rt.fired .startup = true ∧
      s.firedBy .startup 0 = 1 ∧
      (timing Nat durable).Path Engine.Unmarked s t ∧
      (s.firedBy .startup 0 ≤ 1 ∧
        ∀ m b, t.find m = some b → b.ref = a.ref →
          b.rt.fired .startup = true) := by
  have hRun :
      ((timing Nat durable).run (.fresh (instant 0)) firedAtStart).map
          (fun s =>
            ((s.find "a.timer").map (fun a => a.rt.fired .startup),
              s.firedBy .startup 0,
              decide
                ((timing Nat durable).Meets Engine.Unmarked s completed),
              ((timing Nat durable).run s completed).isSome)) =
        some (some true, 1, true, true) := by
    decide +kernel
  rcases Option.map_eq_some_iff.mp hRun with ⟨s, hs, hEq⟩
  simp only [Prod.mk.injEq, Option.map_eq_some_iff,
    decide_eq_true_eq, Option.isSome_iff_exists] at hEq
  rcases hEq with ⟨⟨a, hFind, hFired⟩, hCount, hMeets, t, ht⟩
  have hReach :
      (timing Nat durable).ReachableWhere Engine.Unmarked s :=
    Lib.System.reachableWhere_of_run firedAtStart
      (Engine.initial_fresh _) hs (by decide +kernel)
  have hPath := Lib.System.path_of_meets hMeets ht
  have hOnce := Engine.fires_once hReach
  exact ⟨s, t, a, hReach, hFind, hFired, hCount, hPath,
    hOnce.1 .startup 0, hOnce.2 t .startup "a.timer" a hPath hFind hFired⟩

/-
  The record of the callback is not written, and the timer is
  armed again.
-/
def rearmed : List (Label Nat) :=
  [.fire 0 .done, .fire 0 (.failed "disk full" false), .fire 0 .done,
    .fire 0 .done, .arm afterStart] ++ taking

/- The mark is lost, and the timer fires again. -/
theorem startup_fired_twice :
    ∃ s t u a b, (timing Nat durable).Reachable s ∧
      s.find "a.timer" = some a ∧ a.rt.fired .startup = true ∧
      (timing Nat durable).run s rearmed = some t ∧
      t.find "a.timer" = some b ∧ b.ref = a.ref ∧
      b.rt.fired .startup = false ∧
      (timing Nat durable).step t .fireDue = some u ∧
      u.firedBy .startup a.ref = 2 := by
  have hRun :
      ((timing Nat durable).run (.fresh (instant 0)) firedAtStart).map
          (fun s =>
            ((s.find "a.timer").map
                (fun a => decide (a.rt.fired .startup = true ∧ a.ref = 0)),
              ((timing Nat durable).run s rearmed).map
                (fun t =>
                  ((t.find "a.timer").map
                      (fun b =>
                        decide
                          (b.ref = 0 ∧ b.rt.fired .startup = false)),
                    ((timing Nat durable).step t .fireDue).map
                      (fun u => u.firedBy .startup 0))))) =
        some (some true, some (some true, some 2)) := by
    decide +kernel
  rcases Option.map_eq_some_iff.mp hRun with ⟨s, hs, hEq⟩
  simp only [Prod.mk.injEq, Option.map_eq_some_iff,
    decide_eq_true_eq] at hEq
  rcases hEq with
    ⟨⟨a, hFind, hFired, hRef⟩, t, ht, ⟨b, hb, hRef', hLost⟩, u, hu,
      hTwice⟩
  refine ⟨s, t, u, a, b,
    Lib.System.reachable_of_run firedAtStart (Engine.initial_fresh _) hs,
    hFind, hFired, ht, hb, hRef'.trans hRef.symm, hLost, hu, ?_⟩
  rw [hRef]
  exact hTwice

end Runs

end Timers

end Winunitd
