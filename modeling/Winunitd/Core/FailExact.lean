import Winunitd.Core.StartSettled

/-
  How one step of a start execution propagates failures.

  A job breaks on its own when its call returns an error
  other than a skip, or when it is still queued as the
  context is canceled or the execution closes.  Such a
  failure affects the jobs that reach it by `Requires=` and
  `BindsTo=` through jobs that are not active.  The jobs that
  become failed in a step are exactly the affected ones that
  were neither active nor failed, unless the failure meets a
  job whose failed state a skip has overwritten.

  Key definitions include:
    * `Exec.breaks`
    * `Exec.Affected`
    * `Exec.FailuresStand`
    * `Exec.Propagation`

  Key theorems include:
    * `Exec.tick_effect`
    * `Exec.covered_of_reachable`
    * `Exec.failure_propagation`
-/

------------------------------------------------------------
-- Failures Of One Step
------------------------------------------------------------

namespace Winunitd

namespace Core

variable {N : Type}
variable [UnitNames N]
variable {tx : Transaction N}

namespace Exec

open Executor

/- The next result in the channel is an error of `m`. -/
def errorReturned (s : Exec N) (m : N) : Prop :=
  ∃ err rest, s.finished = (m, some err) :: rest ∧
    err.isSkipped = false

/- The next step of the executor fails `m` on its own. -/
def breaks
    (tx : Transaction N)
    (s : Exec N)
    (m : N) : Prop :=
  match s.phase with
  | .head => s.ctxErr ≠ none ∧ s.Queued tx m
  | .launching _ => False
  | .awaiting => s.ex.inflight ≠ 0 ∧ s.errorReturned m
  | .draining =>
      s.ex.inflight = 0 ∧ s.Queued tx m ∨
        s.ex.inflight ≠ 0 ∧ s.errorReturned m
  | .done => False

/-
  The jobs that reach `root` by requirements through jobs
  that are not active.
-/
inductive Affected
    (tx : Transaction N)
    (s : Exec N)
    (root : N) : N → Prop where
| root : Affected tx s root root
| requirer {m other : N} :
    Affected tx s root m →
    other ∈ tx.jobNames →
    dependsOn tx other m = true →
    s.ex.states other ≠ .active →
    Affected tx s root other

/- The job becomes failed in the step. -/
def BecomesFailed (s s' : Exec N) (n : N) : Prop :=
  s.ex.states n ≠ .failed ∧ s'.ex.states n = .failed

/-
  Every job that the next failures affect and that has an
  error is failed: no skip has overwritten its state.
-/
def FailuresStand (tx : Transaction N) (s : Exec N) : Prop :=
  ∀ r n, s.breaks tx r → Affected tx s r n →
    s.ex.errors n ≠ none → s.ex.states n = .failed

/- What a step does to the states of the jobs. -/
structure Propagation
    (tx : Transaction N)
    (s : Exec N)
    (l : ExecLabel N)
    (s' : Exec N) : Prop where
  active : ∀ n, s.ex.states n = .active → s'.ex.states n = .active
  exact :
    ∀ n, BecomesFailed s s' n ↔
      s.ex.states n ≠ .failed ∧ s.ex.states n ≠ .active ∧
        ∃ r, l = .tick ∧ s.breaks tx r ∧ Affected tx s r n
  blamed :
    ∀ n, BecomesFailed s s' n → ¬ s.breaks tx n →
      ∃ m e, m ∈ tx.jobNames ∧ dependsOn tx n m = true ∧
        BecomesFailed s s' m ∧ s'.ex.errors m = some e ∧
        s'.ex.errors n = some (.dependency n m e)

variable {workers : Nat}
variable {s s' : Exec N}

/- The reach of a failure is affected by it. -/
theorem affected_of_failReach
    {root n : N}
    (h : FailReach tx s.ex root n) :
    Affected tx s root n := by
  induction h with
  | root => exact .root
  | requirer _ _ hJob _ hDep hOpen ih =>
      refine .requirer ih hJob hDep ?_
      intro hActive
      rcases jobNotYetStarted_iff.mp hOpen with hState | hState
      · rw [hState] at hActive
        cases hActive
      · rw [hState] at hActive
        cases hActive

------------------------------------------------------------
-- The Effect Of One Step
------------------------------------------------------------

/-
  A step of the executor fails jobs, or it fails none and
  settles the state of one job.
-/
inductive TickEffect
    (tx : Transaction N)
    (workers : Nat)
    (s s' : Exec N) : Prop where
| fails (ex : Executor N) :
    ex.states = s.ex.states →
    ex.errors = s.ex.errors →
    Spreads tx (s.failsAt tx workers) ex s'.ex →
    Blames tx (s.failsAt tx workers) ex s'.ex →
    Touches tx (s.failsAt tx workers) ex s'.ex →
    (∀ n, s'.InFlight n → s.InFlight n) →
    TickEffect tx workers s s'
| settles (name : N) (st : State) :
    (∀ m, ¬ s.failsAt tx workers m) →
    s'.ex.errors = s.ex.errors →
    s'.ex.states = Function.update s.ex.states name st →
    (s.ex.jobNotYetStarted name = true ∨
      s.ex.states name = .failed) →
    (st = .inactive ∨ st = .activating ∨ st = .active) →
    (∀ n, n ≠ name → s'.InFlight n → s.InFlight n) →
    (s'.InFlight name → s.ex.errors name = none) →
    TickEffect tx workers s s'

/- A pending job was not started or is failed. -/
omit [UnitNames N] in
theorem Staged.open_of_inFlight
    (h : Staged s)
    {n : N}
    (hn : s.InFlight n) :
    s.ex.jobNotYetStarted n = true ∨ s.ex.states n = .failed := by
  rcases h.inflight n hn with hState | hState
  · exact Or.inl (jobNotYetStarted_iff.mpr (Or.inr hState))
  · exact Or.inr hState

/- A job in flight is a job of the plan. -/
theorem Ordered.job_of_inFlight
    (h : Ordered tx workers s)
    {n : N}
    (hn : s.InFlight n) :
    n ∈ tx.jobNames := by
  apply h.tracked.jobs
  apply h.perm.mem_iff.mpr
  rcases hn with hn | hn | hn
  · exact List.mem_append_left _ hn
  · exact List.mem_append_right _ (List.mem_append_left _ hn)
  · apply List.mem_append_right
    apply List.mem_append_right
    simp only [returned, results, List.map_append]
    exact List.mem_append_right _ hn

/- The failures of a step, by its own roots. -/
private theorem fails_of_roots
    {roots : N → Prop}
    {ex : Executor N}
    (hRoots : ∀ m, s.failsAt tx workers m ↔ roots m)
    (hStates : ex.states = s.ex.states)
    (hErrors : ex.errors = s.ex.errors)
    (hSpread : Spreads tx roots ex s'.ex)
    (hBlames : Blames tx roots ex s'.ex)
    (hTouch : Touches tx roots ex s'.ex)
    (hFlight : ∀ n, s'.InFlight n → s.InFlight n) :
    TickEffect tx workers s s' := by
  obtain rfl : s.failsAt tx workers = roots :=
    funext (fun m => propext (hRoots m))
  exact .fails ex hStates hErrors hSpread hBlames hTouch hFlight

/- The effect of processing one result. -/
private theorem result_effect
    (hOrdered : Ordered tx workers s)
    (hStaged : Staged s)
    {phase : Phase N}
    {name : N}
    {res : Option (Err N)}
    {rest : List (N × Option (Err N))}
    (hFinished : s.finished = (name, res) :: rest)
    (hFails : ∀ m, s.failsAt tx workers m ↔ s.resultFails tx m) :
    TickEffect tx workers s
      { s with
        phase := phase
        finished := rest
        processed := s.processed ++ [(name, res)]
        ex := onFinish tx s.returning name res } := by
  have hFlight : s.InFlight name := by
    simp [InFlight, hFinished]
  have hJob := hOrdered.job_of_inFlight hFlight
  have hMay := hStaged.open_of_inFlight hFlight
  have hFewer :
      ∀ n, n ∈ (onFinish tx s.returning name res).spawned ∨
          n ∈ s.outstanding ∨ n ∈ rest.map Prod.fst →
        n ≠ name ∧ s.InFlight n := by
    intro n hn
    rw [(onFinish_frame s.returning tx name res).2.2.1] at hn
    exact hOrdered.inFlight_rest hFinished hn
  rcases result_cases tx s hFinished with ⟨ex, hEq, hCases⟩
  rw [hEq] at hFewer ⊢
  rcases hCases with ⟨hFail, err, rfl⟩ | ⟨hNot, st, rfl, hSt⟩
  · -- the result is an error, which fails its job
    have hMay' :
        (s.receiving tx name).jobNotYetStarted name = true ∨
          (s.receiving tx name).states name = .failed := by
      simpa [jobNotYetStarted] using hMay
    refine fails_of_roots ?_ (by simp) (by simp)
      (spreads_fail err hJob hMay') (blames_fail _ err hJob)
      (touches_fail _ name err) (fun n hn => (hFewer n hn).2)
    intro m
    rw [hFails m]
    constructor
    · exact resultFails_eq hFinished
    · rintro rfl
      exact hFail
  · have hNone : ∀ m, ¬ s.failsAt tx workers m := by
      intro m hm
      have hOwn := (hFails m).mp hm
      exact hNot (resultFails_eq hFinished hOwn ▸ hOwn)
    have hKinds :
        s.ex.states name = .failed ∧ st = .failed ∨
          st = .inactive ∨ st = .activating ∨ st = .active := by
      rcases hSt with ⟨_, _, _, hSt⟩ | ⟨_, hOld⟩ | ⟨_, _, hSt⟩
      · exact Or.inr (Or.inl hSt)
      · exact Or.inl hOld
      · exact Or.inr (Or.inr (Or.inr hSt))
    rcases hKinds with ⟨hOld, rfl⟩ | hKind
    · have hSame :
          (s.receiving tx name).setState name .failed =
            s.receiving tx name :=
        setState_same (by rw [receiving_states, hOld])
      rw [hSame] at hFewer ⊢
      exact .fails (s.receiving tx name) (by simp) (by simp)
        (.none _ (fun r hr => absurd hr (hNone r))) (.refl _ _)
        (.refl _ _) (fun n hn => (hFewer n hn).2)
    · exact .settles name st hNone (by simp [setState])
        (by simp [setState]) hMay hKind
        (fun n _ hn => (hFewer n hn).2)
        (fun hn => absurd rfl (hFewer name hn).1)

theorem tick_effect
    (hOrdered : Ordered tx workers s)
    (hStaged : Staged s)
    (h : s.tick tx workers = some s') :
    TickEffect tx workers s s' := by
  cases tick_cases h with
  | move phase hFails hSkips =>
      exact .fails s.ex rfl rfl
        (Spreads.none _ (fun r hr => absurd hr (hFails r)))
        (Blames.refl _ _) (Touches.refl _ _) (fun _ hn => hn)
  | queue phase err hFails hSkips =>
      have hStep : FailStep tx s.ex _ :=
        failStep_failQueued s.ex err tx.jobNames
      refine fails_of_roots hFails rfl rfl
        (spreads_failQueued err (fun _ hn => hn) s.ex)
        (blames_failQueued err (fun _ hn => hn) s.ex)
        (touches_failQueued err s.ex tx.jobNames) (fun n hn => ?_)
      simpa only [InFlight, hStep.spawned] using hn
  | refuse name rest err hPhase hNew hFails hSkips =>
      have hJob :=
        hOrdered.rest _ hPhase name List.mem_cons_self
      have hStep : FailStep tx s.ex _ := failStep_fail s.ex name err
      refine fails_of_roots hFails rfl rfl
        (spreads_fail err hJob (hStaged.open_of_new hNew))
        (blames_fail _ err hJob) (touches_fail _ name err)
        (fun n hn => ?_)
      simpa only [InFlight, hStep.spawned] using hn
  | launch name rest hNew hState hFails hSkips =>
      have hIdle : s.ex.states name = .inactive :=
        (hStaged.unlaunched name hNew).resolve_right hState
      refine .settles name .activating hFails rfl rfl
        (Or.inl (jobNotYetStarted_iff.mpr (Or.inl hIdle)))
        (Or.inr (Or.inl rfl)) ?_ ?_
      · intro n hne hn
        simpa [InFlight, hne] using hn
      · intro _
        by_contra hSome
        exact hState (hOrdered.tracked.unlaunched name hNew hSome)
  | result phase name res rest hFinished hFails hSkips =>
      exact result_effect hOrdered hStaged hFinished hFails

------------------------------------------------------------
-- Errors Cover The Requirers
------------------------------------------------------------

/-
  Every requirer of a job with an error that was not started
  has an error too, and a pending job with an error is
  failed.
-/
structure Covered
    (tx : Transaction N)
    (s : Exec N) : Prop where
  known : ∀ n, s.ex.states n ≠ .deactivating
  requirers :
    ∀ m, s.ex.errors m ≠ none →
      ∀ other ∈ tx.jobNames, dependsOn tx other m = true →
        s.ex.jobNotYetStarted other = true →
        s.ex.errors other ≠ none
  pending :
    ∀ n, s.InFlight n → s.ex.errors n ≠ none →
      s.ex.states n = .failed

namespace Covered

theorem begin
    (h : tx.executeWithLimit workers = .ok s) :
    Covered tx s := by
  obtain rfl := begin_eq h
  refine ⟨?_, ?_, ?_⟩
  · simp [start]
  · simp [start]
  · simp [start]

theorem tick
    (h : Covered tx s)
    (hSettling : Settling tx s)
    (hEffect : TickEffect tx workers s s') :
    Covered tx s' := by
  cases hEffect with
  | fails ex hStates hErrors hSpread _ _ hFlight =>
      have hStep := hSpread.step
      refine ⟨?_, ?_, ?_⟩
      · intro n hState
        rcases hStep.states n with hSame | hNew
        · rw [hSame, hStates] at hState
          exact h.known n hState
        · rw [hNew.1] at hState
          cases hState
      · intro m hm other hJob hDep hOpen
        have hOpen' := hStep.notYetStarted_back hOpen
        by_cases hOld : ex.errors m = none
        · by_cases hne : other = m
          · rw [hne]
            exact hm
          · exact hSpread.closed m hOld hm other hJob hne hDep hOpen'
        · intro hNone
          apply h.requirers m (hErrors ▸ hOld) other hJob hDep
          · simpa [jobNotYetStarted, hStates] using hOpen'
          · rw [← hErrors]
            exact hStep.errors_none hNone
      · intro n hn hSome
        by_cases hOld : ex.errors n = none
        · exact hStep.fresh n hOld hSome
        · apply hStep.failed
          rw [hStates]
          exact h.pending n (hFlight n hn) (hErrors ▸ hOld)
  | settles name st _ hErrors hStates hMay hNext hOthers hOwn =>
      refine ⟨?_, ?_, ?_⟩
      · intro n
        rw [hStates]
        by_cases hn : n = name
        · rw [hn, Function.update_self]
          rcases hNext with rfl | rfl | rfl <;> simp
        · rw [Function.update_of_ne hn]
          exact h.known n
      · intro m hm other hJob hDep hOpen
        rw [hErrors] at hm ⊢
        by_cases hn : other = name
        · subst hn
          rcases hMay with hMay | hMay
          · exact h.requirers m hm other hJob hDep hMay
          · exact hSettling.failed other hMay
        · apply h.requirers m hm other hJob hDep
          simpa [jobNotYetStarted, hStates, hn] using hOpen
      · intro n hn hSome
        rw [hErrors] at hSome
        by_cases hEq : n = name
        · subst hEq
          exact absurd (hOwn hn) hSome
        · rw [hStates, Function.update_of_ne hEq]
          exact h.pending n (hOthers n hEq hn) hSome

theorem other
    (h : Covered tx s)
    {l : ExecLabel N}
    (hl : l ≠ .tick)
    (hStep : s.step tx workers l = some s') :
    Covered tx s' := by
  rcases step_aside hl hStep with ⟨hEq, _, hFlight⟩
  refine ⟨?_, ?_, fun n hn => ?_⟩
  · rw [hEq]
    exact h.known
  · rw [hEq]
    exact h.requirers
  · have hOld := h.pending n (hFlight n hn)
    rw [hEq]
    exact hOld

/- A job that is neither active nor failed was not started. -/
theorem notYetStarted
    (h : Covered tx s)
    {n : N}
    (hActive : s.ex.states n ≠ .active)
    (hFailed : s.ex.states n ≠ .failed) :
    s.ex.jobNotYetStarted n = true := by
  have hKnown := h.known n
  rw [jobNotYetStarted_iff]
  cases hCase : s.ex.states n <;> simp_all

end Covered

theorem covered_of_reachable
    (hs : (executor tx workers).Reachable s) :
    Covered tx s := by
  refine Lib.System.reachable_invariant
    (I := Covered tx) (fun _ hInit => .begin hInit) ?_ hs
  intro s l s' hReach h hStep
  rcases settling_of_reachable hReach with ⟨hStaged, hSettling⟩
  by_cases hl : l = .tick
  · subst hl
    exact h.tick hSettling
      (tick_effect (ordered_of_reachable hReach) hStaged hStep)
  · exact h.other hl hStep

/-
  The tests for failed requirements at a launch and at a
  result never find one, since the failure has reached the
  job before.
-/
theorem failsAt_iff_breaks
    (hs : (executor tx workers).Reachable s)
    {m : N} :
    s.failsAt tx workers m ↔ s.breaks tx m := by
  have hOrdered := ordered_of_reachable hs
  have hCovered := covered_of_reachable hs
  rcases settling_of_reachable hs with ⟨hStaged, hSettling⟩
  have hResult : s.resultFails tx m ↔ s.errorReturned m := by
    unfold resultFails errorReturned
    split
    · rename_i hFinished
      simp [hFinished]
    · rename_i name err rest hFinished
      constructor
      · rintro ⟨rfl, hErr⟩
        exact ⟨err, rest, hFinished, hErr⟩
      · rintro ⟨err', rest', hEq, hErr⟩
        rw [hFinished] at hEq
        cases hEq
        exact ⟨rfl, hErr⟩
    · rename_i name rest hFinished
      constructor
      · rintro ⟨rfl, hState, hReq⟩
        have hFlight : s.InFlight m := by
          simp [InFlight, hFinished]
        have hOpen :=
          (hStaged.open_of_inFlight hFlight).resolve_right hState
        refine absurd (requiresFailed_eq_none ?_) hReq
        intro req _ hDep
        by_contra hSome
        exact hState (hCovered.pending m hFlight
          (hCovered.requirers req hSome m
            (hOrdered.job_of_inFlight hFlight) hDep hOpen))
      · rintro ⟨err', rest', hEq, _⟩
        rw [hFinished] at hEq
        cases hEq
  unfold failsAt breaks
  cases hPhase : s.phase with
  | head => exact Iff.rfl
  | launching names =>
      cases names with
      | nil => exact Iff.rfl
      | cons name rest =>
          simp only [iff_false]
          rintro ⟨rfl, _, hNew, hState, _, hReq⟩
          have hJob :=
            hOrdered.rest _ hPhase m List.mem_cons_self
          have hClear : s.ex.errors m = none := by
            by_contra hSome
            exact hState
              (hOrdered.tracked.unlaunched m hNew hSome)
          exact hReq (requiresFailed_eq_none
            (hSettling.open_ m hJob hNew hClear))
  | awaiting => simp only [hResult]
  | draining => simp only [hResult]
  | done => exact Iff.rfl

------------------------------------------------------------
-- Exact Propagation
------------------------------------------------------------

namespace TickEffect

variable {n : N}

section

variable (h : TickEffect tx workers s s')

include h

/- An active job stays active. -/
theorem active
    (hActive : s.ex.states n = .active) :
    s'.ex.states n = .active := by
  cases h with
  | fails ex hStates _ hSpread _ _ _ =>
      rcases hSpread.step.states n with hSame | ⟨_, hOpen, _⟩
      · rw [hSame, hStates]
        exact hActive
      · rw [jobNotYetStarted_iff, hStates, hActive] at hOpen
        simp at hOpen
  | settles name st _ _ hStates hMay _ _ _ =>
      have hne : n ≠ name := by
        rintro rfl
        rw [jobNotYetStarted_iff, hActive] at hMay
        simp at hMay
      rw [hStates, Function.update_of_ne hne]
      exact hActive

/- A job that becomes failed is in reach of a failure. -/
theorem reach
    (hFailed : BecomesFailed s s' n) :
    ∃ r, s.failsAt tx workers r ∧ FailReach tx s.ex r n := by
  cases h with
  | fails ex hStates hErrors _ _ hTouch _ =>
      have hChanged : s'.ex.states n ≠ ex.states n := by
        rw [hStates, hFailed.2]
        exact Ne.symm hFailed.1
      rcases hTouch n hChanged with ⟨r, hr, hReach⟩
      exact ⟨r, hr, hReach.congr hStates.symm hErrors.symm⟩
  | settles name st _ _ hStates _ hNext _ _ =>
      rcases hFailed with ⟨hOld, hNew⟩
      rw [hStates] at hNew
      by_cases hn : n = name
      · rw [hn, Function.update_self] at hNew
        rcases hNext with rfl | rfl | rfl <;> cases hNew
      · rw [Function.update_of_ne hn] at hNew
        exact absurd hNew hOld

/- Every job that a failure affects has an error. -/
theorem errors
    (hCovered : Covered tx s)
    (hSettling : Settling tx s)
    {r n : N}
    (hr : s.failsAt tx workers r)
    (hAffected : Affected tx s r n) :
    s'.ex.errors n ≠ none := by
  cases h with
  | settles name st hNone _ _ _ _ _ _ => exact absurd hr (hNone r)
  | fails ex hStates hErrors hSpread _ _ _ =>
      have hKept :
          ∀ m, s.ex.errors m ≠ none → s'.ex.errors m ≠ none := by
        intro m hm hNone
        apply hm
        rw [← hErrors]
        exact hSpread.step.errors_none hNone
      induction hAffected with
      | root => exact hSpread.hit r hr
      | @requirer m other _ hJob hDep hState ih =>
          by_cases hFailed : s.ex.states other = .failed
          · exact hKept other (hSettling.failed other hFailed)
          have hOpen := hCovered.notYetStarted hState hFailed
          by_cases hOld : s.ex.errors m = none
          · by_cases hne : other = m
            · rw [hne]
              exact ih
            · apply hSpread.closed m (by rw [hErrors, hOld]) ih
                other hJob hne hDep
              simpa [jobNotYetStarted, hStates] using hOpen
          · exact hKept other
              (hCovered.requirers m hOld other hJob hDep hOpen)

/- A job with a fresh error becomes failed. -/
theorem becomesFailed
    (hSettling : Settling tx s)
    (hNone : s.ex.errors n = none)
    (hSome : s'.ex.errors n ≠ none) :
    BecomesFailed s s' n := by
  refine ⟨fun hFailed => hSettling.failed n hFailed hNone, ?_⟩
  cases h with
  | settles name st _ hErrors _ _ _ _ _ =>
      rw [hErrors] at hSome
      exact absurd hNone hSome
  | fails ex _ hErrors hSpread _ _ _ =>
      exact hSpread.step.fresh n (by rw [hErrors, hNone]) hSome

/- A fresh error that is not of a root names a requirement. -/
theorem blamed
    (hNone : s.ex.errors n = none)
    (hSome : s'.ex.errors n ≠ none)
    (hOther : ¬ s.failsAt tx workers n) :
    ∃ m e, m ∈ tx.jobNames ∧ dependsOn tx n m = true ∧
      s'.ex.errors m = some e ∧
      s'.ex.errors n = some (.dependency n m e) := by
  cases h with
  | settles name st _ hErrors _ _ _ _ _ =>
      rw [hErrors] at hSome
      exact absurd hNone hSome
  | fails ex _ hErrors _ hBlames _ _ =>
      exact (hBlames n (by rw [hErrors, hNone]) hSome).resolve_left
        hOther

end

end TickEffect

/- Propagation in a step of the executor. -/
private theorem propagation_tick
    (hs : (executor tx workers).Reachable s)
    (hStep : s.tick tx workers = some s')
    (hStand : s.FailuresStand tx) :
    Propagation tx s .tick s' := by
  have hCovered := covered_of_reachable hs
  rcases settling_of_reachable hs with ⟨hStaged, hSettling⟩
  have hEffect :=
    tick_effect (ordered_of_reachable hs) hStaged hStep
  have hSound :
      ∀ n, BecomesFailed s s' n →
        ∃ r, s.breaks tx r ∧ Affected tx s r n := by
    intro n hn
    rcases hEffect.reach hn with ⟨r, hr, hReach⟩
    exact ⟨r, (failsAt_iff_breaks hs).mp hr,
      affected_of_failReach hReach⟩
  have hInactive :
      ∀ n, BecomesFailed s s' n → s.ex.states n ≠ .active := by
    intro n hn hActive
    have hFailed := hn.2
    rw [hEffect.active hActive] at hFailed
    cases hFailed
  refine ⟨fun n => hEffect.active, ?_, ?_⟩
  · intro n
    constructor
    · intro hn
      rcases hSound n hn with ⟨r, hr, hAffected⟩
      exact ⟨hn.1, hInactive n hn, r, rfl, hr, hAffected⟩
    · rintro ⟨hState, _, r, _, hr, hAffected⟩
      have hNone : s.ex.errors n = none := by
        by_contra hSome
        exact hState (hStand r n hr hAffected hSome)
      exact hEffect.becomesFailed hSettling hNone
        (hEffect.errors hCovered hSettling
          ((failsAt_iff_breaks hs).mpr hr) hAffected)
  · intro n hn hOther
    rcases hSound n hn with ⟨r, hr, hAffected⟩
    have hNone : s.ex.errors n = none := by
      by_contra hSome
      exact hn.1 (hStand r n hr hAffected hSome)
    have hSome :=
      hEffect.errors hCovered hSettling
        ((failsAt_iff_breaks hs).mpr hr) hAffected
    rcases hEffect.blamed hNone hSome
        (fun hFails => hOther ((failsAt_iff_breaks hs).mp hFails))
      with ⟨m, e, hm, hDep, hErr, hOwn⟩
    refine ⟨m, e, hm, hDep, ?_, hErr, hOwn⟩
    -- an old error of `m` would have reached `n` already
    apply hEffect.becomesFailed hSettling
    · by_contra hOld
      have hJob : n ∈ tx.jobNames := by
        cases hAffected with
        | root => exact absurd hr hOther
        | requirer _ hJob _ _ => exact hJob
      have hOpen := hCovered.notYetStarted (hInactive n hn) hn.1
      exact hCovered.requirers m hOld n hJob hDep hOpen hNone
    · rw [hErr]
      simp

/-
  In every run an active job stays active, and if the failed
  states of the affected jobs still stand, a step fails
  exactly the affected jobs that are not active.  Each of
  them that did not break on its own is blamed on a job that
  it requires and that becomes failed in the same step.  The
  recursion of a failure ends: more fuel changes nothing.
-/
theorem failure_propagation
    (hs : (executor tx workers).Reachable s)
    {l : ExecLabel N}
    (hStep : s.step tx workers l = some s')
    (hStand : l = .tick → s.FailuresStand tx) :
    Propagation tx s l s' ∧
      ∀ fuel ex name err, name ∈ tx.jobNames → failFuel tx ≤ fuel →
        markFailed tx fuel ex name err = fail tx ex name err := by
  constructor
  · by_cases hl : l = .tick
    · subst hl
      exact propagation_tick hs hStep (hStand rfl)
    · have hStates : s'.ex.states = s.ex.states := by
        rw [(step_aside hl hStep).1]
      have hSame : ∀ n, ¬ BecomesFailed s s' n := by
        rintro n ⟨hOld, hNew⟩
        rw [hStates] at hNew
        exact hOld hNew
      refine ⟨?_, ?_, ?_⟩
      · intro n hActive
        rw [hStates]
        exact hActive
      · intro n
        constructor
        · exact fun hn => absurd hn (hSame n)
        · rintro ⟨_, _, r, hTick, _⟩
          exact absurd hTick hl
      · exact fun n hn => absurd hn (hSame n)
  · intro fuel ex name err hJob hFuel
    have hLess : unerrored tx ex < failFuel tx :=
      unerrored_lt_failFuel ex
    exact markFailed_fuel err hJob (by omega) hLess

section Runs

local instance propagationNames : UnitNames String := asciiNames

/- A failed requirement brings down a start in progress. -/
theorem failure_propagation_unordered :
    ∃ g tx s s', build unordered = .ok g ∧
      g.planStart ["a.service"] = .ok tx ∧
      (executor tx 2).Reachable s ∧
      s.step tx 2 .tick = some s' ∧
      s.FailuresStand tx ∧
      BecomesFailed s s' "a.service" ∧
      (Propagation tx s .tick s' ∧
        ∀ fuel ex name err, name ∈ tx.jobNames →
          failFuel tx ≤ fuel →
          markFailed tx fuel ex name err = fail tx ex name err) := by
  have hRun :
      ∃ g tx s s', build unordered = .ok g ∧
        g.planStart ["a.service"] = .ok tx ∧
        (executor tx 2).Reachable s ∧
        s.step tx 2 .tick = some s' ∧
        s.FailuresStand tx ∧
        BecomesFailed s s' "a.service" :=
    ⟨_, _, _, _, rfl, rfl,
      Lib.System.reachable_of_run
        [.tick, .tick, .tick, .tick, .invoke "a.service",
          .invoke "b.service",
          .finish "b.service" (some (.text "exit"))]
        rfl rfl,
      rfl, fun _ _ _ _ hSome => absurd rfl hSome,
      by decide, rfl⟩
  rcases hRun with
    ⟨g, tx, s, s', hBuild, hPlan, hs, hStep, hStand, hFailed⟩
  exact ⟨g, tx, s, s', hBuild, hPlan, hs, hStep, hStand, hFailed,
    failure_propagation hs hStep (fun _ => hStand)⟩

/- Two requirements below a unit that another one requires. -/
def twoBelow : List (Option (UnitFile String)) :=
  [some
      { UnitFile.bare "w.service" .service with
        requires := ["x.service"] },
    some
      { UnitFile.bare "x.service" .service with
        requires := ["y.service", "z.service"] },
    some (.bare "y.service" .service),
    some (.bare "z.service" .service)]

/- Back to the channel, past a pass that launches nothing. -/
def fullPass : List (ExecLabel String) :=
  [.tick, .tick, .tick, .tick, .tick, .tick]

/-
  All four calls are in progress.  The first requirement
  fails, which fails the two units above it; these report
  skips; then the second requirement returns an error.
-/
def skipsThenFailure : List (ExecLabel String) :=
  fullPass ++
    [.invoke "w.service", .invoke "x.service", .invoke "y.service",
      .invoke "z.service",
      .finish "y.service" (some (.text "exit")), .tick] ++
    fullPass ++
    [.finish "x.service" (some .skipped), .tick] ++
    fullPass ++
    [.finish "w.service" (some .skipped), .tick] ++
    fullPass ++
    [.finish "z.service" (some (.text "exit"))]

/-
  A failure stops at a unit whose error a skip has hidden:
  the unit above it is not active and does not become failed.
-/
theorem failure_stops_at_skipped :
    ∃ g tx s s', build twoBelow = .ok g ∧
      g.planStart ["w.service"] = .ok tx ∧
      (executor tx 4).Reachable s ∧
      s.step tx 4 .tick = some s' ∧
      s.breaks tx "z.service" ∧
      Affected tx s "z.service" "w.service" ∧
      s.ex.states "w.service" = .inactive ∧
      BecomesFailed s s' "x.service" ∧
      s'.ex.states "w.service" = .inactive := by
  refine ⟨_, _, _, _, rfl, rfl,
    Lib.System.reachable_of_run skipsThenFailure rfl rfl,
    rfl, ⟨by decide, _, _, rfl, rfl⟩, ?_, rfl, ⟨by decide, rfl⟩, rfl⟩
  refine .requirer (m := "x.service") ?_ (by decide) rfl (by decide)
  exact .requirer .root (by decide) rfl (by decide)

end Runs

end Exec

end Core

end Winunitd
