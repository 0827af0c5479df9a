import Winunitd.Core.StartSettled

/-
  The outcome of a start does not depend on scheduling.

  `MeetsSpec` is a recursive specification of the final
  states.  Where every requirement between jobs is also an
  ordering, it has one solution, as the waits have no cycle.
  `Determined` shows that every execution without a
  cancellation ends in it: a job is launched only when its
  requirements have returned without an error, so a failure
  reaches only jobs that have not been launched.

  Key definitions include:
    * `ownOutcome`, `jobOutcome`
    * `MeetsSpec`
    * `Exec.Determined`

  Key theorems include:
    * `MeetsSpec.unique`
    * `Exec.Determined.step`
    * `Exec.start_outcome`
-/

------------------------------------------------------------
-- Specification
------------------------------------------------------------

namespace Winunitd

namespace Core

open Lib.Digraph (Acyclic)
open Executor

variable {N : Type}
variable [UnitNames N]
variable {tx : Transaction N}

/- The state that a job's own start leaves it in. -/
def ownOutcome (res : Option (Err N)) : State :=
  match res with
  | none => .active
  | some err => if err.isSkipped then .inactive else .failed

/-
  The state of a job, given the results of the starter and
  the states of the jobs it requires.
-/
def jobOutcome
    (tx : Transaction N)
    (res : N → Option (Err N))
    (states : N → State)
    (n : N) :
    State :=
  if ∃ req ∈ tx.jobNames,
      dependsOn tx n req = true ∧ states req = .failed then
    .failed
  else
    ownOutcome (res n)

/- The states of all jobs are their outcomes. -/
def MeetsSpec
    (tx : Transaction N)
    (res : N → Option (Err N))
    (states : N → State) : Prop :=
  ∀ n ∈ tx.jobNames, states n = jobOutcome tx res states n

/- Every requirement between jobs is also an ordering. -/
def RequirementsOrdered (tx : Transaction N) : Prop :=
  ∀ n ∈ tx.jobNames, ∀ req ∈ tx.jobNames,
    dependsOn tx n req = true → req ∈ tx.waitsFor n

/- The specification determines the state of every job. -/
theorem MeetsSpec.unique
    (hRequired : RequirementsOrdered tx)
    (hAcyclic : Acyclic (WaitsIn tx.jobNames tx.waitsFor))
    {res : N → Option (Err N)}
    {states states' : N → State}
    (h : MeetsSpec tx res states)
    (h' : MeetsSpec tx res states') :
    ∀ n ∈ tx.jobNames, states n = states' n := by
  refine hAcyclic.induction ?_
  intro n hn ih
  have hSame :
      ∀ req ∈ tx.jobNames, dependsOn tx n req = true →
        states req = states' req := by
    intro req hReq hDep
    exact ih req hReq ⟨hRequired n hn req hReq hDep, hReq⟩
  rw [h n hn, h' n hn]
  unfold jobOutcome
  congr 1
  apply propext
  constructor
  · rintro ⟨req, hReq, hDep, hFailed⟩
    exact ⟨req, hReq, hDep, (hSame req hReq hDep).symm.trans hFailed⟩
  · rintro ⟨req, hReq, hDep, hFailed⟩
    exact ⟨req, hReq, hDep, (hSame req hReq hDep).trans hFailed⟩

------------------------------------------------------------
-- Executions With Fixed Results
------------------------------------------------------------

namespace Exec

variable {workers : Nat}
variable {s s' : Exec N}
variable {res : N → Option (Err N)}

/-
  The context is not canceled, and a starter call returns
  the result of its unit.
-/
def Fixed
    (res : N → Option (Err N))
    (_ : Exec N)
    (l : ExecLabel N) : Prop :=
  (∀ deadline, l ≠ .cancel deadline) ∧
    ∀ n r, l = .finish n r → r = res n

omit [UnitNames N] in
theorem mem_returned
    {n : N}
    (hn : n ∈ s.processed.map Prod.fst) :
    n ∈ s.returned := by
  unfold returned results
  rw [List.map_append]
  exact List.mem_append_left _ hn

/-
  What a step of the executor's own goroutine does as long as
  the context is not canceled.
-/
inductive QuietTick
    (tx : Transaction N)
    (s : Exec N) : Exec N → Prop where
| move (phase : Phase N) : QuietTick tx s { s with phase := phase }
| launch (name : N) (rest : List N) :
    name ∈ tx.jobNames →
    s.ex.launched name = false →
    s.ex.states name ≠ .failed →
    s.ex.remaining name = 0 →
    QuietTick tx s
      { s with
        phase := .launching rest
        ex :=
          { s.ex with
            launched := Function.update s.ex.launched name true
            states := Function.update s.ex.states name .activating
            started := s.ex.started ++ [name]
            inflight := s.ex.inflight + 1
            spawned := s.ex.spawned ++ [name] } }
| result
    (phase : Phase N)
    (name : N)
    (r : Option (Err N))
    (rest : List (N × Option (Err N))) :
    s.finished = (name, r) :: rest →
    QuietTick tx s
      { s with
        phase := phase
        finished := rest
        processed := s.processed ++ [(name, r)]
        ex :=
          onFinish tx
            { s.ex with inflight := s.ex.inflight - 1 } name r }

theorem quiet_receive
    {next : Phase N}
    (hStep : s.receive tx next = some s') :
    QuietTick tx s s' := by
  unfold receive at hStep
  split at hStep
  · cases hStep
  · rename_i name r rest hFinished
    cases hStep
    exact .result next name r rest hFinished

theorem quiet_tick
    (hSettling : Settling tx s)
    (hOrdered : Ordered tx workers s)
    (hAcyclic : Acyclic (WaitsIn tx.jobNames tx.waitsFor))
    (hCtx : s.ctxErr = none)
    (hStep : s.tick tx workers = some s') :
    QuietTick tx s s' := by
  unfold Exec.tick at hStep
  split at hStep
  case h_1 =>
    split at hStep
    · rename_i err hErr
      rw [hCtx] at hErr
      cases hErr
    · cases hStep
      exact .move _
  case h_2 =>
    cases hStep
    exact .move _
  case h_3 name ns hPhase =>
    split at hStep
    · cases hStep
      exact .move _
    · cases hStep
      have hJob : name ∈ tx.jobNames :=
        hOrdered.rest _ hPhase name List.mem_cons_self
      rcases hSettling.attempt hOrdered hJob with
        ⟨hSame, _⟩ | hLaunch
      · rw [hSame]
        exact .move _
      · rcases tryLaunch_cases s.ex tx name with
          hFail | ⟨hNew, hState, hZero, _, hEq⟩
        · rw [hFail.inflight] at hLaunch
          omega
        · rw [hEq]
          exact .launch name ns hJob hNew hState hZero
  case h_4 =>
    split at hStep
    · cases hStep
      exact .move _
    · exact quiet_receive hStep
  case h_5 hPhase =>
    split at hStep
    · cases hStep
      rw [hSettling.close hAcyclic hOrdered hCtx hPhase]
      exact .move _
    · exact quiet_receive hStep
  case h_6 => cases hStep

------------------------------------------------------------
-- Determined Outcomes
------------------------------------------------------------

/-
  The launched jobs have requirements that returned without
  an error, so their outcome is their own; the rejected ones
  have a requirement with an error.
-/
structure Determined
    (tx : Transaction N)
    (res : N → Option (Err N))
    (s : Exec N) : Prop where
  ctx : s.ctxErr = none
  agreed : ∀ n r, (n, r) ∈ s.results → r = res n
  required :
    ∀ n, s.ex.launched n = true →
      ∀ req ∈ tx.jobNames, dependsOn tx n req = true →
        req ∈ s.processed.map Prod.fst ∧ s.ex.errors req = none
  processed :
    ∀ n ∈ s.processed.map Prod.fst,
      s.ex.states n = ownOutcome (res n) ∧
        (s.ex.errors n ≠ none ↔ ownOutcome (res n) = .failed)
  pending :
    ∀ n, s.ex.launched n = true →
      n ∉ s.processed.map Prod.fst → s.ex.errors n = none
  rejected :
    ∀ n, s.ex.launched n = false → s.ex.errors n ≠ none →
      ∃ req ∈ tx.jobNames, dependsOn tx n req = true ∧
        s.ex.errors req ≠ none

namespace Determined

theorem begin
    (h : tx.executeWithLimit workers = .ok s) :
    Determined tx res s := by
  obtain rfl := begin_eq h
  constructor
  · rfl
  · simp [results]
  · simp [start]
  · simp
  · simp [start]
  · simp [start]

variable {name : N}
variable {r : Option (Err N)}
variable {rest : List (N × Option (Err N))}

section

variable (h : Determined tx res s)

include h

section

variable (hOrdered : Ordered tx workers s)

include hOrdered

/- The next result of the channel, and what it fails. -/
theorem result_own
    (hFinished : s.finished = (name, r) :: rest) :
    r = res name ∧ s.ex.launched name = true ∧
      s.ex.errors name = none ∧
      (s.resultFails tx name ↔ ownOutcome r = .failed) := by
  have hResult : r = res name := by
    apply h.agreed
    simp [results, hFinished]
  have hLaunched : s.ex.launched name = true := by
    apply hOrdered.launched_of_returned
    simp [returned, results, hFinished]
  have hFresh := (hOrdered.head_fresh hFinished).2.2.2
  refine ⟨hResult, hLaunched, h.pending name hLaunched hFresh, ?_⟩
  cases hr : r with
  | some err =>
      rw [hr] at hFinished
      simp [resultFails, hFinished, ownOutcome]
  | none =>
      have hFree : requiresFailed tx s.ex name = none := by
        apply requiresFailed_eq_none
        intro req hReq hDep
        exact (h.required name hLaunched req hReq hDep).2
      rw [hr] at hFinished
      simp [resultFails, hFinished, ownOutcome, hFree]

/-
  A failure of the next result goes on to jobs that have not
  been launched: a launched one requires only jobs that were
  processed before.
-/
theorem unlaunched_of_reach
    (hFinished : s.finished = (name, r) :: rest)
    {k : N}
    (hReach : FailReach tx s.ex name k) :
    k = name ∨ s.ex.launched k = false ∧
      ∃ req ∈ tx.jobNames, dependsOn tx k req = true ∧
        FailReach tx s.ex name req := by
  have hName : name ∈ tx.jobNames := by
    apply hOrdered.tracked.jobs
    exact (hOrdered.tracked.launched name).mp
      (h.result_own hOrdered hFinished).2.1
  induction hReach with
  | root => exact Or.inl rfl
  | @requirer m other hBefore _ hJob _ hDep _ ih =>
      right
      have hMid : m ∈ tx.jobNames := by
        cases hBefore with
        | root => exact hName
        | requirer _ _ hJob _ _ _ => exact hJob
      refine ⟨?_, m, hMid, hDep, hBefore⟩
      by_contra hLaunched
      have hDone :=
        (h.required other (by simpa using hLaunched) m hMid hDep).1
      rcases ih with rfl | ⟨hNew, _⟩
      · exact (hOrdered.head_fresh hFinished).2.2.2 hDone
      · rw [hOrdered.launched_of_returned (mem_returned hDone)] at hNew
        cases hNew

/- A launch finds every requirement processed. -/
theorem launch
    (hRequired : RequirementsOrdered tx)
    (hSettling : Settling tx s)
    (hJob : name ∈ tx.jobNames)
    (hNew : s.ex.launched name = false)
    (hState : s.ex.states name ≠ .failed)
    (hZero : s.ex.remaining name = 0)
    (rest : List N) :
    Determined tx res
      { s with
        phase := .launching rest
        ex := s.ex.launch name } := by
  have hClear : s.ex.errors name = none := by
    by_contra hSome
    exact hState (hOrdered.tracked.unlaunched name hNew hSome)
  have hUnseen : name ∉ s.processed.map Prod.fst := by
    intro hDone
    rw [hOrdered.launched_of_returned (mem_returned hDone)] at hNew
    cases hNew
  refine
    { ctx := h.ctx
      agreed := h.agreed
      required := ?_
      processed := ?_
      pending := ?_
      rejected := ?_ }
  · intro n hn req hReq hDep
    by_cases hEq : n = name
    · rw [hEq] at hDep
      have hFree :=
        hSettling.open_ name hJob hNew hClear req hReq hDep
      have hReleased :=
        hOrdered.tracked.counted.released_of_zero hJob hZero
          (hRequired name hJob req hReq hDep)
      rcases (hOrdered.tracked.released req).mp hReleased with
        hDone | ⟨_, hSome⟩
      · exact ⟨hDone, hFree⟩
      · exact absurd hFree hSome
    · simp only [Function.update_apply, if_neg hEq] at hn
      exact h.required n hn req hReq hDep
  · intro n hn
    have hNe : n ≠ name := fun hEq => hUnseen (hEq ▸ hn)
    simp only [Function.update_apply, if_neg hNe]
    exact h.processed n hn
  · intro n hn hUnprocessed
    by_cases hEq : n = name
    · rw [hEq]
      exact hClear
    · simp only [Function.update_apply, if_neg hEq] at hn
      exact h.pending n hn hUnprocessed
  · intro n hn hSome
    by_cases hEq : n = name
    · rw [hEq] at hSome
      exact absurd hClear hSome
    · simp only [Function.update_apply, if_neg hEq] at hn
      exact h.rejected n hn hSome

section

variable (hFinished : s.finished = (name, r) :: rest)

include hFinished

/- A result leaves its job in the job's own outcome. -/
theorem result_outcome
    (hSettling : Settling tx s)
    (hStaged : Staged s) :
    (onFinish tx s.returning name r).states name = ownOutcome r ∧
      ((onFinish tx s.returning name r).errors name ≠ none ↔
        ownOutcome r = .failed) := by
  rcases h.result_own hOrdered hFinished with ⟨_, _, hClear, hOwn⟩
  rcases result_cases tx s hFinished with
    ⟨ex, hEq, ⟨hFails, err, rfl⟩ | ⟨hNot, st, rfl, hSt⟩⟩
  · have hErr :=
      (result_errors_iff hOrdered hStaged hFinished).mpr
        (Or.inr ⟨name, hFails, .root⟩)
    have hOutcome := hOwn.mp hFails
    refine ⟨?_, iff_of_true hErr hOutcome⟩
    rw [hEq] at hErr ⊢
    rw [hOutcome]
    apply (failStep_fail _ name err).fresh name _ hErr
    rw [receiving_errors]
    exact hClear
  · rw [hEq]
    rcases hSt with
      ⟨err, rfl, hSkip, rfl⟩ | ⟨_, hFailed, _⟩ | ⟨rfl, _, rfl⟩
    · simp [setState, ownOutcome, hSkip, hClear]
    · exact absurd hClear (hSettling.failed name hFailed)
    · simp [setState, ownOutcome, hClear]

/- A result changes no other job that has been launched. -/
theorem result_other
    (hStaged : Staged s)
    {n : N}
    (hNe : n ≠ name)
    (hLaunched : s.ex.launched n = true) :
    (onFinish tx s.returning name r).errors n ≠ none ↔
      s.ex.errors n ≠ none := by
  rw [result_errors_iff hOrdered hStaged hFinished]
  constructor
  · rintro (hOld | ⟨m, hm, hReach⟩)
    · exact hOld
    · rw [resultFails_eq hFinished hm] at hReach
      rcases h.unlaunched_of_reach hOrdered hFinished hReach with
        hEq | ⟨hNew, _⟩
      · exact absurd hEq hNe
      · rw [hLaunched] at hNew
        cases hNew
  · exact Or.inl

theorem result
    (hSettling : Settling tx s)
    (hStaged : Staged s)
    (phase : Phase N) :
    Determined tx res
      { s with
        phase := phase
        finished := rest
        processed := s.processed ++ [(name, r)]
        ex := onFinish tx s.returning name r } := by
  have hFrame := onFinish_frame s.returning tx name r
  have hFresh := (hOrdered.head_fresh hFinished).2.2.2
  have hOwn := h.result_own hOrdered hFinished
  have hErrors := fun k : N =>
    result_errors_iff hOrdered hStaged hFinished (k := k)
  have hSplit :
      ∀ n, n ∈ (s.processed ++ [(name, r)]).map Prod.fst ↔
        n ∈ s.processed.map Prod.fst ∨ n = name := by
    intro n
    rw [List.map_append, List.mem_append]
    simp
  refine
    { ctx := h.ctx
      agreed := ?_
      required := ?_
      processed := ?_
      pending := ?_
      rejected := ?_ }
  · intro n q hMem
    apply h.agreed n q
    simpa [results, hFinished] using hMem
  · intro n hn req hReq hDep
    simp only [hFrame.1] at hn
    rcases h.required n hn req hReq hDep with ⟨hDone, hClear⟩
    refine ⟨(hSplit req).mpr (Or.inl hDone), ?_⟩
    by_contra hSome
    have hNe : req ≠ name := fun hEq => hFresh (hEq ▸ hDone)
    exact (h.result_other hOrdered hFinished hStaged hNe
      (hOrdered.launched_of_returned (mem_returned hDone))).mp
      hSome hClear
  · intro n hn
    rcases (hSplit n).mp hn with hDone | rfl
    · have hNe : n ≠ name := fun hEq => hFresh (hEq ▸ hDone)
      rcases h.processed n hDone with ⟨hState, hErr⟩
      have hSame :=
        h.result_other hOrdered hFinished hStaged hNe
          (hOrdered.launched_of_returned (mem_returned hDone))
      refine ⟨?_, hSame.trans hErr⟩
      rcases result_states tx hFinished hNe with
        hKept | ⟨hFailed, hSome⟩
      · exact hKept.trans hState
      · exact hFailed.trans (hErr.mp (hSame.mp hSome)).symm
    · rw [← hOwn.1]
      exact h.result_outcome hOrdered hFinished hSettling hStaged
  · intro n hn hUnprocessed
    simp only [hFrame.1] at hn
    rw [hSplit, not_or] at hUnprocessed
    by_contra hSome
    exact (h.result_other hOrdered hFinished hStaged
      hUnprocessed.2 hn).mp hSome (h.pending n hn hUnprocessed.1)
  · intro n hn hSome
    simp only [hFrame.1] at hn
    rcases (hErrors n).mp hSome with hOld | ⟨m, hm, hReach⟩
    · rcases h.rejected n hn hOld with ⟨req, hReq, hDep, hErr⟩
      exact ⟨req, hReq, hDep, (hErrors req).mpr (Or.inl hErr)⟩
    · have hRoot := resultFails_eq hFinished hm
      rw [hRoot] at hReach hm
      rcases h.unlaunched_of_reach hOrdered hFinished hReach with
        rfl | ⟨_, req, hReq, hDep, hFirst⟩
      · rw [hOwn.2.1] at hn
        cases hn
      · exact ⟨req, hReq, hDep,
          (hErrors req).mpr (Or.inr ⟨name, hm, hFirst⟩)⟩

end

theorem step
    {l : ExecLabel N}
    (hRequired : RequirementsOrdered tx)
    (hAcyclic : Acyclic (WaitsIn tx.jobNames tx.waitsFor))
    (hSettling : Settling tx s)
    (hStaged : Staged s)
    (hFixed : Fixed res s l)
    (hStep : s.step tx workers l = some s') :
    Determined tx res s' := by
  cases l with
  | cancel deadline => exact absurd rfl (hFixed.1 deadline)
  | tick =>
      cases quiet_tick hSettling hOrdered hAcyclic h.ctx hStep with
      | move phase =>
          exact { h with }
      | launch name rest hJob hNew hState hZero =>
          exact h.launch hOrdered hRequired hSettling hJob hNew
            hState hZero rest
      | result phase name r rest hFinished =>
          exact h.result hOrdered hFinished hSettling hStaged phase
  | invoke name =>
      simp only [Exec.step] at hStep
      split at hStep
      · cases hStep
        exact { h with }
      · cases hStep
  | finish name r =>
      simp only [Exec.step] at hStep
      split at hStep
      · cases hStep
        refine ⟨h.ctx, ?_, h.required, h.processed, h.pending,
          h.rejected⟩
        intro n q hMem
        simp only [results, List.mem_append, List.mem_singleton,
          Prod.mk.injEq] at hMem
        rcases hMem with hOld | hOld | ⟨rfl, rfl⟩
        · exact h.agreed n q (List.mem_append_left _ hOld)
        · exact h.agreed n q (List.mem_append_right _ hOld)
        · exact hFixed.2 n q rfl
      · cases hStep

/- A job with an error is failed. -/
theorem failed
    {n : N}
    (hErr : s.ex.errors n ≠ none) :
    s.ex.states n = .failed := by
  cases hLaunched : s.ex.launched n with
  | false => exact hOrdered.tracked.unlaunched n hLaunched hErr
  | true =>
      have hDone : n ∈ s.processed.map Prod.fst := by
        by_contra hNot
        exact hErr (h.pending n hLaunched hNot)
      rcases h.processed n hDone with ⟨hState, hOwn⟩
      exact hState.trans (hOwn.mp hErr)

end

end

end Determined

------------------------------------------------------------
-- One Outcome
------------------------------------------------------------

theorem determined_of_reachable
    (hRequired : RequirementsOrdered tx)
    (hs : (executor tx workers).ReachableWhere (Fixed res) s) :
    Determined tx res s := by
  have hAcyclic : Acyclic (WaitsIn tx.jobNames tx.waitsFor) := by
    rcases hs with ⟨s₀, hInit, _⟩
    exact (valid_of_begin hInit).2
  refine Lib.System.reachableWhere_invariant
    (I := Determined tx res) (fun s hInit => .begin hInit) ?_ hs
  intro s l s' hReach h hFixed hStep
  have hAny := hReach.reachable
  rcases settling_of_reachable hAny with ⟨hStaged, hSettling⟩
  exact h.step (ordered_of_reachable hAny) hRequired hAcyclic
    hSettling hStaged hFixed hStep

/- A returned execution meets the specification. -/
theorem meetsSpec_of_done
    (hRequired : RequirementsOrdered tx)
    (hs : (executor tx workers).ReachableWhere (Fixed res) s)
    (hDone : s.phase = .done) :
    MeetsSpec tx res s.ex.states := by
  intro n hn
  have h := determined_of_reachable hRequired hs
  have hAny := hs.reachable
  have hOrdered := ordered_of_reachable hAny
  have hSettling := (settling_of_reachable hAny).2
  unfold jobOutcome
  cases hLaunched : s.ex.launched n with
  | true =>
      have hProcessed : n ∈ s.processed.map Prod.fst :=
        hOrdered.processed_of_idle (idle_of_done hAny hDone) hLaunched
      rw [if_neg]
      · exact (h.processed n hProcessed).1
      · rintro ⟨req, hReq, hDep, hFailed⟩
        exact hSettling.failed req hFailed
          (h.required n hLaunched req hReq hDep).2
  | false =>
      have hErr : s.ex.errors n ≠ none := by
        rcases settled_of_done hAny hDone n hn with hOld | hErr
        · rw [hLaunched] at hOld
          cases hOld
        · exact hErr
      rcases h.rejected n hLaunched hErr with
        ⟨req, hReq, hDep, hReqErr⟩
      rw [if_pos ⟨req, hReq, hDep, h.failed hOrdered hReqErr⟩]
      exact h.failed hOrdered hErr

/- Without a cancellation an execution returns as well. -/
theorem fixed_returns
    (res : N → Option (Err N))
    (hs : (executor tx workers).Reachable s) :
    (executor tx workers).Inevitable (Fixed res)
      (fun s => s.phase = .done) s := by
  refine returns_where hs (fun s hReach hBusy => ?_)
  rcases (ordered_of_reachable hReach).progress hBusy res with
    ⟨l, t, hStep, hFixed⟩
  exact ⟨l, t, hFixed, hStep⟩

/-
  With fixed results and no cancellation, where every
  requirement between jobs is also an ordering, a planned
  start returns with any worker limit; its final states meet
  the recursive specification and are the same for all
  limits and interleavings.
-/
theorem start_outcome
    {g : Graph N}
    {names : List N}
    (hPlan : g.planStart names = .ok tx)
    (hRequired : RequirementsOrdered tx)
    (res : N → Option (Err N)) :
    (∀ workers, 1 ≤ workers →
        ∃ s₀, tx.executeWithLimit workers = .ok s₀ ∧
          (executor tx workers).Inevitable (Fixed res)
            (fun s => s.phase = .done) s₀) ∧
      ∀ workers s,
        (executor tx workers).ReachableWhere (Fixed res) s →
        s.phase = .done →
        MeetsSpec tx res s.ex.states ∧
          (∀ states, MeetsSpec tx res states →
            ∀ n ∈ tx.jobNames, s.ex.states n = states n) ∧
          ∀ workers' s',
            (executor tx workers').ReachableWhere (Fixed res) s' →
            s'.phase = .done →
            ∀ n ∈ tx.jobNames, s.ex.states n = s'.ex.states n := by
  constructor
  · intro workers hWorkers
    rcases begin_of_planStart hPlan hWorkers with ⟨s₀, hBegin⟩
    exact ⟨s₀, hBegin, fixed_returns res ⟨s₀, hBegin, .refl s₀⟩⟩
  · intro workers s hs hDone
    have hSpec := meetsSpec_of_done hRequired hs hDone
    have hAcyclic :=
      (Transaction.validate_ok_iff.mp
        (valid_of_planStart hPlan)).2.2
    refine ⟨hSpec, fun states hStates =>
      hSpec.unique hRequired hAcyclic hStates, ?_⟩
    intro workers' s' hs' hDone'
    exact hSpec.unique hRequired hAcyclic
      (meetsSpec_of_done hRequired hs' hDone')

section Chain

local instance : UnitNames String := asciiNames

/- The first unit of the chain fails. -/
def firstFails : String → Option (Err String) := fun n =>
  if n = "a.service" then some (.text "exit status 1") else none

/-
  When the first unit of the chain fails, both are failed,
  with any worker limit.
-/
theorem start_outcome_chain :
    ∃ g tx, build chain = .ok g ∧
      g.planStart ["b.service"] = .ok tx ∧
      RequirementsOrdered tx ∧
      (∃ s, (executor tx 1).ReachableWhere (Fixed firstFails) s ∧
        s.phase = .done ∧ s.ex.states "a.service" = .failed ∧
        s.ex.states "b.service" = .failed) ∧
      ((∀ workers, 1 ≤ workers →
          ∃ s₀, tx.executeWithLimit workers = .ok s₀ ∧
            (executor tx workers).Inevitable (Fixed firstFails)
              (fun s => s.phase = .done) s₀) ∧
        ∀ workers s,
          (executor tx workers).ReachableWhere (Fixed firstFails)
            s →
          s.phase = .done →
          MeetsSpec tx firstFails s.ex.states ∧
            (∀ states, MeetsSpec tx firstFails states →
              ∀ n ∈ tx.jobNames, s.ex.states n = states n) ∧
            ∀ workers' s',
              (executor tx workers').ReachableWhere
                (Fixed firstFails) s' →
              s'.phase = .done →
              ∀ n ∈ tx.jobNames,
                s.ex.states n = s'.ex.states n) := by
  have hRun :
      ∃ g tx, build chain = .ok g ∧
        g.planStart ["b.service"] = .ok tx ∧
        tx.jobNames = ["a.service", "b.service"] ∧
        tx.waitsFor "b.service" = ["a.service"] ∧
        dependsOn tx "a.service" "a.service" = false ∧
        dependsOn tx "a.service" "b.service" = false ∧
        dependsOn tx "b.service" "b.service" = false ∧
        ∃ s, (executor tx 1).ReachableWhere (Fixed firstFails) s ∧
          s.phase = .done ∧ s.ex.states "a.service" = .failed ∧
          s.ex.states "b.service" = .failed :=
    ⟨_, _, rfl, rfl, rfl, rfl, rfl, rfl, rfl, _,
      Lib.System.reachableWhere_of_run
        [.tick, .tick, .tick, .invoke "a.service",
          .finish "a.service" (firstFails "a.service"), .tick,
          .tick, .tick, .tick, .tick, .tick, .tick]
        rfl rfl (by simp [Lib.System.Meets, Fixed]),
      rfl, rfl, rfl⟩
  rcases hRun with
    ⟨g, tx, hBuild, hPlan, hJobs, hWaits, hAA, hAB, hBB, hReach⟩
  have hRequired : RequirementsOrdered tx := by
    intro n hn req hReq hDep
    simp only [hJobs, List.mem_cons, List.not_mem_nil, or_false]
      at hn hReq
    rcases hn with rfl | rfl
    · rcases hReq with rfl | rfl
      · simp [hAA] at hDep
      · simp [hAB] at hDep
    · rcases hReq with rfl | rfl
      · simp [hWaits]
      · simp [hBB] at hDep
  exact ⟨g, tx, hBuild, hPlan, hRequired, hReach,
    start_outcome hPlan hRequired firstFails⟩

end Chain

end Exec

end Core

end Winunitd
