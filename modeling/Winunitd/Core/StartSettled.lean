import Winunitd.Core.SkipOutcome

/-
  Every job of a start is settled exactly once.

  A job is settled by a starter call or by a rejection.  The
  executor stops looking for jobs when nothing is in flight
  after a pass.  `Settling` shows that none is left behind
  then: failures have already reached every job that requires
  a failed one, so such a pass changes nothing, and a job
  that was passed over waits for another one.

  Key definitions include:
    * `Executor.RejectedOnce`
    * `Exec.Settling`

  Key theorems include:
    * `Executor.rejectedOnce_fail`
    * `Exec.Settling.step`
    * `Exec.start_returns`
    * `Exec.start_settled_once`
-/

------------------------------------------------------------
-- Rejections
------------------------------------------------------------

namespace Winunitd

namespace Core

open Lib.Digraph (Acyclic)

variable {N : Type}
variable [UnitNames N]
variable {tx : Transaction N}

namespace Executor

/- No job is rejected twice, and a rejected one has an error. -/
structure RejectedOnce (ex : Executor N) : Prop where
  nodup : (ex.rejected.map Prod.fst).Nodup
  errors : ∀ n err, (n, err) ∈ ex.rejected → ex.errors n ≠ none

variable {ex : Executor N}

/- A job without an error is recorded and rejected. -/
theorem rejectedOnce_reject
    (h : RejectedOnce ex)
    {name : N}
    (hNone : ex.errors name = none)
    (err : Err N) :
    RejectedOnce (reject tx (ex.recordError name err) name err) := by
  have hErrors := reject_errors tx ex name err
  have hNew : name ∉ ex.rejected.map Prod.fst := by
    intro hMem
    rcases List.mem_map.mp hMem with ⟨⟨n, e⟩, hIn, rfl⟩
    exact h.errors n e hIn hNone
  have hKeep :
      ∀ n, ex.errors n ≠ none →
        Function.update ex.errors name (some err) n ≠ none := by
    intro n hSome
    by_cases hn : n = name
    · simp [hn]
    · simpa [hn] using hSome
  cases hLaunched : ex.launched name with
  | true =>
      have hSame := rejected_launched tx err hLaunched
      refine ⟨by rw [hSame]; exact h.nodup, ?_⟩
      intro n e hMem
      rw [hSame] at hMem
      rw [hErrors]
      exact hKeep n (h.errors n e hMem)
  | false =>
      have hSame := rejected_new tx err hLaunched
      constructor
      · rw [hSame, List.map_append, List.map_singleton,
          ← List.concat_eq_append]
        exact h.nodup.concat hNew
      · intro n e hMem
        rw [hSame] at hMem
        rw [hErrors]
        rcases List.mem_append.mp hMem with hOld | hLast
        · exact hKeep n (h.errors n e hOld)
        · cases List.mem_singleton.mp hLast
          simp

/- A propagated failure rejects each job once. -/
theorem rejectedOnce_markFailed
    (fuel : Nat)
    (h : RejectedOnce ex)
    (name : N)
    (err : Err N) :
    RejectedOnce (markFailed tx fuel ex name err) := by
  refine (markFailed_rule
    (P := fun ex _ _ ex' => RejectedOnce ex → RejectedOnce ex')
    ex ?_ ?_ ?_ ?_ fuel name err).1 h
  · exact fun _ _ _ h => h
  · exact fun _ _ _ _ h => { h with }
  · exact fun _ _ err hNone h => rejectedOnce_reject h hNone err
  · exact fun _ _ _ _ _ _ _ hMid _ _ _ _ _ _ _ hNext h =>
      hNext (hMid h)

theorem rejectedOnce_fail
    (h : RejectedOnce ex)
    (name : N)
    (err : Err N) :
    RejectedOnce (fail tx ex name err) :=
  rejectedOnce_markFailed _ h name err

theorem rejectedOnce_failQueued
    (h : RejectedOnce ex)
    (err : N → Err N)
    (names : List N) :
    RejectedOnce (failQueued tx err ex names) := by
  refine List.foldlRecOn names _ h ?_
  intro ex hex name _
  split
  · exact rejectedOnce_fail hex name (err name)
  · exact hex

/- Where no listed job is queued, none is failed. -/
theorem failQueued_none
    {names : List N}
    (h :
      ∀ n ∈ names,
        ¬ (ex.states n = .inactive ∧ ex.launched n = false))
    (err : N → Err N) :
    failQueued tx err ex names = ex := by
  refine List.foldlRecOn (motive := (· = ex)) names _ rfl ?_
  rintro _ rfl n hn
  exact if_neg (h n hn)

/- A job none of whose requirements has an error may start. -/
theorem requiresFailed_eq_none
    {name : N}
    (h :
      ∀ req ∈ tx.jobNames, dependsOn tx name req = true →
        ex.errors req = none) :
    requiresFailed tx ex name = none := by
  unfold requiresFailed
  unfold dependsOn at h
  cases hNode : tx.g.nodeAt name with
  | none => rfl
  | some n =>
      rw [hNode] at h
      have hNamed := tx.g.wellNamed n (List.mem_of_find?_eq_some hNode)
      simp only
      rw [List.findSome?_eq_none_iff]
      intro req hReq
      split
      · rename_i hJob
        rw [h req hJob (hNamed.mem_startRequireNames.mp hReq)]
        rfl
      · rfl

end Executor

------------------------------------------------------------
-- Nothing Is Left Behind
------------------------------------------------------------

namespace Exec

open Executor

variable {workers : Nat}
variable {s s' : Exec N}

/-
  As long as the context is not canceled, a job that a pass
  went by waits for another one if nothing is in flight.
-/
structure Behind
    (tx : Transaction N)
    (s : Exec N) : Prop where
  idle :
    s.ctxErr = none → s.phase = .draining → s.ex.inflight = 0
  passed :
    s.ctxErr = none → ∀ n ∈ tx.jobNames, s.phase.Passed n →
      s.ex.inflight = 0 →
        s.ex.launched n = true ∨ s.ex.errors n ≠ none ∨
          0 < s.ex.remaining n

/-
  A failed job has an error, and a job that may still be
  launched requires no job with an error.
-/
structure Settling
    (tx : Transaction N)
    (s : Exec N) : Prop extends Behind tx s where
  failed : ∀ n, s.ex.states n = .failed → s.ex.errors n ≠ none
  open_ :
    ∀ n ∈ tx.jobNames, s.ex.launched n = false →
      s.ex.errors n = none →
      ∀ req ∈ tx.jobNames, dependsOn tx n req = true →
        s.ex.errors req = none
  once : RejectedOnce s.ex

namespace Settling

theorem begin
    (h : tx.executeWithLimit workers = .ok s) :
    Settling tx s := by
  obtain rfl := begin_eq h
  refine ⟨⟨?_, ?_⟩, ?_, ?_, ?_, ?_⟩
  · simp
  · intro _ n _ hPassed
    exact hPassed.elim
  · simp [start]
  · simp [start]
  · simp [start]
  · simp [start]

theorem failed_tick
    (h : Settling tx s)
    (hStep : s.tick tx workers = some s') :
    ∀ n, s'.ex.states n = .failed → s'.ex.errors n ≠ none := by
  cases tick_cases hStep with
  | move phase _ _ => exact h.failed
  | queue phase err _ _ =>
      exact failed_failStep h.failed (failStep_failQueued _ _ _)
  | refuse name rest err _ _ _ _ =>
      exact failed_failStep h.failed (failStep_fail _ _ _)
  | launch name rest _ _ _ _ =>
      intro n hState
      by_cases hn : n = name
      · rw [hn] at hState
        simp at hState
      · simp only [Function.update_apply, if_neg hn] at hState
        exact h.failed n hState
  | result phase name res rest hFinished _ _ =>
      have hOld :
          ∀ n, (s.receiving tx name).states n = .failed →
            (s.receiving tx name).errors n ≠ none := by
        simpa using h.failed
      rcases result_cases tx s hFinished with
        ⟨ex, hEq, ⟨_, err, rfl⟩ | ⟨_, st, rfl, hSt⟩⟩
      · simp only [hEq]
        exact failed_failStep hOld (failStep_fail _ name err)
      · intro n hState
        simp only [hEq, setState, Function.update_apply] at hState ⊢
        split at hState
        · rename_i hn
          rcases hSt with ⟨_, _, _, rfl⟩ | ⟨_, hFailed, rfl⟩ | ⟨_, _, rfl⟩
          · cases hState
          · rw [hn, receiving_errors]
            exact h.failed name hFailed
          · cases hState
        · exact hOld n hState

end Settling

/-
  A step keeps the errors and flags that are set, and it does
  not start a job and record an error at once.
-/
structure Advances (s s' : Exec N) : Prop where
  launched :
    ∀ n, s.ex.launched n = true → s'.ex.launched n = true
  errors :
    ∀ n e, s.ex.errors n = some e → s'.ex.errors n = some e
  started :
    s'.ex.started = s.ex.started ∨ s'.ex.errors = s.ex.errors

namespace Advances

theorem of_failStep
    (h : FailStep tx s.ex s'.ex) :
    Advances s s' where
  launched n hn := by
    rw [h.launched]
    exact hn
  errors := h.errors
  started := Or.inl h.started

theorem tick
    (hStep : s.tick tx workers = some s') :
    Advances s s' := by
  cases tick_cases hStep with
  | move phase _ _ =>
      exact ⟨fun _ h => h, fun _ _ h => h, Or.inl rfl⟩
  | queue phase err _ _ =>
      exact of_failStep (failStep_failQueued s.ex err tx.jobNames)
  | refuse name rest err _ _ _ _ =>
      exact of_failStep (failStep_fail s.ex name err)
  | launch name rest _ _ _ _ =>
      refine ⟨?_, fun _ _ h => h, Or.inr rfl⟩
      intro n hn
      by_cases hEq : n = name
      · simp [hEq]
      · simpa [hEq] using hn
  | result phase name res rest hFinished _ _ =>
      have hFrame := onFinish_frame s.returning tx name res
      refine ⟨?_, ?_, Or.inl hFrame.2.1⟩
      · intro n hn
        simp only [hFrame.1]
        exact hn
      · intro n e he
        rcases result_cases tx s hFinished with
          ⟨ex, hEq, ⟨_, err, rfl⟩ | ⟨_, st, rfl, _⟩⟩
        · simp only [hEq]
          apply (failStep_fail _ name err).errors
          simpa using he
        · simpa [hEq, setState] using he

theorem step
    {l : ExecLabel N}
    (hStep : s.step tx workers l = some s') :
    Advances s s' := by
  by_cases hl : l = .tick
  · subst hl
    exact tick hStep
  · rw [(step_aside hl hStep).1]
    exact ⟨fun _ h => h, fun _ _ h => h, Or.inl rfl⟩

end Advances

namespace Settling

section

variable (h : Settling tx s)

include h

/- Failures reach every job that requires a failed one. -/
theorem open_tick
    (hOrdered : Ordered tx workers s)
    (hStaged : Staged s)
    (hStep : s.tick tx workers = some s') :
    ∀ n ∈ tx.jobNames, s'.ex.launched n = false →
      s'.ex.errors n = none →
      ∀ req ∈ tx.jobNames, dependsOn tx n req = true →
        s'.ex.errors req = none := by
  intro n hn hNew hNone req hReq hDep
  have hAdvance := Advances.tick hStep
  have hErrors := fun k : N =>
    tick_errors_iff hOrdered hStaged hStep (k := k)
  have hOld : s.ex.launched n = false := by
    by_contra hNot
    rw [hAdvance.launched n (by simpa using hNot)] at hNew
    cases hNew
  have hClear : s.ex.errors n = none := by
    by_contra hSome
    exact (hErrors n).mpr (Or.inl hSome) hNone
  have hReqClear := h.open_ n hn hOld hClear req hReq hDep
  by_contra hBad
  rcases (hErrors req).mp hBad with hSome | ⟨m, hFails, hReach⟩
  · exact hSome hReqClear
  -- the failure that reaches `req` goes on to `n`
  by_cases hEq : n = req
  · rw [← hEq] at hBad
    exact hBad hNone
  have hWaiting : s.ex.jobNotYetStarted n = true := by
    rcases hStaged.unlaunched n hOld with hState | hState
    · exact jobNotYetStarted_iff.mpr (Or.inl hState)
    · exact absurd hClear (h.failed n hState)
  refine (hErrors n).mpr (Or.inr ⟨m, hFails, ?_⟩) hNone
  exact hReach.requirer hReqClear hn hEq hDep hWaiting

theorem once_tick
    (hStep : s.tick tx workers = some s') :
    RejectedOnce s'.ex := by
  cases tick_cases hStep with
  | move phase _ _ => exact h.once
  | queue phase err _ _ =>
      exact rejectedOnce_failQueued h.once err tx.jobNames
  | refuse name rest err _ _ _ _ =>
      exact rejectedOnce_fail h.once name err
  | launch name rest _ _ _ _ => exact { h.once with }
  | result phase name res rest hFinished _ _ =>
      have hOld : RejectedOnce (s.receiving tx name) := by
        unfold receiving
        rw [releaseAfter_same]
        exact { h.once with }
      rcases result_cases tx s hFinished with
        ⟨ex, hEq, ⟨_, err, rfl⟩ | ⟨_, st, rfl, _⟩⟩
      · simp only [hEq]
        exact rejectedOnce_fail hOld name err
      · simp only [hEq]
        exact { hOld with }

/- A launch attempt launches the job or changes nothing. -/
theorem attempt
    (hOrdered : Ordered tx workers s)
    {name : N}
    (hJob : name ∈ tx.jobNames) :
    (tryLaunch tx s.ex name = s.ex ∧
        (s.ex.launched name = true ∨ s.ex.errors name ≠ none ∨
          0 < s.ex.remaining name)) ∨
      (tryLaunch tx s.ex name).inflight = s.ex.inflight + 1 := by
  unfold tryLaunch
  split
  · rename_i hOld
    exact Or.inl ⟨rfl, Or.inl hOld⟩
  rename_i hNew
  split
  · rename_i hFailed
    exact Or.inl ⟨rfl, Or.inr (Or.inl (h.failed name hFailed))⟩
  rename_i hState
  split
  · rename_i hWaits
    exact Or.inl ⟨rfl, Or.inr (Or.inr hWaits)⟩
  have hNew' : s.ex.launched name = false := by
    simpa using hNew
  have hClear : s.ex.errors name = none := by
    by_contra hSome
    exact hState (hOrdered.tracked.unlaunched name hNew' hSome)
  rw [requiresFailed_eq_none (h.open_ name hJob hNew' hClear)]
  exact Or.inr rfl

section

variable (hAcyclic : Acyclic (WaitsIn tx.jobNames tx.waitsFor))

include hAcyclic

/- After a pass that leaves nothing in flight every job is
   launched or has an error. -/
theorem all_settled
    (hOrdered : Ordered tx workers s)
    (hCtx : s.ctxErr = none)
    (hPassed : ∀ n, s.phase.Passed n)
    (hIdle : s.ex.inflight = 0) :
    ∀ n ∈ tx.jobNames,
      s.ex.launched n = true ∨ s.ex.errors n ≠ none := by
  have hReleased :
      ∀ n, s.ex.launched n = true ∨ s.ex.errors n ≠ none →
        s.ex.released n = true := by
    intro n hn
    apply (hOrdered.tracked.released n).mpr
    cases hLaunched : s.ex.launched n with
    | false =>
        rw [hLaunched] at hn
        exact Or.inr ⟨rfl, hn.resolve_left (by simp)⟩
    | true =>
        exact Or.inl (hOrdered.processed_of_idle hIdle hLaunched)
  exact hOrdered.tracked.counted.induction hAcyclic hReleased
    (fun n hn => or_assoc.mpr (h.passed hCtx n hn (hPassed n) hIdle))

/- The closing pass finds nothing that was not started. -/
theorem close
    (hOrdered : Ordered tx workers s)
    (hCtx : s.ctxErr = none)
    (hPhase : s.phase = .draining) :
    failQueued tx notStarted s.ex tx.jobNames = s.ex := by
  apply failQueued_none
  rintro n hn ⟨hState, hNew⟩
  have hAll :=
    h.all_settled hAcyclic hOrdered hCtx
      (by simp [Phase.Passed, hPhase]) (h.idle hCtx hPhase) n hn
  rcases hAll with hLaunched | hErr
  · rw [hLaunched] at hNew
    cases hNew
  · have hFailed := hOrdered.tracked.unlaunched n hNew hErr
    rw [hFailed] at hState
    cases hState

theorem behind_tick
    (hOrdered : Ordered tx workers s)
    (hWorkers : 1 ≤ workers)
    (hStep : s.tick tx workers = some s') :
    Behind tx s' := by
  unfold Exec.tick at hStep
  split at hStep
  case h_1 hPhase =>
    split at hStep
    · rename_i err hCtx
      cases hStep
      refine ⟨fun hNone => ?_, fun hNone => ?_⟩
      · simp [hCtx] at hNone
      · simp [hCtx] at hNone
    · cases hStep
      refine ⟨fun _ hNext => by simp at hNext, ?_⟩
      intro _ n hn hPassed
      exact absurd hn hPassed
  case h_2 hPhase =>
    cases hStep
    refine ⟨fun _ hNext => by simp at hNext, ?_⟩
    intro hCtx n hn _
    exact h.passed hCtx n hn (by simp [Phase.Passed, hPhase])
  case h_3 name ns hPhase =>
    split at hStep
    · -- the limit is reached, so something is in flight
      rename_i hLimit
      cases hStep
      refine ⟨fun _ hNext => by simp at hNext, ?_⟩
      intro _ n _ _ hIdle
      simp only at hIdle
      omega
    · cases hStep
      have hJob : name ∈ tx.jobNames :=
        hOrdered.rest _ hPhase name List.mem_cons_self
      refine ⟨fun _ hNext => by simp at hNext, ?_⟩
      intro hCtx n hn hPassed hIdle
      rcases h.attempt hOrdered hJob with ⟨hSame, hName⟩ | hLaunch
      · simp only [hSame] at hIdle ⊢
        by_cases hEq : n = name
        · rw [hEq]
          exact hName
        · apply h.passed hCtx n hn _ hIdle
          rw [hPhase]
          intro hMem
          rcases List.mem_cons.mp hMem with hHead | hTail
          · exact hEq hHead
          · exact hPassed hTail
      · simp only [hLaunch] at hIdle
        omega
  case h_4 hPhase =>
    split at hStep
    · rename_i hIdle
      cases hStep
      refine ⟨fun _ _ => hIdle, ?_⟩
      intro hCtx n hn _
      exact h.passed hCtx n hn (by simp [Phase.Passed, hPhase])
    · unfold Exec.receive at hStep
      split at hStep
      · cases hStep
      · cases hStep
        refine ⟨fun _ hNext => by simp at hNext, ?_⟩
        intro _ n _ hPassed
        exact hPassed.elim
  case h_5 hPhase =>
    split at hStep
    · cases hStep
      refine ⟨fun _ hNext => by simp at hNext, ?_⟩
      intro hCtx n hn _
      simp only [h.close hAcyclic hOrdered hCtx hPhase]
      exact h.passed hCtx n hn (by simp [Phase.Passed, hPhase])
    · rename_i hBusy
      unfold Exec.receive at hStep
      split at hStep
      · cases hStep
      · cases hStep
        refine ⟨fun hCtx => ?_, fun hCtx => ?_⟩
        · exact absurd (h.idle hCtx hPhase) hBusy
        · exact absurd (h.idle hCtx hPhase) hBusy
  case h_6 => cases hStep

theorem step
    {l : ExecLabel N}
    (hOrdered : Ordered tx workers s)
    (hStaged : Staged s)
    (hWorkers : 1 ≤ workers)
    (hStep : s.step tx workers l = some s') :
    Settling tx s' := by
  by_cases hl : l = .tick
  · subst hl
    exact
      { toBehind :=
          h.behind_tick hAcyclic hOrdered hWorkers hStep
        failed := h.failed_tick hStep
        open_ := h.open_tick hOrdered hStaged hStep
        once := h.once_tick hStep }
  · rcases step_aside hl hStep with ⟨hEq, hCtx, _⟩
    rw [hEq]
    exact
      { failed := h.failed
        open_ := h.open_
        once := { h.once with }
        idle := fun hNone => h.idle (hCtx hNone)
        passed := fun hNone => h.passed (hCtx hNone) }

end

end

end Settling

/- What a plan must meet for its execution to begin. -/
theorem valid_of_begin
    (h : tx.executeWithLimit workers = .ok s) :
    1 ≤ workers ∧ Acyclic (WaitsIn tx.jobNames tx.waitsFor) := by
  unfold Transaction.executeWithLimit at h
  split at h
  · cases h
  rename_i hWorkers
  split at h
  · cases h
  rename_i tx' hValid
  exact ⟨by omega, (Transaction.validate_ok_iff.mp hValid).2.2⟩

theorem settling_of_reachable
    (hs : (executor tx workers).Reachable s) :
    Staged s ∧ Settling tx s := by
  have hValid :
      1 ≤ workers ∧ Acyclic (WaitsIn tx.jobNames tx.waitsFor) := by
    rcases hs with ⟨s₀, hInit, _⟩
    exact valid_of_begin hInit
  refine ⟨staged_of_reachable hs, Lib.System.reachable_invariant
    (I := Settling tx) (fun _ hInit => .begin hInit) ?_ hs⟩
  intro s l s' hReach h hStep
  exact h.step hValid.2 (ordered_of_reachable hReach)
    (staged_of_reachable hReach) hValid.1 hStep

------------------------------------------------------------
-- Every Start Returns
------------------------------------------------------------

/-
  The work that is left in a start execution, and one more
  step as long as its context may be canceled.
-/
def work (tx : Transaction N) (s : Exec N) : Nat :=
  workLeft tx.jobNames.length s.phase
      (tx.jobNames.length - s.ex.started.length)
      s.ex.spawned.length s.outstanding.length s.finished.length +
    if s.ctxErr = none then 1 else 0

variable {next : Phase N}

theorem work_receive
    (hNext :
      next.rank tx.jobNames.length ≤
        s.phase.rank tx.jobNames.length + tx.jobNames.length + 2)
    (hStep : s.receive tx next = some s') :
    s'.work tx < s.work tx := by
  unfold Exec.receive at hStep
  split at hStep
  · cases hStep
  rename_i name res rest hFinished
  cases hStep
  have hFrame := onFinish_frame s.returning tx name res
  simp only [work, hFrame.2.1, hFrame.2.2.1, hFinished,
    List.length_cons]
  exact Nat.add_lt_add_right (workLeft_receive hNext) _

/- Failures launch nothing. -/
theorem work_failStep
    {ex' : Executor N}
    (hFail : FailStep tx s.ex ex')
    (hNext :
      next.rank tx.jobNames.length <
        s.phase.rank tx.jobNames.length) :
    ({ s with phase := next, ex := ex' } : Exec N).work tx <
      s.work tx := by
  simp only [work, hFail.started, hFail.spawned]
  exact Nat.add_lt_add_right (workLeft_move hNext) _

/- Every step leaves less work. -/
theorem Ordered.work_step
    {l : ExecLabel N}
    (h : Ordered tx workers s)
    (hStep : s.step tx workers l = some s') :
    s'.work tx < s.work tx := by
  have h' := h.step hStep
  cases l with
  | cancel deadline =>
      simp only [Exec.step] at hStep
      split at hStep
      · rename_i hCtx
        cases hStep
        simp [work, hCtx]
      · cases hStep
  | invoke name =>
      simp only [Exec.step] at hStep
      split at hStep
      · rename_i hMem
        cases hStep
        simp only [work, List.length_append, List.length_singleton]
        rw [List.length_erase_of_mem hMem]
        exact Nat.add_lt_add_right
          (workLeft_invoke (List.length_pos_of_mem hMem)) _
      · cases hStep
  | finish name res =>
      simp only [Exec.step] at hStep
      split at hStep
      · rename_i hMem
        cases hStep
        simp only [work, List.length_append, List.length_singleton]
        rw [List.length_erase_of_mem hMem]
        exact Nat.add_lt_add_right
          (workLeft_finish (List.length_pos_of_mem hMem)) _
      · cases hStep
  | tick =>
      simp only [Exec.step, Exec.tick] at hStep
      split at hStep
      case h_1 hPhase =>
        split at hStep
        · cases hStep
          exact work_failStep (failStep_failQueued _ _ _)
            (by simp [Phase.rank, hPhase])
        · cases hStep
          exact work_failStep (.refl s.ex)
            (by simp [Phase.rank, hPhase])
      case h_2 hPhase =>
        cases hStep
        exact work_failStep (.refl s.ex)
          (by simp [Phase.rank, hPhase])
      case h_3 name ns hPhase =>
        split at hStep
        · cases hStep
          exact work_failStep (.refl s.ex)
            (by simp [Phase.rank, hPhase])
        · cases hStep
          rcases tryLaunch_cases s.ex tx name with
            hFail | ⟨_, _, _, _, hEq⟩
          · exact work_failStep hFail (by simp [Phase.rank, hPhase])
          · have hLength :=
              (h'.tracked.nodup.subperm h'.tracked.jobs).length_le
            simp only [hEq, List.length_append,
              List.length_singleton] at hLength
            simp only [work, hEq, List.length_append,
              List.length_singleton]
            rw [Nat.sub_add_eq]
            refine Nat.add_lt_add_right (workLeft_launch ?_ ?_) _
            · simp [Phase.rank, hPhase]
            · omega
      case h_4 hPhase =>
        split at hStep
        · cases hStep
          exact work_failStep (.refl s.ex)
            (by simp [Phase.rank, hPhase])
        · refine work_receive ?_ hStep
          simp only [Phase.rank, hPhase]
          omega
      case h_5 hPhase =>
        split at hStep
        · cases hStep
          exact work_failStep (failStep_failQueued _ _ _)
            (by simp [Phase.rank, hPhase])
        · refine work_receive ?_ hStep
          simp only [Phase.rank, hPhase]
          omega
      case h_6 => cases hStep

/- An executor that cannot go on waits for a call in flight. -/
theorem tick_stuck
    (hTick : s.tick tx workers = none)
    (hBusy : s.phase ≠ .done) :
    s.finished = [] ∧ s.ex.inflight ≠ 0 := by
  unfold Exec.tick at hTick
  split at hTick
  case h_1 | h_3 =>
    split at hTick
    · cases hTick
    · cases hTick
  case h_2 => cases hTick
  case h_4 | h_5 =>
    split at hTick
    · cases hTick
    rename_i hInflight
    unfold Exec.receive at hTick
    split at hTick
    · exact ⟨by assumption, hInflight⟩
    · cases hTick
  case h_6 hPhase => exact absurd hPhase hBusy

/-
  As long as the execution has not returned, a step is due;
  a call in progress may return anything.
-/
theorem Ordered.progress
    (h : Ordered tx workers s)
    (hBusy : s.phase ≠ .done)
    (res : N → Option (Err N)) :
    ∃ l s', s.step tx workers l = some s' ∧
      (∀ deadline, l ≠ .cancel deadline) ∧
      ∀ n r, l = .finish n r → r = res n := by
  cases hTick : s.tick tx workers with
  | some s' =>
      exact ⟨.tick, s', hTick, by simp, by simp⟩
  | none =>
      rcases tick_stuck hTick hBusy with ⟨hFinished, hInflight⟩
      have hCount := h.inflight
      rw [hFinished, List.length_nil] at hCount
      have hSome : s.ex.spawned.length + s.outstanding.length ≠ 0 := by
        omega
      rcases exists_mem_of_length hSome with ⟨n, hn⟩ | ⟨n, hn⟩
      · exact ⟨.invoke n, _, if_pos hn, by simp, by simp⟩
      · refine ⟨.finish n (res n), _, if_pos hn, by simp, ?_⟩
        rintro m r hEq
        cases hEq
        rfl

/-
  An execution returns under an assumption on its steps that
  always allows one more.
-/
theorem returns_where
    {A : Exec N → ExecLabel N → Prop}
    (hs : (executor tx workers).Reachable s)
    (hNext :
      ∀ s, (executor tx workers).Reachable s → s.phase ≠ .done →
        ∃ l t, A s l ∧ s.step tx workers l = some t) :
    (executor tx workers).Inevitable A (fun s => s.phase = .done) s := by
  refine Lib.System.inevitable_of_measure
    (I := (executor tx workers).Reachable) (work tx) ?_ hNext hs
  rintro s l t hReach _ hStep
  refine ⟨hReach.step hStep, ?_⟩
  exact (ordered_of_reachable hReach).work_step hStep

/-
  A start execution returns when its calls do, whether or not
  its context is canceled.
-/
theorem start_returns
    (hs : (executor tx workers).Reachable s) :
    (executor tx workers).Inevitable (fun _ _ => True)
      (fun s => s.phase = .done) s := by
  refine returns_where hs (fun s hReach hBusy => ?_)
  rcases (ordered_of_reachable hReach).progress hBusy
      (fun _ => none) with ⟨l, t, hStep, _⟩
  exact ⟨l, t, trivial, hStep⟩

------------------------------------------------------------
-- Settled Once
------------------------------------------------------------

/- The jobs that the observer was told about, in order. -/
def rejectedNames (s : Exec N) : List N :=
  s.ex.rejected.map Prod.fst

omit [UnitNames N] in
theorem mem_rejectedNames
    {n : N} :
    n ∈ s.rejectedNames ↔ ∃ err, (n, err) ∈ s.ex.rejected := by
  simp [rejectedNames]

theorem Ordered.mem_rejectedNames_iff
    (h : Ordered tx workers s)
    {n : N} :
    n ∈ s.rejectedNames ↔
      s.ex.launched n = false ∧ s.ex.errors n ≠ none := by
  rw [mem_rejectedNames]
  constructor
  · rintro ⟨err, hMem⟩
    have hErr := (h.tracked.rejected n err).mp hMem
    exact ⟨hErr.1, by simp [hErr.2]⟩
  · rintro ⟨hNew, hErr⟩
    rcases Option.ne_none_iff_exists'.mp hErr with ⟨err, hErr⟩
    exact ⟨err, (h.tracked.rejected n err).mpr ⟨hNew, hErr⟩⟩

section

variable (hs : (executor tx workers).Reachable s)

include hs

/- A job is called at most once, or rejected at most once. -/
theorem settled_at_most_once
    (n : N) :
    s.invoked.count n + s.rejectedNames.count n ≤ 1 := by
  have h := ordered_of_reachable hs
  have hInvoked : s.invoked.count n ≤ 1 :=
    List.nodup_iff_count_le_one.mp h.invoked_nodup n
  have hRejected : s.rejectedNames.count n ≤ 1 :=
    List.nodup_iff_count_le_one.mp
      (settling_of_reachable hs).2.once.nodup n
  by_cases hn : n ∈ s.invoked
  · have hNot : n ∉ s.rejectedNames := by
      intro hMem
      have hNew := (h.mem_rejectedNames_iff.mp hMem).1
      rw [h.launched_of_invoked hn] at hNew
      cases hNew
    rw [List.count_eq_zero_of_not_mem hNot]
    exact hInvoked
  · rw [List.count_eq_zero_of_not_mem hn, Nat.zero_add]
    exact hRejected

/- Nothing is queued after the closing pass. -/
theorem settled_of_done
    (hDone : s.phase = .done) :
    ∀ n ∈ tx.jobNames,
      s.ex.launched n = true ∨ s.ex.errors n ≠ none := by
  refine done_invariant
    (P := fun s : Exec N =>
      ∀ n ∈ tx.jobNames,
        s.ex.launched n = true ∨ s.ex.errors n ≠ none)
    ?_ ?_ hs hDone
  · intro s s' hReach hIdle hStep hEq n hn
    have hAdvance := Advances.tick hStep
    have hOrdered := ordered_of_reachable hReach
    rcases settling_of_reachable hReach with ⟨hStaged, h⟩
    cases hNew : s.ex.launched n with
    | true => exact Or.inl (hAdvance.launched n hNew)
    | false =>
        right
        apply (tick_errors_iff hOrdered hStaged hStep).mpr
        by_cases hErr : s.ex.errors n = none
        · have hState :
              s.ex.states n = .inactive := by
            rcases hStaged.unlaunched n hNew with hState | hState
            · exact hState
            · exact absurd hErr (h.failed n hState)
          refine Or.inr ⟨n, ?_, .root⟩
          have hPhase := (tick_done hStep (by rw [hEq])).1
          simp only [failsAt, hPhase]
          exact Or.inl ⟨hIdle, hn, hState, hNew⟩
        · exact Or.inl hErr
  · intro s s' l hl hAll hStep n hn
    have hAdvance := Advances.step hStep
    rcases hAll n hn with hLaunched | hErr
    · exact Or.inl (hAdvance.launched n hLaunched)
    · rcases Option.ne_none_iff_exists'.mp hErr with ⟨err, hErr⟩
      right
      rw [hAdvance.errors n err hErr]
      simp

/- A returned execution has settled every job. -/
theorem settled_once_of_done
    (hDone : s.phase = .done)
    {n : N}
    (hn : n ∈ tx.jobNames) :
    s.invoked.count n + s.rejectedNames.count n = 1 := by
  have h := ordered_of_reachable hs
  have hMost := settled_at_most_once hs n
  have hMem : n ∈ s.invoked ∨ n ∈ s.rejectedNames := by
    cases hLaunched : s.ex.launched n with
    | true =>
        left
        have hSpawned := (h.idle (idle_of_done hs hDone)).1
        apply h.invoked.mem_iff.mpr
        have hStarted :=
          h.perm.mem_iff.mp ((h.tracked.launched n).mp hLaunched)
        rw [hSpawned] at hStarted
        exact hStarted
    | false =>
        right
        rcases settled_of_done hs hDone n hn with hOld | hErr
        · rw [hLaunched] at hOld
          cases hOld
        · exact h.mem_rejectedNames_iff.mpr ⟨hLaunched, hErr⟩
  rcases hMem with hMem | hMem
  · have hPos := List.count_pos_iff.mpr hMem
    omega
  · have hPos := List.count_pos_iff.mpr hMem
    omega

/-
  A rejection reaches the observer before any job that waits
  for the rejected one is started.
-/
theorem rejected_before_start
    {l : ExecLabel N}
    (hStep : s.step tx workers l = some s')
    {n d : N}
    (hWaits : d ∈ tx.waitsFor n)
    (hOld : d ∉ s.rejectedNames)
    (hNew : d ∈ s'.rejectedNames) :
    n ∉ s'.ex.started := by
  intro hn
  have h := ordered_of_reachable hs
  have hAdvance := Advances.step hStep
  rcases (h.step hStep).mem_rejectedNames_iff.mp hNew with
    ⟨hUnlaunched, hErr⟩
  have hBefore : s.ex.launched d = false := by
    by_contra hNot
    rw [hAdvance.launched d (by simpa using hNot)] at hUnlaunched
    cases hUnlaunched
  have hNone : s.ex.errors d = none := by
    by_contra hSome
    exact hOld (h.mem_rejectedNames_iff.mpr ⟨hBefore, hSome⟩)
  -- a step that records an error starts nothing
  have hStarted : s'.ex.started = s.ex.started := by
    rcases hAdvance.started with hSame | hSame
    · exact hSame
    · rw [hSame] at hErr
      exact absurd hNone hErr
  rw [hStarted] at hn
  rcases h.ready n hn d hWaits with hReturned | ⟨_, hSome⟩
  · rw [h.launched_of_returned hReturned] at hBefore
    cases hBefore
  · exact hSome hNone

end

variable {names : List N}

/- Start plans have been validated. -/
theorem valid_of_planStart
    {g : Graph N}
    (h : g.planStart names = .ok tx) :
    tx.validate = .ok tx := by
  unfold Graph.planStart Graph.plan at h
  split at h
  · cases h
  split at h
  · cases h
  · exact Transaction.validate_again h

/- A start plan is accepted for execution. -/
theorem begin_of_planStart
    {g : Graph N}
    (hPlan : g.planStart names = .ok tx)
    (hWorkers : 1 ≤ workers) :
    ∃ s₀, tx.executeWithLimit workers = .ok s₀ := by
  unfold Transaction.executeWithLimit
  rw [if_neg (by omega), valid_of_planStart hPlan]
  exact ⟨_, rfl⟩

/-
  A planned start settles every job once.  It returns,
  canceled or not, when its calls do.  In every run a job is
  called or rejected at most once in all, and exactly once
  when the execution has returned; a rejection is delivered
  while no job that waits for the rejected one is started;
  and without a cancellation the closing pass, which fails
  jobs that were not started, fails nothing.
-/
theorem start_settled_once
    {g : Graph N}
    {names : List N}
    (hPlan : g.planStart names = .ok tx)
    (hWorkers : 1 ≤ workers) :
    (∃ s₀, tx.executeWithLimit workers = .ok s₀ ∧
        (executor tx workers).Inevitable (fun _ _ => True)
          (fun s => s.phase = .done) s₀) ∧
      ∀ s, (executor tx workers).Reachable s →
        (∀ n, s.invoked.count n + s.rejectedNames.count n ≤ 1) ∧
        (s.phase = .done → ∀ n ∈ tx.jobNames,
          s.invoked.count n + s.rejectedNames.count n = 1) ∧
        ∀ l s', s.step tx workers l = some s' →
          (∀ n d, d ∈ tx.waitsFor n → d ∉ s.rejectedNames →
            d ∈ s'.rejectedNames →
            n ∉ s'.ex.started ∧ n ∉ s'.invoked) ∧
          (s.ctxErr = none → s.phase ≠ .done →
            s'.phase = .done → s'.ex = s.ex) := by
  constructor
  · rcases begin_of_planStart hPlan hWorkers with ⟨s₀, hBegin⟩
    exact ⟨s₀, hBegin, start_returns ⟨s₀, hBegin, .refl s₀⟩⟩
  intro s hs
  refine ⟨settled_at_most_once hs,
    fun hDone n hn => settled_once_of_done hs hDone hn, ?_⟩
  intro l s' hStep
  have hOrdered' := (ordered_of_reachable hs).step hStep
  constructor
  · intro n d hWaits hOld hNew
    have hNot := rejected_before_start hs hStep hWaits hOld hNew
    refine ⟨hNot, fun hInvoked => hNot ?_⟩
    exact (hOrdered'.tracked.launched n).mp
      (hOrdered'.launched_of_invoked hInvoked)
  · intro hCtx hBusy hDone
    by_cases hl : l = .tick
    · subst hl
      rcases tick_done hStep hDone with ⟨hPhase, _, rfl⟩
      have hAcyclic :=
        (Transaction.validate_ok_iff.mp
          (valid_of_planStart hPlan)).2.2
      exact (settling_of_reachable hs).2.close hAcyclic
        (ordered_of_reachable hs) hCtx hPhase
    · rw [(step_aside hl hStep).1] at hDone
      exact absurd hDone hBusy

section Chain

local instance : UnitNames String := asciiNames

/-
  A canceled start of the chain calls the first unit and
  rejects the second.
-/
theorem start_settled_once_chain :
    ∃ g tx, build chain = .ok g ∧
      g.planStart ["b.service"] = .ok tx ∧
      (∃ s, (executor tx 1).Reachable s ∧ s.phase = .done ∧
        s.invoked = ["a.service"] ∧
        s.rejectedNames = ["b.service"]) ∧
      ((∃ s₀, tx.executeWithLimit 1 = .ok s₀ ∧
          (executor tx 1).Inevitable (fun _ _ => True)
            (fun s => s.phase = .done) s₀) ∧
        ∀ s, (executor tx 1).Reachable s →
          (∀ n, s.invoked.count n + s.rejectedNames.count n ≤ 1) ∧
          (s.phase = .done → ∀ n ∈ tx.jobNames,
            s.invoked.count n + s.rejectedNames.count n = 1) ∧
          ∀ l s', s.step tx 1 l = some s' →
            (∀ n d, d ∈ tx.waitsFor n → d ∉ s.rejectedNames →
              d ∈ s'.rejectedNames →
              n ∉ s'.ex.started ∧ n ∉ s'.invoked) ∧
            (s.ctxErr = none → s.phase ≠ .done →
              s'.phase = .done → s'.ex = s.ex)) := by
  have hRun :
      ∃ g tx, build chain = .ok g ∧
        g.planStart ["b.service"] = .ok tx ∧
        ∃ s, (executor tx 1).Reachable s ∧ s.phase = .done ∧
          s.invoked = ["a.service"] ∧
          s.rejectedNames = ["b.service"] :=
    ⟨_, _, rfl, rfl, _,
      Lib.System.reachable_of_run
        [.tick, .tick, .tick, .invoke "a.service", .cancel false,
          .finish "a.service" none, .tick, .tick, .tick]
        rfl rfl,
      rfl, rfl, rfl⟩
  rcases hRun with ⟨g, tx, hBuild, hPlan, hReach⟩
  exact ⟨g, tx, hBuild, hPlan, hReach,
    start_settled_once hPlan (by decide)⟩

end Chain

end Exec

end Core

end Winunitd
