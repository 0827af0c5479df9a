import Winunitd.Core.FailSpread
import Winunitd.Core.StartOrder

/-
  States and errors at the end of an execution.

  A skipped start leaves its job inactive without an error,
  unless a failure reaches the job: while its call is in
  progress, or after the skip was processed.  In the first
  case the job ends inactive with an error, in the second it
  ends failed.  `SkipSafe` is the condition on one step that
  excludes both; the books are consistent at the end exactly
  if every step of the run meets it.

  Key definitions include:
    * `Exec.failsAt`
    * `Exec.SkipSafe`
    * `Exec.Consistent`

  Key theorems include:
    * `Exec.tick_errors_iff`
    * `Exec.consistent_iff_skipSafe`
-/

------------------------------------------------------------
-- Where A Step Fails Jobs
------------------------------------------------------------

namespace Winunitd

namespace Core

variable {N : Type}
variable [UnitNames N]
variable {tx : Transaction N}

namespace Exec

open Executor

/- A queued job that was never launched. -/
def Queued (tx : Transaction N) (s : Exec N) (m : N) : Prop :=
  m ∈ tx.jobNames ∧ s.ex.states m = .inactive ∧
    s.ex.launched m = false

/- The next result in the channel fails the job `m`. -/
def resultFails
    (tx : Transaction N)
    (s : Exec N)
    (m : N) : Prop :=
  match s.finished with
  | [] => False
  | (name, some err) :: _ => m = name ∧ err.isSkipped = false
  | (name, none) :: _ =>
      m = name ∧ s.ex.states m ≠ .failed ∧
        requiresFailed tx s.ex m ≠ none

/-
  The next step of the executor's own goroutine fails the
  job `m` first hand.
-/
def failsAt
    (tx : Transaction N)
    (workers : Nat)
    (s : Exec N)
    (m : N) : Prop :=
  match s.phase with
  | .head => s.ctxErr ≠ none ∧ s.Queued tx m
  | .launching [] => False
  | .launching (name :: _) =>
      m = name ∧ s.ex.inflight < workers ∧
        s.ex.launched m = false ∧ s.ex.states m ≠ .failed ∧
        s.ex.remaining m = 0 ∧ requiresFailed tx s.ex m ≠ none
  | .awaiting => s.ex.inflight ≠ 0 ∧ s.resultFails tx m
  | .draining =>
      s.ex.inflight = 0 ∧ s.Queued tx m ∨
        s.ex.inflight ≠ 0 ∧ s.resultFails tx m
  | .done => False

/- The next step processes a skip of the job `m`. -/
def skipsAt (s : Exec N) (m : N) : Prop :=
  (s.phase = .awaiting ∨ s.phase = .draining) ∧
    s.ex.inflight ≠ 0 ∧
      ∃ err rest, s.finished = (m, some err) :: rest ∧
        err.isSkipped = true

/- A skip of the job was processed. -/
def Skipped (s : Exec N) (k : N) : Prop :=
  ∃ err, (k, some err) ∈ s.processed ∧ err.isSkipped = true

/-
  The step condition: a skip is processed only for a job
  without an error, and a failure does not reach a job that
  was skipped.
-/
def SkipSafe
    (tx : Transaction N)
    (workers : Nat)
    (s : Exec N)
    (l : ExecLabel N) : Prop :=
  l = .tick →
    (∀ m, s.skipsAt m → s.ex.errors m = none) ∧
      ∀ m k, s.failsAt tx workers m → s.Skipped k →
        ¬ FailReach tx s.ex m k

/-
  The books of a returned execution: a job is failed exactly
  if it has an error, and a skipped job is inactive without
  one.
-/
def Consistent (tx : Transaction N) (s : Exec N) : Prop :=
  (∀ n ∈ tx.jobNames,
      s.ex.states n = .failed ↔ s.ex.errors n ≠ none) ∧
    ∀ n err, (n, some err) ∈ s.results → err.isSkipped = true →
      s.ex.states n = .inactive ∧ s.ex.errors n = none

------------------------------------------------------------
-- What One Step Of The Executor Does
------------------------------------------------------------

/-
  The steps of the executor's own goroutine, each with the
  jobs that it fails first hand and the skip it processes.
-/
inductive TickCase
    (tx : Transaction N)
    (workers : Nat)
    (s : Exec N) : Exec N → Prop where
| move (phase : Phase N) :
    (∀ m, ¬ s.failsAt tx workers m) →
    (∀ m, ¬ s.skipsAt m) →
    TickCase tx workers s { s with phase := phase }
| queue (phase : Phase N) (err : N → Err N) :
    (∀ m, s.failsAt tx workers m ↔ s.Queued tx m) →
    (∀ m, ¬ s.skipsAt m) →
    TickCase tx workers s
      { s with
        phase := phase
        ex := failQueued tx err s.ex tx.jobNames }
| refuse (name : N) (rest : List N) (err : Err N) :
    s.phase = .launching (name :: rest) →
    s.ex.launched name = false →
    (∀ m, s.failsAt tx workers m ↔ m = name) →
    (∀ m, ¬ s.skipsAt m) →
    TickCase tx workers s
      { s with
        phase := .launching rest
        ex := fail tx s.ex name err }
| launch (name : N) (rest : List N) :
    s.ex.launched name = false →
    s.ex.states name ≠ .failed →
    (∀ m, ¬ s.failsAt tx workers m) →
    (∀ m, ¬ s.skipsAt m) →
    TickCase tx workers s
      { s with
        phase := .launching rest
        ex :=
          { s.ex with
            launched := Function.update s.ex.launched name true
            states := Function.update s.ex.states name .activating
            started := s.ex.started ++ [name]
            inflight := s.ex.inflight + 1
            spawned := s.ex.spawned ++ [name] } }
| result
    (phase : Phase N)
    (name : N)
    (res : Option (Err N))
    (rest : List (N × Option (Err N))) :
    s.finished = (name, res) :: rest →
    (∀ m, s.failsAt tx workers m ↔ s.resultFails tx m) →
    (∀ m, s.skipsAt m ↔
      m = name ∧ ∃ err, res = some err ∧ err.isSkipped = true) →
    TickCase tx workers s
      { s with
        phase := phase
        finished := rest
        processed := s.processed ++ [(name, res)]
        ex :=
          onFinish tx
            { s.ex with inflight := s.ex.inflight - 1 } name res }

/- Outside the receiving phases no skip is processed. -/
omit [UnitNames N] in
private theorem not_skipsAt
    {s : Exec N}
    (hAwait : s.phase ≠ .awaiting)
    (hDrain : s.phase ≠ .draining)
    (m : N) :
    ¬ s.skipsAt m := by
  rintro ⟨hPhase | hPhase, _⟩
  · exact hAwait hPhase
  · exact hDrain hPhase

/- Receiving a result in one of the receiving phases. -/
private theorem receive_case
    {workers : Nat}
    {s s' : Exec N}
    {next : Phase N}
    (hPhase : s.phase = .awaiting ∨ s.phase = .draining)
    (hBusy : s.ex.inflight ≠ 0)
    (h : s.receive tx next = some s') :
    TickCase tx workers s s' := by
  unfold receive at h
  split at h
  · cases h
  rename_i name res rest hFinished
  cases h
  apply TickCase.result next name res rest hFinished
  · intro m
    rcases hPhase with hPhase | hPhase
    · simp [failsAt, hPhase, hBusy]
    · simp [failsAt, hPhase, hBusy]
  · intro m
    constructor
    · rintro ⟨_, _, err, rest', hEq, hSkip⟩
      rw [hFinished] at hEq
      cases hEq
      exact ⟨rfl, err, rfl, hSkip⟩
    · rintro ⟨rfl, err, rfl, hSkip⟩
      exact ⟨hPhase, hBusy, err, rest, hFinished, hSkip⟩

variable {name : N}

/- A launch attempt, branch by branch. -/
private theorem attempt_case
    {workers : Nat}
    {s : Exec N}
    {rest : List N}
    (hPhase : s.phase = .launching (name :: rest))
    (hLimit : s.ex.inflight < workers) :
    TickCase tx workers s
      { s with
        phase := .launching rest
        ex := tryLaunch tx s.ex name } := by
  have hNoSkip : ∀ m, ¬ s.skipsAt m :=
    not_skipsAt (by simp [hPhase]) (by simp [hPhase])
  have hFails :
      ∀ m, s.failsAt tx workers m ↔
        m = name ∧ s.ex.launched name = false ∧
          s.ex.states name ≠ .failed ∧
          s.ex.remaining name = 0 ∧
          requiresFailed tx s.ex name ≠ none := by
    intro m
    simp only [failsAt, hPhase]
    constructor
    · rintro ⟨rfl, _, hRest⟩
      exact ⟨rfl, hRest⟩
    · rintro ⟨rfl, hRest⟩
      exact ⟨rfl, hLimit, hRest⟩
  unfold tryLaunch
  split
  · rename_i hLaunched
    apply TickCase.move (.launching rest) _ hNoSkip
    intro m hm
    have hNew := ((hFails m).mp hm).2.1
    rw [hLaunched] at hNew
    cases hNew
  rename_i hNew
  split
  · rename_i hFailed
    apply TickCase.move (.launching rest) _ hNoSkip
    intro m hm
    exact ((hFails m).mp hm).2.2.1 hFailed
  rename_i hState
  split
  · rename_i hWaits
    apply TickCase.move (.launching rest) _ hNoSkip
    intro m hm
    have hZero := ((hFails m).mp hm).2.2.2.1
    omega
  rename_i hZero
  have hNew' : s.ex.launched name = false := by
    simpa using hNew
  split
  · rename_i err hReq
    apply TickCase.refuse name rest err hPhase hNew' _ hNoSkip
    intro m
    rw [hFails m]
    constructor
    · exact And.left
    · intro hm
      exact ⟨hm, hNew', hState, by omega, by simp [hReq]⟩
  · rename_i hReq
    apply TickCase.launch name rest hNew' hState _ hNoSkip
    intro m hm
    exact ((hFails m).mp hm).2.2.2.2 hReq

/- Every step of the executor is one of these cases. -/
theorem tick_cases
    {workers : Nat}
    {s s' : Exec N}
    (h : s.tick tx workers = some s') :
    TickCase tx workers s s' := by
  unfold tick at h
  split at h
  case h_1 hPhase =>
    have hNoSkip : ∀ m, ¬ s.skipsAt m :=
      not_skipsAt (by simp [hPhase]) (by simp [hPhase])
    split at h
    · rename_i err hCtx
      cases h
      apply TickCase.queue .draining (fun _ => err) _ hNoSkip
      intro m
      simp [failsAt, hPhase, hCtx]
    · rename_i hCtx
      cases h
      apply TickCase.move (.launching tx.jobNames) _ hNoSkip
      intro m
      simp [failsAt, hPhase, hCtx]
  case h_2 hPhase =>
    cases h
    apply TickCase.move .awaiting
    · intro m
      simp [failsAt, hPhase]
    · exact not_skipsAt (by simp [hPhase]) (by simp [hPhase])
  case h_3 name rest hPhase =>
    split at h
    · rename_i hLimit
      cases h
      apply TickCase.move .awaiting
      · intro m
        simp only [failsAt, hPhase]
        rintro ⟨_, hLess, _⟩
        omega
      · exact not_skipsAt (by simp [hPhase]) (by simp [hPhase])
    · rename_i hLimit
      cases h
      exact attempt_case hPhase (by omega)
  case h_4 hPhase =>
    split at h
    · rename_i hIdle
      cases h
      apply TickCase.move .draining
      · intro m
        simp [failsAt, hPhase, hIdle]
      · rintro m ⟨_, hBusy, _⟩
        exact hBusy hIdle
    · rename_i hBusy
      exact receive_case (Or.inl hPhase) hBusy h
  case h_5 hPhase =>
    split at h
    · rename_i hIdle
      cases h
      apply TickCase.queue .done notStarted
      · intro m
        simp [failsAt, hPhase, hIdle]
      · rintro m ⟨_, hBusy, _⟩
        exact hBusy hIdle
    · rename_i hBusy
      exact receive_case (Or.inr hPhase) hBusy h
  case h_6 => cases h

------------------------------------------------------------
-- Stages Of A Job
------------------------------------------------------------

/-
  An unlaunched job is inactive or failed, a job in flight
  is activating or failed.
-/
structure Staged (s : Exec N) : Prop where
  unlaunched :
    ∀ n, s.ex.launched n = false →
      s.ex.states n = .inactive ∨ s.ex.states n = .failed
  inflight :
    ∀ n, n ∈ s.ex.spawned ∨ n ∈ s.outstanding ∨
        n ∈ s.finished.map Prod.fst →
      s.ex.states n = .activating ∨ s.ex.states n = .failed

namespace Staged

variable {workers : Nat}
variable {s s' : Exec N}

/- A job that was not launched may still be started or is failed. -/
omit [UnitNames N] in
theorem open_of_new
    (h : Staged s)
    {n : N}
    (hNew : s.ex.launched n = false) :
    s.ex.jobNotYetStarted n = true ∨ s.ex.states n = .failed := by
  rcases h.unlaunched n hNew with hState | hState
  · exact Or.inl (jobNotYetStarted_iff.mpr (Or.inl hState))
  · exact Or.inr hState

theorem fail
    (h : Staged s)
    {ex : Executor N}
    (hFail : FailStep tx s.ex ex)
    (phase : Phase N) :
    Staged { s with ex := ex, phase := phase } where
  unlaunched n hl := by
    simp only [hFail.launched] at hl
    rcases hFail.states n with hSame | hNew
    · simp only [hSame]
      exact h.unlaunched n hl
    · exact Or.inr hNew.1
  inflight n hn := by
    simp only [hFail.spawned] at hn
    rcases hFail.states n with hSame | hNew
    · simp only [hSame]
      exact h.inflight n hn
    · exact Or.inr hNew.1

end Staged

------------------------------------------------------------
-- Processing A Result
------------------------------------------------------------

/- The executor when it has released the waiters of a job. -/
def receiving
    (tx : Transaction N)
    (s : Exec N)
    (name : N) :
    Executor N :=
  releaseAfter tx
    { s.ex with inflight := s.ex.inflight - 1 } name

section

variable (s : Exec N)
variable (name : N)

@[simp] theorem receiving_states :
    (s.receiving tx name).states = s.ex.states := by
  unfold receiving
  rw [releaseAfter_same]

@[simp] theorem receiving_errors :
    (s.receiving tx name).errors = s.ex.errors := by
  unfold receiving
  rw [releaseAfter_same]

@[simp] theorem receiving_launched :
    (s.receiving tx name).launched = s.ex.launched := by
  unfold receiving
  rw [releaseAfter_same]

@[simp] theorem receiving_spawned :
    (s.receiving tx name).spawned = s.ex.spawned := by
  unfold receiving
  rw [releaseAfter_same]

theorem onFinish_none :
    onFinish tx s.returning name none =
      if (s.receiving tx name).states name = .failed then
        s.receiving tx name
      else
        match requiresFailed tx (s.receiving tx name) name with
        | some err => fail tx (s.receiving tx name) name err
        | none => (s.receiving tx name).setState name .active :=
  rfl

end

variable {res : Option (Err N)}
variable {rest : List (N × Option (Err N))}

theorem setState_same
    {ex : Executor N}
    {st : State}
    (h : ex.states name = st) :
    ex.setState name st = ex := by
  unfold setState
  rw [← h, Function.update_eq_self]

/- A result fails its job, or settles its state. -/
theorem result_cases
    (tx : Transaction N)
    (s : Exec N)
    (hFinished : s.finished = (name, res) :: rest) :
    ∃ ex,
      onFinish tx s.returning name res = ex ∧
      ((s.resultFails tx name ∧
          ∃ err, ex = fail tx (s.receiving tx name) name err) ∨
        (¬ s.resultFails tx name ∧
          ∃ st, ex = (s.receiving tx name).setState name st ∧
            ((∃ err, res = some err ∧ err.isSkipped = true ∧
                st = .inactive) ∨
              (res = none ∧ s.ex.states name = .failed ∧
                st = .failed) ∨
              (res = none ∧ s.ex.states name ≠ .failed ∧
                st = .active)))) := by
  have hStates :
      (s.receiving tx name).states name = s.ex.states name := by
    rw [receiving_states]
  have hRequires :
      requiresFailed tx (s.receiving tx name) name =
        requiresFailed tx s.ex name := by
    simp only [requiresFailed, receiving_errors]
  refine ⟨_, rfl, ?_⟩
  cases res with
  | some err =>
      simp only [onFinish]
      by_cases hSkip : err.isSkipped = true
      · rw [if_pos hSkip]
        refine Or.inr ⟨?_, _, rfl, Or.inl ⟨err, rfl, hSkip, rfl⟩⟩
        simp [resultFails, hFinished, hSkip]
      · rw [if_neg hSkip]
        refine Or.inl ⟨?_, err, rfl⟩
        simpa [resultFails, hFinished] using hSkip
  | none =>
      rw [onFinish_none, hStates, hRequires]
      by_cases hFailed : s.ex.states name = .failed
      · rw [if_pos hFailed]
        refine Or.inr ⟨?_, _, (setState_same hStates).symm,
          Or.inr (Or.inl ⟨rfl, hFailed, hFailed⟩)⟩
        simp [resultFails, hFinished, hFailed]
      · rw [if_neg hFailed]
        cases hReq : requiresFailed tx s.ex name with
        | some err =>
            refine Or.inl ⟨?_, err, rfl⟩
            simp [resultFails, hFinished, hFailed, hReq]
        | none =>
            refine Or.inr ⟨?_, _, rfl,
              Or.inr (Or.inr ⟨rfl, hFailed, rfl⟩)⟩
            simp [resultFails, hFinished, hReq]

/- Only the next result can fail its own job. -/
theorem resultFails_eq
    {s : Exec N}
    {name m : N}
    (hFinished : s.finished = (name, res) :: rest)
    (h : s.resultFails tx m) :
    m = name := by
  unfold resultFails at h
  rw [hFinished] at h
  cases res with
  | some err => exact h.1
  | none => exact h.1

------------------------------------------------------------
-- Errors After One Step
------------------------------------------------------------

variable {workers : Nat}
variable {s s' : Exec N}
variable {k : N}

/-
  After a result exactly the jobs have an error that had one
  or that a failure of the result reaches.
-/
theorem result_errors_iff
    (hOrdered : Ordered tx workers s)
    (hStaged : Staged s)
    (hFinished : s.finished = (name, res) :: rest) :
    (onFinish tx s.returning name res).errors k ≠ none ↔
      s.ex.errors k ≠ none ∨
        ∃ m, s.resultFails tx m ∧ FailReach tx s.ex m k := by
  rcases result_cases tx s hFinished with
    ⟨ex, hEq, ⟨hFail, err, rfl⟩ | ⟨hNot, st, rfl, _⟩⟩
  · have hMem : name ∈ s.finished.map Prod.fst := by
      simp [hFinished]
    have hJob : name ∈ tx.jobNames := by
      apply hOrdered.tracked.jobs
      apply hOrdered.perm.mem_iff.mpr
      simp [returned, results, hFinished]
    have hMay :
        (s.receiving tx name).jobNotYetStarted name = true ∨
          (s.receiving tx name).states name = .failed := by
      rw [jobNotYetStarted_iff, receiving_states]
      rcases hStaged.inflight name (Or.inr (Or.inr hMem)) with
        hState | hState
      · exact Or.inl (Or.inr hState)
      · exact Or.inr hState
    have hSpread := (spreads_fail err hJob hMay).errors_iff
      (x := k)
    rw [hEq, hSpread, receiving_errors]
    constructor
    · rintro (hOld | ⟨r, rfl, hReach⟩)
      · exact Or.inl hOld
      · exact Or.inr ⟨r, hFail,
          hReach.congr (by simp) (by simp)⟩
    · rintro (hOld | ⟨m, hm, hReach⟩)
      · exact Or.inl hOld
      · exact Or.inr ⟨m, resultFails_eq hFinished hm,
          hReach.congr (by simp) (by simp)⟩
  · have hNone : ∀ m, ¬ s.resultFails tx m := by
      intro m hm
      exact hNot (resultFails_eq hFinished hm ▸ hm)
    simp only [hNone, false_and, exists_false, or_false]
    simp [hEq, setState]

/-
  After a step of the executor exactly the jobs have an
  error that had one or that a failure of the step reaches.
-/
theorem tick_errors_iff
    (hOrdered : Ordered tx workers s)
    (hStaged : Staged s)
    (h : s.tick tx workers = some s') :
    s'.ex.errors k ≠ none ↔
      s.ex.errors k ≠ none ∨
        ∃ m, s.failsAt tx workers m ∧ FailReach tx s.ex m k := by
  cases tick_cases h with
  | move phase hFails hSkips | launch name rest hNew hState hFails hSkips =>
      simp only [hFails, false_and, exists_false, or_false]
  | queue phase err hFails hSkips =>
      simp only [hFails]
      exact (spreads_failQueued err (fun _ hn => hn)
        s.ex).errors_iff
  | refuse name rest err hPhase hNew hFails hSkips =>
      have hJob :=
        hOrdered.rest _ hPhase name List.mem_cons_self
      simp only [hFails]
      exact (spreads_fail err hJob (hStaged.open_of_new hNew)).errors_iff
  | result phase name res rest hFinished hFails hSkips =>
      simp only [hFails]
      exact result_errors_iff hOrdered hStaged hFinished

/- The next result belongs to no other goroutine. -/
theorem Ordered.head_fresh
    (h : Ordered tx workers s)
    (hFinished : s.finished = (name, res) :: rest) :
    name ∉ s.ex.spawned ∧ name ∉ s.outstanding ∧
      name ∉ rest.map Prod.fst ∧
      name ∉ s.processed.map Prod.fst := by
  have hReturned :
      s.returned =
        s.processed.map Prod.fst ++ name :: rest.map Prod.fst := by
    simp [returned, results, hFinished]
  have hNodup := h.perm.nodup_iff.mp h.tracked.nodup
  rw [hReturned] at hNodup
  simp only [List.nodup_append, List.nodup_cons, List.mem_append,
    List.mem_cons] at hNodup
  rcases hNodup with ⟨_, ⟨_, ⟨_, ⟨hRest, _⟩, hProc⟩, hOut⟩, hSpawn⟩
  refine ⟨?_, ?_, hRest, ?_⟩
  · exact fun hMem =>
      hSpawn name hMem name (Or.inr (Or.inr (Or.inl rfl))) rfl
  · exact fun hMem =>
      hOut name hMem name (Or.inr (Or.inl rfl)) rfl
  · exact fun hMem => hProc name hMem name (Or.inl rfl) rfl

/- What is in flight beside the next result. -/
theorem Ordered.inFlight_rest
    (h : Ordered tx workers s)
    (hFinished : s.finished = (name, res) :: rest)
    {n : N}
    (hn :
      n ∈ s.ex.spawned ∨ n ∈ s.outstanding ∨ n ∈ rest.map Prod.fst) :
    n ≠ name ∧ s.InFlight n := by
  rcases h.head_fresh hFinished with ⟨hSpawn, hOut, hRest, _⟩
  constructor
  · rintro rfl
    rcases hn with hn | hn | hn
    · exact hSpawn hn
    · exact hOut hn
    · exact hRest hn
  · unfold InFlight
    rw [hFinished, List.map_cons, List.mem_cons]
    exact hn.imp_right (Or.imp_right Or.inr)

/-
  A processed result changes the state of its own job, or
  fails jobs.
-/
theorem result_states
    (tx : Transaction N)
    (hFinished : s.finished = (name, res) :: rest)
    {n : N}
    (hne : n ≠ name) :
    (onFinish tx s.returning name res).states n = s.ex.states n ∨
      (onFinish tx s.returning name res).states n = .failed ∧
        (onFinish tx s.returning name res).errors n ≠ none := by
  rcases result_cases tx s hFinished with
    ⟨ex, hEq, ⟨_, err, rfl⟩ | ⟨_, st, rfl, _⟩⟩
  · have hFail :
        FailStep tx (s.receiving tx name)
          (fail tx (s.receiving tx name) name err) :=
      failStep_fail _ name err
    rw [hEq]
    rcases hFail.states n with hSame | hNew
    · rw [receiving_states] at hSame
      exact Or.inl hSame
    · exact Or.inr ⟨hNew.1, hNew.2.2⟩
  · left
    simp [hEq, setState, hne]

namespace Staged

theorem tick
    (h : Staged s)
    (hOrdered : Ordered tx workers s)
    (hStep : s.tick tx workers = some s') :
    Staged s' := by
  cases tick_cases hStep with
  | move phase _ _ => exact { h with }
  | queue phase err _ _ =>
      exact h.fail (failStep_failQueued _ _ _) phase
  | refuse name rest err _ _ _ _ =>
      exact h.fail (failStep_fail _ _ _) (.launching rest)
  | launch name rest hNew hState _ _ =>
      constructor
      · intro n hl
        by_cases hn : n = name
        · rw [hn] at hl
          simp at hl
        · simp only [Function.update_apply, if_neg hn] at hl ⊢
          exact h.unlaunched n hl
      · intro n hn
        by_cases hEq : n = name
        · left
          simp [hEq]
        · simp only [Function.update_apply, if_neg hEq]
          apply h.inflight n
          simpa [hEq] using hn
  | result phase name res rest hFinished _ _ =>
      have hFrame := onFinish_frame s.returning tx name res
      have hLaunched : s.ex.launched name = true :=
        hOrdered.launched_of_returned
          (by simp [returned, results, hFinished])
      constructor
      · intro n hl
        simp only [hFrame.1] at hl
        have hne : n ≠ name := by
          intro hEq
          rw [hEq, hLaunched] at hl
          cases hl
        rcases result_states tx hFinished hne with hSame | hNew
        · simp only [hSame]
          exact h.unlaunched n hl
        · exact Or.inr hNew.1
      · intro n hn
        simp only [hFrame.2.2.1] at hn
        rcases hOrdered.inFlight_rest hFinished hn with ⟨hne, hOld⟩
        rcases result_states tx hFinished hne with hSame | hNew
        · simp only [hSame]
          exact h.inflight n hOld
        · exact Or.inr hNew.1

theorem step
    (h : Staged s)
    (hOrdered : Ordered tx workers s)
    {l : ExecLabel N}
    (hStep : s.step tx workers l = some s') :
    Staged s' := by
  by_cases hl : l = .tick
  · subst hl
    exact h.tick hOrdered hStep
  · rcases step_aside hl hStep with ⟨hEq, _, hFlight⟩
    refine ⟨?_, fun n hn => ?_⟩
    · rw [hEq]
      exact h.unlaunched
    · have hOld := h.inflight n (hFlight n hn)
      rw [hEq]
      exact hOld

end Staged

theorem staged_of_reachable
    (hs : (executor tx workers).Reachable s) :
    Staged s := by
  refine Lib.System.reachable_invariant (I := Staged) ?_ ?_ hs
  · intro s hInit
    obtain rfl := begin_eq hInit
    exact ⟨fun _ _ => Or.inl rfl, by simp [start]⟩
  · intro s l s' hReach h hStep
    exact h.step (ordered_of_reachable hReach) hStep

------------------------------------------------------------
-- Consistent Books
------------------------------------------------------------

/-
  Along a run in which skips and failures stay apart, the
  books are consistent at every step.
-/
structure Clean (s : Exec N) : Prop where
  failed : ∀ n, s.ex.states n = .failed ↔ s.ex.errors n ≠ none
  skipped :
    ∀ k, s.Skipped k →
      s.ex.states k = .inactive ∧ s.ex.errors k = none

/- A skipped job that has an error. -/
def Spoiled (s : Exec N) : Prop :=
  ∃ k, s.Skipped k ∧ s.ex.errors k ≠ none

section

variable {ex ex' : Executor N}

/- Failures give an error to the jobs that they fail. -/
theorem failed_failStep
    (h : ∀ n, ex.states n = .failed → ex.errors n ≠ none)
    (hFail : FailStep tx ex ex')
    (n : N)
    (hState : ex'.states n = .failed) :
    ex'.errors n ≠ none := by
  rcases hFail.states n with hSame | hNew
  · rw [hSame] at hState
    exact fun hNone => h n hState (hFail.errors_none hNone)
  · exact hNew.2.2

/- Failures keep failed states and errors in step. -/
theorem failed_iff_of_failStep
    (h : ∀ n, ex.states n = .failed ↔ ex.errors n ≠ none)
    (hFail : FailStep tx ex ex')
    (n : N) :
    ex'.states n = .failed ↔ ex'.errors n ≠ none := by
  refine ⟨failed_failStep (fun n => (h n).mp) hFail n, ?_⟩
  intro hSome
  by_cases hOld : ex.errors n = none
  · exact hFail.fresh n hOld hSome
  · exact hFail.failed ((h n).mpr hOld)

end

namespace Clean

/- Failures that reach no skipped job keep the books. -/
theorem fail
    (h : Clean s)
    {ex : Executor N}
    (hFail : FailStep tx s.ex ex)
    (hSafe : ∀ k, s.Skipped k → ex.errors k = none)
    (phase : Phase N) :
    Clean { s with ex := ex, phase := phase } where
  failed := failed_iff_of_failStep h.failed hFail
  skipped k hk := by
    refine ⟨?_, hSafe k hk⟩
    rcases hFail.states k with hSame | hNew
    · simp only [hSame]
      exact (h.skipped k hk).1
    · exact absurd (hSafe k hk) hNew.2.2

theorem tick
    (h : Clean s)
    (hOrdered : Ordered tx workers s)
    (hStaged : Staged s)
    (hSafe : s.SkipSafe tx workers .tick)
    (hStep : s.tick tx workers = some s') :
    Clean s' := by
  rcases hSafe rfl with ⟨hSkip, hReach⟩
  -- No skipped job is given an error by this step.
  have hKeep :
      ∀ k, s.Skipped k → s'.ex.errors k = none := by
    intro k hk
    by_contra hSome
    rcases (tick_errors_iff hOrdered hStaged hStep).mp hSome with
      hOld | ⟨m, hm, hr⟩
    · exact hOld (h.skipped k hk).2
    · exact hReach m k hm hk hr
  cases tick_cases hStep with
  | move phase _ _ => exact { h with }
  | queue phase err _ _ =>
      exact h.fail (failStep_failQueued _ _ _) hKeep phase
  | refuse name rest err _ _ _ _ =>
      exact h.fail (failStep_fail _ _ _) hKeep (.launching rest)
  | launch name rest hNew hState _ _ =>
      constructor
      · intro n
        by_cases hn : n = name
        · simp [hn, not_not.mp (mt (h.failed name).mpr hState)]
        · simp only [Function.update_apply, if_neg hn]
          exact h.failed n
      · rintro k ⟨err, hk, hErr⟩
        have hLaunched : s.ex.launched k = true :=
          hOrdered.launched_of_returned
            (List.mem_map_of_mem (List.mem_append_left _ hk))
        have hne : k ≠ name := by
          intro hEq
          rw [hEq, hNew] at hLaunched
          cases hLaunched
        simp only [Function.update_apply, if_neg hne]
        exact h.skipped k ⟨err, hk, hErr⟩
  | result phase name res rest hFinished hFails hSkips =>
      have hFresh := (hOrdered.head_fresh hFinished).2.2.2
      have hOldSkip :
          ∀ k, s.Skipped k → k ≠ name := by
        rintro k ⟨err, hk, _⟩ hEq
        exact hFresh (List.mem_map.mpr ⟨_, hk, hEq⟩)
      constructor
      · -- The failed states, by the kind of result.
        intro n
        rcases result_cases tx s hFinished with
          ⟨ex, hEq, ⟨_, err, rfl⟩ | ⟨_, st, rfl, hSt⟩⟩
        · simp only [hEq]
          refine failed_iff_of_failStep ?_
            (failStep_fail (s.receiving tx name) name err) n
          intro m
          rw [receiving_states, receiving_errors]
          exact h.failed m
        · simp only [hEq, setState, Function.update_apply,
            receiving_states, receiving_errors]
          split
          · rename_i hn
            rw [hn]
            rcases hSt with
              ⟨err, hRes, hErr, rfl⟩ | ⟨_, hFailed, rfl⟩ |
                ⟨_, hState, rfl⟩
            · have hNone :=
                hSkip name ((hSkips name).mpr ⟨rfl, err, hRes, hErr⟩)
              simp [hNone]
            · simpa [hFailed] using h.failed name
            · simp [not_not.mp (mt (h.failed name).mpr hState)]
          · exact h.failed n
      · -- The skipped jobs: this one and the earlier ones.
        rintro k ⟨err, hk, hErr⟩
        rcases List.mem_append.mp hk with hOld | hLast
        · have hSkipped : s.Skipped k := ⟨err, hOld, hErr⟩
          refine ⟨?_, hKeep k hSkipped⟩
          rcases result_states tx hFinished
              (hOldSkip k hSkipped) with hSame | hNew
          · simp only [hSame]
            exact (h.skipped k hSkipped).1
          · exact absurd (hKeep k hSkipped) hNew.2
        · have hPair : (k, some err) = (name, res) :=
            List.mem_singleton.mp hLast
          cases hPair
          have hNone :=
            hSkip name ((hSkips name).mpr ⟨rfl, err, rfl, hErr⟩)
          have hEq :
              onFinish tx s.returning name (some err) =
                (s.receiving tx name).setState name .inactive := by
            simp only [onFinish]
            rw [if_pos hErr]
            rfl
          simp [hEq, setState, hNone]

theorem step
    (h : Clean s)
    (hOrdered : Ordered tx workers s)
    (hStaged : Staged s)
    {l : ExecLabel N}
    (hSafe : s.SkipSafe tx workers l)
    (hStep : s.step tx workers l = some s') :
    Clean s' := by
  by_cases hl : l = .tick
  · subst hl
    exact h.tick hOrdered hStaged hSafe hStep
  · rw [(step_aside hl hStep).1]
    exact { h with }

end Clean

variable {l : ExecLabel N}

/- A processed skip stays processed. -/
theorem Skipped.step
    (h : s.Skipped k)
    (hStep : s.step tx workers l = some s') :
    s'.Skipped k := by
  rcases h with ⟨err, hk, hErr⟩
  by_cases hl : l = .tick
  · subst hl
    cases tick_cases hStep with
    | result phase name res rest _ _ _ =>
        exact ⟨err, List.mem_append_left _ hk, hErr⟩
    | move | queue | refuse | launch => exact ⟨err, hk, hErr⟩
  · rw [(step_aside hl hStep).1]
    exact ⟨err, hk, hErr⟩

/- Spoiled books stay spoiled. -/
theorem Spoiled.step
    (h : s.Spoiled)
    (hOrdered : Ordered tx workers s)
    (hStaged : Staged s)
    (hStep : s.step tx workers l = some s') :
    s'.Spoiled := by
  rcases h with ⟨k, hSkip, hErr⟩
  refine ⟨k, hSkip.step hStep, ?_⟩
  by_cases hl : l = .tick
  · subst hl
    exact (tick_errors_iff hOrdered hStaged hStep).mpr
      (Or.inl hErr)
  · rw [(step_aside hl hStep).1]
    exact hErr

/- A step that is not safe spoils the books. -/
theorem spoiled_of_not_skipSafe
    (hOrdered : Ordered tx workers s)
    (hStaged : Staged s)
    (hUnsafe : ¬ s.SkipSafe tx workers l)
    (hStep : s.step tx workers l = some s') :
    s'.Spoiled := by
  have hTick : l = .tick := by
    by_contra hNot
    exact hUnsafe (fun hEq => absurd hEq hNot)
  subst hTick
  have hErrors := fun k =>
    tick_errors_iff hOrdered hStaged hStep (k := k)
  by_cases hSkip : ∀ m, s.skipsAt m → s.ex.errors m = none
  · -- A failure reaches a job that was skipped before.
    have hReach :
        ∃ m k, s.failsAt tx workers m ∧ s.Skipped k ∧
          FailReach tx s.ex m k := by
      by_contra hNone
      apply hUnsafe
      intro _
      refine ⟨hSkip, ?_⟩
      intro m k hm hk hr
      exact hNone ⟨m, k, hm, hk, hr⟩
    rcases hReach with ⟨m, k, hm, hk, hr⟩
    exact ⟨k, hk.step hStep,
      (hErrors k).mpr (Or.inr ⟨m, hm, hr⟩)⟩
  · -- A skip is processed for a job that has an error.
    rw [not_forall] at hSkip
    rcases hSkip with ⟨m, hm⟩
    rw [Classical.not_imp] at hm
    rcases hm with ⟨hm, hErr⟩
    refine ⟨m, ?_, (hErrors m).mpr (Or.inl hErr)⟩
    cases tick_cases hStep with
    | move _ _ hNo | queue _ _ _ hNo | refuse _ _ _ _ _ _ hNo
    | launch _ _ _ _ _ hNo =>
        exact absurd hm (hNo m)
    | result phase name res rest _ _ hSkips =>
        rcases (hSkips m).mp hm with ⟨rfl, err, rfl, hIs⟩
        exact ⟨err, by simp, hIs⟩

/- An execution returns once nothing is in flight. -/
theorem tick_done
    (hStep : s.tick tx workers = some s')
    (hDone : s'.phase = .done) :
    s.phase = .draining ∧ s.ex.inflight = 0 ∧
      s' =
        { s with
          phase := .done
          ex := failQueued tx notStarted s.ex tx.jobNames } := by
  unfold tick at hStep
  split at hStep
  case h_1 | h_3 =>
    split at hStep
    · cases hStep
      cases hDone
    · cases hStep
      cases hDone
  case h_2 =>
    cases hStep
    cases hDone
  case h_4 =>
    split at hStep
    · cases hStep
      cases hDone
    · unfold receive at hStep
      split at hStep
      · cases hStep
      · cases hStep
        cases hDone
  case h_5 hPhase =>
    split at hStep
    · rename_i hIdle
      cases hStep
      exact ⟨hPhase, hIdle, rfl⟩
    · unfold receive at hStep
      split at hStep
      · cases hStep
      · cases hStep
        cases hDone
  case h_6 => cases hStep

/-
  A property that the closing pass establishes and calls and
  cancellations keep holds of a returned execution.
-/
theorem done_invariant
    {P : Exec N → Prop}
    (hClose :
      ∀ s s', (executor tx workers).Reachable s →
        s.ex.inflight = 0 → s.tick tx workers = some s' →
        s' =
          { s with
            phase := .done
            ex := failQueued tx notStarted s.ex tx.jobNames } →
        P s')
    (hKeep :
      ∀ s s' l, l ≠ .tick → P s →
        s.step tx workers l = some s' → P s')
    (hs : (executor tx workers).Reachable s)
    (hDone : s.phase = .done) :
    P s := by
  have hInv : s.phase = .done → P s := by
    refine Lib.System.reachable_invariant
      (I := fun s : Exec N => s.phase = .done → P s) ?_ ?_ hs
    · intro s hInit hPhase
      rw [begin_eq hInit] at hPhase
      cases hPhase
    · intro s l s' hReach ih hStep hPhase
      by_cases hl : l = .tick
      · subst hl
        rcases tick_done hStep hPhase with ⟨_, hIdle, hEq⟩
        exact hClose s s' hReach hIdle hStep hEq
      · refine hKeep s s' l hl (ih ?_) hStep
        rw [(step_aside hl hStep).1] at hPhase
        exact hPhase
  exact hInv hDone

/- Nothing is in flight in a returned execution. -/
theorem idle_of_done
    (hs : (executor tx workers).Reachable s)
    (hDone : s.phase = .done) :
    s.ex.inflight = 0 := by
  refine done_invariant
    (P := fun s : Exec N => s.ex.inflight = 0) ?_ ?_ hs hDone
  · rintro s s' _ hIdle _ rfl
    exact (failStep_failQueued s.ex notStarted
      tx.jobNames).inflight.trans hIdle
  · intro s s' l hl hIdle hStep
    rw [(step_aside hl hStep).1]
    exact hIdle

/- Every result of a returned execution was processed. -/
theorem results_of_done
    (hs : (executor tx workers).Reachable s)
    (hDone : s.phase = .done) :
    s.results = s.processed := by
  have hIdle := idle_of_done hs hDone
  rw [results, ((ordered_of_reachable hs).idle hIdle).2.2,
    List.append_nil]

------------------------------------------------------------
-- Whole Runs
------------------------------------------------------------

/- A run that meets the condition keeps the books clean. -/
theorem clean_of_reachable
    (hs :
      (executor tx workers).ReachableWhere (SkipSafe tx workers) s) :
    Clean s := by
  refine Lib.System.reachableWhere_invariant (I := Clean) ?_ ?_ hs
  · intro s hInit
    obtain rfl := begin_eq hInit
    exact ⟨by simp [start], by simp [Skipped]⟩
  · intro s l s' hReach h hSafe hStep
    exact h.step (ordered_of_reachable hReach.reachable)
      (staged_of_reachable hReach.reachable) hSafe hStep

/-
  When an execution returns, every job is failed exactly if
  it has an error and every skipped job is inactive without
  one, if and only if each step of the run processed skips
  only for jobs without an error and failed no skipped job.
-/
theorem consistent_iff_skipSafe
    {s₀ : Exec N}
    {ls : List (ExecLabel N)}
    (hBegin : tx.executeWithLimit workers = .ok s₀)
    (hRun : (executor tx workers).run s₀ ls = some s)
    (hDone : s.phase = .done) :
    s.Consistent tx ↔
      (executor tx workers).Meets (SkipSafe tx workers) s₀ ls := by
  have hReach : (executor tx workers).Reachable s :=
    Lib.System.reachable_of_run ls hBegin hRun
  have hResults := results_of_done hReach hDone
  constructor
  · rintro ⟨_, hSkipped⟩
    refine (Lib.System.meets_or (Q := Spoiled) ?_
      ⟨s₀, hBegin, .refl s₀⟩ hRun).resolve_right ?_
    · intro s l t hReach hBad hStep
      have hOrdered := ordered_of_reachable hReach
      have hStaged := staged_of_reachable hReach
      rcases hBad with hOld | hUnsafe
      · exact hOld.step hOrdered hStaged hStep
      · exact spoiled_of_not_skipSafe hOrdered hStaged hUnsafe hStep
    · rintro ⟨k, ⟨err, hk, hErr⟩, hSome⟩
      exact hSome (hSkipped k err (hResults ▸ hk) hErr).2
  · intro hMeets
    have hClean : Clean s :=
      clean_of_reachable
        (Lib.System.reachableWhere_of_run ls hBegin hRun hMeets)
    refine ⟨fun n _ => hClean.failed n, ?_⟩
    intro n err hMem hErr
    exact hClean.skipped n ⟨err, hResults ▸ hMem, hErr⟩

section Runs

local instance : UnitNames String := asciiNames

/- A service that requires another without following it. -/
def unordered : List (Option (UnitFile String)) :=
  [some
      { UnitFile.bare "a.service" .service with
        requires := ["b.service"] },
    some (.bare "b.service" .service)]

/-
  Both calls are in progress when the required start fails;
  the other one then reports a skip.
-/
def failThenSkip : List (ExecLabel String) :=
  [.tick, .tick, .tick, .tick, .invoke "a.service",
    .invoke "b.service", .finish "b.service" (some (.text "exit")),
    .tick, .tick, .tick, .tick, .tick,
    .finish "a.service" (some .skipped), .tick, .tick, .tick, .tick,
    .tick, .tick, .tick]

/- The same two calls, with the skip processed alone. -/
def skipOnly : List (ExecLabel String) :=
  [.tick, .tick, .tick, .tick, .invoke "a.service",
    .invoke "b.service", .finish "b.service" none,
    .tick, .tick, .tick, .tick, .tick,
    .finish "a.service" (some .skipped), .tick, .tick, .tick, .tick,
    .tick, .tick, .tick]

/-
  A skipped start ends inactive with a recorded error, so
  the returned books are not consistent.
-/
theorem skipped_with_error :
    ∃ g tx s₀ s, build unordered = .ok g ∧
      g.planStart ["a.service"] = .ok tx ∧
      tx.executeWithLimit 2 = .ok s₀ ∧
      (executor tx 2).run s₀ failThenSkip = some s ∧
      s.phase = .done ∧
      ("a.service", some .skipped) ∈ s.results ∧
      s.ex.states "a.service" = .inactive ∧
      s.ex.errors "a.service" =
        some (.dependency "a.service" "b.service" (.text "exit")) :=
  ⟨_, _, _, _, rfl, rfl, rfl, rfl, rfl, by decide, rfl, rfl⟩

/- Without a failure the skip leaves the books consistent. -/
theorem consistent_skipOnly :
    ∃ g tx s₀ s, build unordered = .ok g ∧
      g.planStart ["a.service"] = .ok tx ∧
      tx.executeWithLimit 2 = .ok s₀ ∧
      (executor tx 2).run s₀ skipOnly = some s ∧
      s.phase = .done ∧
      s.ex.states "a.service" = .inactive ∧
      s.ex.errors "a.service" = none ∧
      (s.Consistent tx ↔
        (executor tx 2).Meets (SkipSafe tx 2) s₀ skipOnly) := by
  have hRun :
      ∃ g tx s₀ s, build unordered = .ok g ∧
        g.planStart ["a.service"] = .ok tx ∧
        tx.executeWithLimit 2 = .ok s₀ ∧
        (executor tx 2).run s₀ skipOnly = some s ∧
        s.phase = .done ∧
        s.ex.states "a.service" = .inactive ∧
        s.ex.errors "a.service" = none :=
    ⟨_, _, _, _, rfl, rfl, rfl, rfl, rfl, rfl, rfl⟩
  rcases hRun with
    ⟨g, tx, s₀, s, hBuild, hPlan, hBegin, hRun, hDone, hState,
      hError⟩
  exact ⟨g, tx, s₀, s, hBuild, hPlan, hBegin, hRun, hDone, hState,
    hError, consistent_iff_skipSafe hBegin hRun hDone⟩

end Runs

end Exec

end Core

end Winunitd
