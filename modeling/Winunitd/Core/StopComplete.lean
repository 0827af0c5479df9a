import Winunitd.Core.StartSettled
import Winunitd.Core.ExecuteStop
import Winunitd.Core.StopPlan

/-
  A stop is best effort and complete.

  Step by step, a stop execution does what a start would do
  if none of its calls failed, so all that is known of the
  goroutines and counters of such a start holds of the stop.
  `Stopping` adds what a stop records of its results.  As the
  waits have no cycle, a pass that leaves nothing in flight
  has launched every job.

  Key definitions include:
    * `stopExecutor`
    * `StopLabel.calls`, `StopLabel.returns`
    * `StopExec.Stopping`, `StopExec.Along`

  Key theorems include:
    * `StopExec.Along.step`
    * `StopExec.stopping_of_run`
    * `StopExec.stop_returns`
    * `StopExec.stop_complete`
-/

------------------------------------------------------------
-- Runs
------------------------------------------------------------

namespace Winunitd

namespace Core

open Lib.Digraph (Acyclic)

variable {N : Type}
variable [UnitNames N]
variable {tx : Transaction N}
variable {workers : Nat}

/- All stop executions of a plan with a worker limit. -/
def stopExecutor
    (tx : Transaction N)
    (workers : Nat) :
    Lib.System (StopExec N) (StopLabel N) where
  init s := tx.executeStopWithLimit workers = .ok s
  step := StopExec.step tx workers

namespace StopLabel

omit [UnitNames N]

/- The call that a label begins. -/
def call? : StopLabel N → Option N
| .invoke n => some n
| _ => none

/- The result that a label hands over. -/
def return? : StopLabel N → Option (N × Option (Err N))
| .finish n res => some (n, res)
| _ => none

/- The stopper calls of a run, in order. -/
def calls (ls : List (StopLabel N)) : List N :=
  ls.filterMap call?

/- The results of the stopper calls of a run, in order. -/
def returns (ls : List (StopLabel N)) : List (N × Option (Err N)) :=
  ls.filterMap return?

@[simp] theorem calls_append (ls ms : List (StopLabel N)) :
    calls (ls ++ ms) = calls ls ++ calls ms := by
  simp [calls]

@[simp] theorem returns_append (ls ms : List (StopLabel N)) :
    returns (ls ++ ms) = returns ls ++ returns ms := by
  simp [returns]

@[simp] theorem calls_invoke (n : N) :
    calls [StopLabel.invoke n] = [n] := rfl

@[simp] theorem calls_finish (n : N) (res : Option (Err N)) :
    calls [StopLabel.finish n res] = [] := rfl

@[simp] theorem calls_tick : calls [(.tick : StopLabel N)] = [] := rfl

@[simp] theorem returns_invoke (n : N) :
    returns [StopLabel.invoke n] = [] := rfl

@[simp] theorem returns_finish (n : N) (res : Option (Err N)) :
    returns [StopLabel.finish n res] = [(n, res)] := rfl

@[simp] theorem returns_tick :
    returns [(.tick : StopLabel N)] = [] := rfl

/- What the start along with a stop does. -/
def asStart : StopLabel N → ExecLabel N
| .invoke n => .invoke n
| .finish n _ => .finish n none
| .tick => .tick

end StopLabel

------------------------------------------------------------
-- The Stop Executor
------------------------------------------------------------

namespace StopExecutor

/- The counters of a stop are kept as those of a start. -/
def counters (ex : StopExecutor N) : Executor N where
  states := ex.states
  errors := ex.errors
  started := ex.stopped
  launched := ex.launched
  released := ex.released
  remaining := ex.remaining
  inflight := ex.inflight
  rejected := []
  spawned := ex.spawned

/- Releasing changes the release flags and counters only. -/
theorem releaseAfter_same
    (tx : Transaction N)
    (ex : StopExecutor N)
    (name : N) :
    releaseAfter tx ex name =
      { ex with
        released := (releaseAfter tx ex name).released
        remaining := (releaseAfter tx ex name).remaining } := by
  unfold releaseAfter
  split <;> rfl

variable {ex : StopExecutor N}

/- Nothing is released twice. -/
theorem releaseAfter_of_released
    {name : N}
    (h : ex.released name = true) :
    releaseAfter tx ex name = ex :=
  if_pos h

/- The errors after a result: the first one of a job stays. -/
def recorded
    (errors : N → Option (Err N))
    (name : N)
    (res : Option (Err N)) : N → Option (Err N) :=
  Function.update errors name ((errors name).or res)

theorem markDone_of_released
    {name : N}
    (h : ex.released name = true)
    (res : Option (Err N)) :
    markDone tx ex name res =
      { ex with
        errors := recorded ex.errors name res
        states := Function.update ex.states name .inactive } := by
  unfold markDone
  cases res with
  | none =>
      have hSame : recorded ex.errors name none = ex.errors := by
        simp [recorded]
      rw [hSame]
      exact releaseAfter_of_released h
  | some err =>
      cases hOld : ex.errors name with
      | none =>
          have hNew :
              recorded ex.errors name (some err) =
                Function.update ex.errors name (some err) := by
            simp [recorded, hOld]
          simp only [hNew]
          exact releaseAfter_of_released h
      | some old =>
          have hSame :
              recorded ex.errors name (some err) = ex.errors := by
            rw [recorded, hOld, Option.some_or, ← hOld,
              Function.update_eq_self]
          simp only [hSame]
          exact releaseAfter_of_released h

/- Processing a result settles its job. -/
theorem onFinish_eq
    (tx : Transaction N)
    (ex : StopExecutor N)
    (name : N)
    (res : Option (Err N)) :
    onFinish tx ex name res =
      { ex with
        errors := recorded ex.errors name res
        states := Function.update ex.states name .inactive
        released := (releaseAfter tx ex name).released
        remaining := (releaseAfter tx ex name).remaining } := by
  have hReleased : (releaseAfter tx ex name).released name = true := by
    unfold releaseAfter
    split
    · assumption
    · simp
  rw [onFinish, markDone_of_released hReleased,
    releaseAfter_same tx ex name]

/- The states of a stop, as a start goes through them. -/
def opposite : State → State
| .active => .inactive
| .deactivating => .activating
| _ => .active

/- The executor of a start in which no job fails. -/
def asStart (ex : StopExecutor N) : Executor N :=
  { ex.counters with
    states := fun n => opposite (ex.states n)
    errors := fun _ => none }

omit [UnitNames N] in
theorem asStart_states
    (ex : StopExecutor N)
    (n : N) :
    ex.asStart.states n ≠ .failed := by
  show opposite (ex.states n) ≠ .failed
  cases ex.states n <;> exact nofun

theorem asStart_requires
    (tx : Transaction N)
    (ex : StopExecutor N)
    (name : N) :
    Executor.requiresFailed tx ex.asStart name = none :=
  Executor.requiresFailed_eq_none (fun _ _ _ => rfl)

theorem opposite_update
    (states : N → State)
    (name : N)
    (st : State) :
    (fun n => opposite (Function.update states name st n)) =
      Function.update (fun n => opposite (states n)) name
        (opposite st) :=
  Function.comp_update opposite states name st

theorem asStart_tryLaunch
    (tx : Transaction N)
    (ex : StopExecutor N)
    (name : N) :
    (ex.tryLaunch name).asStart =
      Executor.tryLaunch tx ex.asStart name := by
  have hLaunched : ex.asStart.launched = ex.launched := rfl
  have hRemaining : ex.asStart.remaining = ex.remaining := rfl
  unfold tryLaunch Executor.tryLaunch
  rw [if_neg (asStart_states ex name), asStart_requires, hLaunched,
    hRemaining]
  split
  · rfl
  split
  · rfl
  · simp only [asStart, opposite_update]
    rfl

/- The result of a stop is taken for a success. -/
theorem asStart_onFinish
    (tx : Transaction N)
    (ex : StopExecutor N)
    (name : N)
    (res : Option (Err N)) :
    (onFinish tx ex name res).asStart =
      Executor.onFinish tx ex.asStart name none := by
  have hRelease :
      Executor.releaseAfter tx ex.asStart name =
        (releaseAfter tx ex name).asStart := by
    unfold releaseAfter Executor.releaseAfter
    split
    · rw [if_pos (by assumption)]
    · rw [if_neg (by assumption)]
      rfl
  simp only [Executor.onFinish, hRelease, if_neg (asStart_states _ _),
    asStart_requires]
  rw [onFinish_eq, releaseAfter_same tx ex name]
  simp only [asStart, opposite_update]
  rfl

end StopExecutor

------------------------------------------------------------
-- Goroutines And Counters
------------------------------------------------------------

namespace StopExec

open StopExecutor StopLabel

/-
  The state of a stop execution, given the calls made so far
  and the results that it has processed.
-/
structure Stopping
    (tx : Transaction N)
    (workers : Nat)
    (invoked : List N)
    (processed : List (N × Option (Err N)))
    (s : StopExec N) : Prop where
  counted : Executor.Counted tx s.ex.counters
  launched : ∀ n, s.ex.launched n = true ↔ n ∈ s.ex.stopped
  nodup : s.ex.stopped.Nodup
  jobs : ∀ n ∈ s.ex.stopped, n ∈ tx.jobNames
  released :
    ∀ n, s.ex.released n = true ↔ n ∈ processed.map Prod.fst
  perm :
    s.ex.stopped.Perm
      (s.ex.spawned ++
        (s.outstanding ++ (processed ++ s.finished).map Prod.fst))
  invoked :
    invoked.Perm
      (s.outstanding ++ (processed ++ s.finished).map Prod.fst)
  inflight :
    s.ex.inflight =
      s.ex.spawned.length + s.outstanding.length +
        s.finished.length
  bound : s.ex.inflight ≤ workers
  ready :
    ∀ n ∈ s.ex.stopped, ∀ d ∈ tx.waitsFor n,
      d ∈ processed.map Prod.fst
  settled :
    ∀ n ∈ processed.map Prod.fst, s.ex.states n = .inactive
  errors :
    ∀ n e, s.ex.errors n = some e ↔ (n, some e) ∈ processed
  rest :
    ∀ ns, s.phase = .launching ns → ∀ n ∈ ns, n ∈ tx.jobNames
  idle :
    s.phase = .draining ∨ s.phase = .done → s.ex.inflight = 0
  passed :
    ∀ n ∈ tx.jobNames, s.phase.Passed n → s.ex.inflight = 0 →
      s.ex.launched n = true ∨ 0 < s.ex.remaining n

/- What the stop executor remembers of the results. -/
structure Recorded
    (tx : Transaction N)
    (processed : List (N × Option (Err N)))
    (ex : StopExecutor N) : Prop where
  ready :
    ∀ n ∈ ex.stopped, ∀ d ∈ tx.waitsFor n,
      d ∈ processed.map Prod.fst
  settled :
    ∀ n ∈ processed.map Prod.fst, ex.states n = .inactive
  errors :
    ∀ n e, ex.errors n = some e ↔ (n, some e) ∈ processed

/- A call that ends as every call of a start that succeeds. -/
def succeeded (r : N × Option (Err N)) : N × Option (Err N) :=
  (r.1, none)

/- The start execution that goes along with a stop execution. -/
def asStart
    (invoked : List N)
    (processed : List (N × Option (Err N)))
    (s : StopExec N) : Exec N where
  phase := s.phase
  ex := s.ex.asStart
  ctxErr := none
  outstanding := s.outstanding
  finished := s.finished.map succeeded
  processed := processed.map succeeded
  invoked := invoked

/- A start execution goes along with a stop execution. -/
def Along
    (tx : Transaction N)
    (invoked : List N)
    (returned : List (N × Option (Err N)))
    (s : StopExec N)
    (t : Exec N) : Prop :=
  ∃ processed, returned = processed ++ s.finished ∧
    Recorded tx processed s.ex ∧ t = s.asStart invoked processed

variable {invoked : List N}
variable {processed : List (N × Option (Err N))}
variable {s s' : StopExec N}

omit [UnitNames N] in
theorem map_succeeded
    (rs : List (N × Option (Err N))) :
    (rs.map succeeded).map Prod.fst = rs.map Prod.fst := by
  rw [List.map_map]
  rfl

theorem asStart_begin
    (h : tx.executeStopWithLimit workers = .ok s) :
    ∃ t, tx.executeWithLimit workers = .ok t ∧
      Along tx [] [] s t := by
  unfold Transaction.executeStopWithLimit at h
  split at h
  · cases h
  rename_i hWorkers
  split at h
  · cases h
  rename_i tx' hValid
  obtain rfl := (Transaction.validate_ok_iff.mp hValid).1
  cases h
  refine ⟨_, ?_, [], rfl, ?_, rfl⟩
  · simp only [Transaction.executeWithLimit, if_neg hWorkers, hValid]
    rfl
  · constructor <;> simp [start]

namespace Stopping

/- All but the records is known of the start. -/
theorem of_start
    (hs : (executor tx workers).Reachable (s.asStart invoked processed))
    (h : Recorded tx processed s.ex) :
    Stopping tx workers invoked processed s := by
  have hOrdered := Exec.ordered_of_reachable hs
  have hSettling := (Exec.settling_of_reachable hs).2
  have hReturned :
      (s.asStart invoked processed).returned =
        (processed ++ s.finished).map Prod.fst := by
    rw [← map_succeeded, List.map_append]
    rfl
  exact
    { counted := hOrdered.tracked.counted
      launched := hOrdered.tracked.launched
      nodup := hOrdered.tracked.nodup
      jobs := hOrdered.tracked.jobs
      released := by
        intro n
        rw [← map_succeeded]
        exact (hOrdered.tracked.released n).trans
          (or_iff_left (fun hErr => hErr.2 rfl))
      perm := hReturned ▸ hOrdered.perm
      invoked := hReturned ▸ hOrdered.invoked
      inflight := by
        have hInflight := hOrdered.inflight
        rw [asStart, List.length_map] at hInflight
        exact hInflight
      bound := hOrdered.bound
      ready := h.ready
      settled := h.settled
      errors := h.errors
      rest := hOrdered.rest
      idle := Or.rec (hSettling.idle rfl) (Exec.idle_of_done hs)
      passed := fun n hn hPassed hIdle =>
        (hSettling.passed rfl n hn hPassed hIdle).imp_right
          (Or.resolve_left · (fun hErr => hErr rfl)) }

variable (h : Stopping tx workers invoked processed s)

include h

/- With nothing in flight no goroutine has a job. -/
theorem nothing
    (hIdle : s.ex.inflight = 0) :
    s.ex.spawned = [] ∧ s.outstanding = [] ∧ s.finished = [] := by
  have hInflight := h.inflight
  simp only [← List.length_eq_zero_iff]
  omega

/- A job with a result has been launched. -/
theorem launched_of_processed
    {n : N}
    (hn : n ∈ processed.map Prod.fst) :
    s.ex.launched n = true := by
  apply (h.launched n).mpr
  apply h.perm.mem_iff.mpr
  simp only [List.map_append, List.mem_append]
  exact Or.inr (Or.inr (Or.inl hn))

/- A job is launched only when all that it waits for returned. -/
theorem recorded_tryLaunch
    {name : N}
    (hJob : name ∈ tx.jobNames) :
    Recorded tx processed (s.ex.tryLaunch name) := by
  have hOld : Recorded tx processed s.ex :=
    { h with }
  unfold tryLaunch
  split
  · exact hOld
  rename_i hNew
  split
  · exact hOld
  rename_i hZero
  refine { hOld with ready := ?_, settled := ?_ }
  · intro n hn d hd
    rcases List.mem_append.mp hn with hOld | hLast
    · exact h.ready n hOld d hd
    · rw [List.mem_singleton.mp hLast] at hd
      exact (h.released d).mp
        (h.counted.released_of_zero hJob (Nat.eq_zero_of_not_pos hZero)
          hd)
  · intro n hn
    have hNe : n ≠ name := by
      rintro rfl
      exact hNew (h.launched_of_processed hn)
    simp only [Function.update_apply, if_neg hNe]
    exact h.settled n hn

/- The result of a job is its first, and it is recorded. -/
theorem recorded_onFinish
    {name : N}
    {res : Option (Err N)}
    {rest : List (N × Option (Err N))}
    (hFinished : s.finished = (name, res) :: rest) :
    Recorded tx (processed ++ [(name, res)])
      (onFinish tx { s.ex with inflight := s.ex.inflight - 1 } name
        res) := by
  have hFresh : name ∉ processed.map Prod.fst := by
    have hNodup := h.perm.nodup_iff.mp h.nodup
    have hTail := (List.nodup_append.mp hNodup).2.1
    have hDone := (List.nodup_append.mp hTail).2.1
    rw [hFinished, List.map_append, List.map_cons,
      List.nodup_append] at hDone
    intro hMem
    exact hDone.2.2 name hMem name List.mem_cons_self rfl
  have hNone : s.ex.errors name = none := by
    cases hOld : s.ex.errors name with
    | none => rfl
    | some e =>
        have hMem := (h.errors name e).mp hOld
        exact absurd (List.mem_map_of_mem hMem) hFresh
  rw [onFinish_eq]
  constructor
  case ready =>
    intro n hn d hd
    rw [List.map_append]
    exact List.mem_append_left _ (h.ready n hn d hd)
  case settled =>
    intro n hn
    by_cases hEq : n = name
    · simp [hEq]
    · simp only [Function.update_apply, if_neg hEq]
      rw [List.map_append] at hn
      rcases List.mem_append.mp hn with hOld | hLast
      · exact h.settled n hOld
      · exact absurd (List.mem_singleton.mp hLast) hEq
  case errors =>
    intro n e
    rw [List.mem_append, ← h.errors n e]
    simp only [recorded, Function.update_apply]
    by_cases hEq : n = name
    · rw [if_pos hEq, hEq, hNone]
      simp [eq_comm]
    · simp [hEq]

/- Both executions take the next result, or none is there. -/
theorem receive
    (next : Phase N) :
    Option.Rel (Along tx invoked (processed ++ s.finished))
      (s.receive tx next)
      ((s.asStart invoked processed).receive tx next) := by
  rcases s with ⟨phase, ex, outstanding, _ | ⟨⟨name, res⟩, rest⟩⟩
  · exact .none
  · refine .some ⟨processed ++ [(name, res)], by simp,
      h.recorded_onFinish rfl, ?_⟩
    simp only [asStart, asStart_onFinish, List.map_append]
    rfl

section

variable (hAcyclic : Acyclic (WaitsIn tx.jobNames tx.waitsFor))

include hAcyclic

/- At the end of a pass that leaves nothing in flight every job
   is launched. -/
theorem all_launched
    (hPassed : ∀ n, s.phase.Passed n)
    (hIdle : s.ex.inflight = 0) :
    ∀ n ∈ tx.jobNames, s.ex.launched n = true := by
  rcases h.nothing hIdle with ⟨hSpawned, hOutstanding, hFinished⟩
  have hReturned :
      ∀ n, s.ex.launched n = true → s.ex.released n = true := by
    intro n hn
    have hMem := h.perm.mem_iff.mp ((h.launched n).mp hn)
    rw [hSpawned, hOutstanding, hFinished, List.append_nil] at hMem
    exact (h.released n).mpr hMem
  exact h.counted.induction hAcyclic hReturned
    (fun n hn => h.passed n hn (hPassed n) hIdle)

/- Both executions take the same step, and neither finds a job
   in its closing pass. -/
theorem tick :
    Option.Rel (Along tx invoked (processed ++ s.finished))
      (s.tick tx workers)
      ((s.asStart invoked processed).tick tx workers) := by
  have hOld : Recorded tx processed s.ex :=
    { h with }
  rcases s with ⟨phase, ex, outstanding, finished⟩
  cases phase with
  | head => exact .some ⟨processed, rfl, hOld, rfl⟩
  | launching names =>
      cases names with
      | nil => exact .some ⟨processed, rfl, hOld, rfl⟩
      | cons name rest =>
          have hJob := h.rest _ rfl name List.mem_cons_self
          show Option.Rel _ (if workers ≤ ex.inflight then _ else _)
            (if workers ≤ ex.inflight then _ else _)
          split
          · exact .some ⟨processed, rfl, hOld, rfl⟩
          · refine .some ⟨processed, rfl, h.recorded_tryLaunch hJob, ?_⟩
            simp only [asStart, asStart_tryLaunch tx]
  | awaiting =>
      have hReceive := h.receive .head
      show Option.Rel _ (if ex.inflight = 0 then _ else _)
        (if ex.inflight = 0 then _ else _)
      split
      · exact .some ⟨processed, rfl, hOld, rfl⟩
      · exact hReceive
  | draining =>
      have hIdle : ex.inflight = 0 := h.idle (Or.inl rfl)
      have hAll := h.all_launched hAcyclic (fun _ => trivial) hIdle
      show Option.Rel _ (if ex.inflight = 0 then _ else _)
        (if ex.inflight = 0 then _ else _)
      rw [if_pos hIdle, if_pos hIdle]
      have hStop :
          tx.jobNames.foldl
              (fun ex name =>
                if ex.launched name then ex
                else markDone tx ex name (some (notStopped name)))
              ex = ex := by
        refine List.foldlRecOn (motive := (· = ex)) tx.jobNames _ rfl ?_
        rintro _ rfl n hn
        exact if_pos (hAll n hn)
      have hStart :
          Executor.failQueued tx Exec.notStarted ex.asStart tx.jobNames =
            ex.asStart := by
        refine Executor.failQueued_none ?_ _
        rintro n hn ⟨_, hNew⟩
        exact absurd ((hAll n hn).symm.trans hNew) nofun
      refine .some ⟨processed, rfl, ?_, ?_⟩
      · simp only [hStop]
        exact hOld
      · simp only [asStart, hStart, hStop]
  | done => exact .none

end

end Stopping

------------------------------------------------------------
-- Whole Runs
------------------------------------------------------------

variable {s₀ : StopExec N}
variable {ls : List (StopLabel N)}

/- The work that is left in a stop execution. -/
def work (tx : Transaction N) (s : StopExec N) : Nat :=
  workLeft tx.jobNames.length s.phase
    (tx.jobNames.length - s.ex.stopped.length)
    s.ex.spawned.length s.outstanding.length s.finished.length

section

variable {returned : List (N × Option (Err N))}
variable {t : Exec N}
variable (h : Along tx invoked returned s t)
variable (hs : (executor tx workers).Reachable t)

include h hs

theorem Along.stopping :
    ∃ processed, returned = processed ++ s.finished ∧
      Stopping tx workers invoked processed s := by
  rcases h with ⟨processed, rfl, hRecorded, rfl⟩
  exact ⟨processed, rfl, .of_start hs hRecorded⟩

/- A stop goes on exactly when the start does. -/
theorem Along.step
    (l : StopLabel N) :
    Option.Rel
      (Along tx (invoked ++ calls [l]) (returned ++ returns [l]))
      (s.step tx workers l) (t.step tx workers l.asStart) := by
  have hAcyclic : Acyclic (WaitsIn tx.jobNames tx.waitsFor) := by
    rcases hs with ⟨t₀, hInit, _⟩
    exact (Exec.valid_of_begin hInit).2
  rcases h with ⟨processed, rfl, hRecorded, rfl⟩
  cases l with
  | invoke name =>
      show Option.Rel _ (if name ∈ s.ex.spawned then _ else _)
        (if name ∈ s.ex.spawned then _ else _)
      split
      · refine .some ⟨processed, List.append_nil _, ?_, rfl⟩
        exact { hRecorded with }
      · exact .none
  | finish name res =>
      show Option.Rel _ (if name ∈ s.outstanding then _ else _)
        (if name ∈ s.outstanding then _ else _)
      split
      · refine .some ⟨processed, List.append_assoc _ _ _, hRecorded, ?_⟩
        simp [StopExec.asStart, succeeded]
      · exact .none
  | tick =>
      simp only [calls_tick, returns_tick, List.append_nil]
      exact (Stopping.of_start hs hRecorded).tick hAcyclic

/- A step of the stop is one of the start. -/
theorem Along.step_some
    {l : StopLabel N}
    (hStep : s.step tx workers l = some s') :
    ∃ t', t.step tx workers l.asStart = some t' ∧
      (executor tx workers).Reachable t' ∧
      Along tx (invoked ++ calls [l]) (returned ++ returns [l]) s' t' := by
  have hBoth := h.step hs l
  rw [hStep] at hBoth
  cases hNext : t.step tx workers l.asStart with
  | none =>
      rw [hNext] at hBoth
      cases hBoth
  | some t' =>
      rw [hNext] at hBoth
      cases hBoth with
      | some hAlong => exact ⟨t', rfl, hs.step hNext, hAlong⟩

/- As long as the stop has not returned, a step is due. -/
theorem Along.progress
    (hBusy : s.phase ≠ .done) :
    ∃ l s', s.step tx workers l = some s' := by
  have hPhase : t.phase ≠ .done := by
    rcases h with ⟨_, _, _, rfl⟩
    exact hBusy
  rcases (Exec.ordered_of_reachable hs).progress hPhase
    (fun _ => none) with ⟨l, t', hNext, hCancel, hRes⟩
  have hLabel : ∃ l' : StopLabel N, l'.asStart = l := by
    cases l with
    | cancel deadline => exact absurd rfl (hCancel deadline)
    | invoke n => exact ⟨.invoke n, rfl⟩
    | finish n r => exact ⟨.finish n none, by rw [hRes n r rfl]; rfl⟩
    | tick => exact ⟨.tick, rfl⟩
  rcases hLabel with ⟨l', rfl⟩
  have hBoth := h.step hs l'
  rw [hNext] at hBoth
  cases hStep : s.step tx workers l' with
  | none =>
      rw [hStep] at hBoth
      cases hBoth
  | some s' => exact ⟨l', s', hStep⟩

omit hs in
theorem Along.work :
    t.work tx = s.work tx + 1 := by
  rcases h with ⟨processed, rfl, hRecorded, rfl⟩
  simp only [Exec.work, StopExec.work, StopExec.asStart,
    List.length_map, if_true]
  rfl

end

theorem stopping_of_run
    (hBegin : tx.executeStopWithLimit workers = .ok s₀)
    (hRun : (stopExecutor tx workers).run s₀ ls = some s) :
    ∃ processed, returns ls = processed ++ s.finished ∧
      Stopping tx workers (calls ls) processed s := by
  rcases asStart_begin hBegin with ⟨t₀, hInit, hAlong⟩
  have hAll :
      ∃ t, Along tx (calls ls) (returns ls) s t ∧
        (executor tx workers).Reachable t := by
    refine Lib.System.run_invariant
      (I := fun ls s => ∃ t, Along tx (calls ls) (returns ls) s t ∧
        (executor tx workers).Reachable t)
      ⟨t₀, hAlong, t₀, hInit, .refl t₀⟩ ?_ hRun
    rintro ls s l s' ⟨t, hAlong, hs⟩ hStep
    rcases hAlong.step_some hs hStep with ⟨t', _, hs', hAlong'⟩
    refine ⟨t', ?_, hs'⟩
    rw [calls_append, returns_append]
    exact hAlong'
  rcases hAll with ⟨t, hAlong, hs⟩
  exact hAlong.stopping hs

/- A stop execution returns when its calls do. -/
theorem stop_returns
    (hBegin : tx.executeStopWithLimit workers = .ok s₀) :
    (stopExecutor tx workers).Inevitable (fun _ _ => True)
      (fun s => s.phase = .done) s₀ := by
  rcases asStart_begin hBegin with ⟨t₀, hInit, hAlong⟩
  refine Lib.System.inevitable_of_measure
    (I := fun s =>
      ∃ invoked returned t, Along tx invoked returned s t ∧
        (executor tx workers).Reachable t)
    (work tx) ?_ ?_ ⟨[], [], t₀, hAlong, t₀, hInit, .refl t₀⟩
  · rintro s l s' ⟨invoked, returned, t, hAlong, hs⟩ _ hStep
    rcases hAlong.step_some hs hStep with ⟨t', hNext, hs', hAlong'⟩
    have hLess := (Exec.ordered_of_reachable hs).work_step hNext
    rw [hAlong.work, hAlong'.work] at hLess
    exact ⟨⟨_, _, t', hAlong', hs'⟩, Nat.lt_of_add_lt_add_right hLess⟩
  · rintro s ⟨invoked, returned, t, hAlong, hs⟩ hBusy
    rcases hAlong.progress hs hBusy with ⟨l, s', hStep⟩
    exact ⟨l, s', trivial, hStep⟩

------------------------------------------------------------
-- Planned Stops
------------------------------------------------------------

/- A validated plan is accepted for execution. -/
theorem begin_of_valid
    (hValid : tx.validate = .ok tx)
    (hWorkers : 1 ≤ workers) :
    ∃ s₀, tx.executeStopWithLimit workers = .ok s₀ := by
  unfold Transaction.executeStopWithLimit
  rw [if_neg (by omega), hValid]
  exact ⟨_, rfl⟩

/- Stop and shutdown plans have been validated. -/
theorem valid_of_plan
    {g : Graph N}
    {names : List N}
    (h : g.planStop names = .ok tx ∨ g.planShutdown names = .ok tx) :
    tx.validate = .ok tx := by
  rcases h with h | h
  · unfold Graph.planStop at h
    split at h
    · cases h
    split at h
    · cases h
    · exact Transaction.validate_again h
  · unfold Graph.planShutdown Graph.plan at h
    split at h
    · cases h
    split at h
    · cases h
    · exact Transaction.validate_again h

/-
  A planned stop is carried out: it returns when its calls
  do.  In every run no unit is stopped twice, none before the
  units that it waits for have returned, and no more calls
  are in progress than there are workers; only errors that a
  stop has returned are recorded.  When the execution returns,
  every unit was stopped once, is inactive and has the error
  that its stop returned, if any.
-/
theorem stop_complete
    {g : Graph N}
    {names : List N}
    (hPlan :
      g.planStop names = .ok tx ∨ g.planShutdown names = .ok tx)
    (hWorkers : 1 ≤ workers) :
    ∃ s₀, tx.executeStopWithLimit workers = .ok s₀ ∧
      (stopExecutor tx workers).Inevitable (fun _ _ => True)
        (fun s => s.phase = .done) s₀ ∧
      ∀ ls s, (stopExecutor tx workers).run s₀ ls = some s →
        (calls ls).Nodup ∧ s.outstanding.length ≤ workers ∧
        (∀ before n after,
          ls = before ++ .invoke n :: after →
          ∀ d ∈ tx.waitsFor n,
            d ∈ (returns before).map Prod.fst) ∧
        (∀ n e, s.ex.errors n = some e →
          (n, some e) ∈ returns ls) ∧
        (s.phase = .done →
          (calls ls).Perm tx.jobNames ∧
          (∀ n ∈ tx.jobNames, s.ex.states n = .inactive) ∧
          ∀ n res, (n, res) ∈ returns ls → s.ex.errors n = res) := by
  have hValid := valid_of_plan hPlan
  have hAcyclic := (Transaction.validate_ok_iff.mp hValid).2.2
  rcases begin_of_valid hValid hWorkers with ⟨s₀, hBegin⟩
  refine ⟨s₀, hBegin, stop_returns hBegin, ?_⟩
  intro ls s hRun
  rcases stopping_of_run hBegin hRun with
    ⟨processed, hReturns, h⟩
  have hNodup := h.perm.nodup_iff.mp h.nodup
  have hCalls := h.invoked.nodup_iff.mpr (List.nodup_append.mp hNodup).2.1
  refine ⟨hCalls, ?_, ?_, ?_, ?_⟩
  · have hInflight := h.inflight
    have hBound := h.bound
    omega
  · rintro before n after rfl d hd
    rw [Lib.System.run_append, Option.bind_eq_some_iff] at hRun
    rcases hRun with ⟨t, hBefore, hRest⟩
    rcases stopping_of_run hBegin hBefore with
      ⟨done, hDone, ht⟩
    have hSpawned : n ∈ t.ex.spawned := by
      by_contra hNot
      simp [Lib.System.run, stopExecutor, step, hNot] at hRest
    have hStopped : n ∈ t.ex.stopped :=
      ht.perm.mem_iff.mpr (List.mem_append_left _ hSpawned)
    rw [hDone, List.map_append]
    exact List.mem_append_left _ (ht.ready n hStopped d hd)
  · intro n e hErr
    rw [hReturns]
    exact List.mem_append_left _ ((h.errors n e).mp hErr)
  · intro hPhase
    have hIdle := h.idle (Or.inr hPhase)
    have hAll :=
      h.all_launched hAcyclic (by simp [Phase.Passed, hPhase]) hIdle
    rcases h.nothing hIdle with ⟨hSpawned, hOutstanding, hFinished⟩
    have hPerm := h.perm
    have hInvoked := h.invoked
    rw [hSpawned, hOutstanding, hFinished, List.append_nil,
      List.nil_append, List.nil_append] at hPerm
    rw [hOutstanding, hFinished, List.append_nil,
      List.nil_append] at hInvoked
    rw [hFinished, List.append_nil] at hReturns
    refine ⟨?_, ?_, ?_⟩
    · refine (hInvoked.trans hPerm.symm).trans ?_
      refine (List.perm_ext_iff_of_nodup h.nodup
        tx.nodup_jobNames).mpr (fun n => ⟨h.jobs n, ?_⟩)
      exact fun hn => (h.launched n).mp (hAll n hn)
    · intro n hn
      have hStopped := (h.launched n).mp (hAll n hn)
      exact h.settled n (hPerm.mem_iff.mp hStopped)
    · intro n res hMem
      rw [hReturns] at hMem
      cases res with
      | some e => exact (h.errors n e).mpr hMem
      | none =>
          cases hErr : s.ex.errors n with
          | none => rfl
          | some e =>
              -- a job has one result only
              have hOther := (h.errors n e).mp hErr
              have hKeys : (processed.map Prod.fst).Nodup :=
                hPerm.nodup_iff.mp h.nodup
              have hEq :=
                List.inj_on_of_nodup_map hKeys hMem hOther rfl
              cases hEq

section Pair

local instance : UnitNames String := asciiNames

/- A service and another that requires it. -/
def pair : List (Option (UnitFile String)) :=
  [some (.bare "a.service" .service),
    some
      { UnitFile.bare "b.service" .service with
        requires := ["a.service"] }]

/- With one worker, both services of the pair are stopped. -/
theorem stop_complete_pair :
    ∃ g tx, build pair = .ok g ∧
      g.planStop ["a.service"] = .ok tx ∧
      ∃ s₀, tx.executeStopWithLimit 1 = .ok s₀ ∧
        (stopExecutor tx 1).Inevitable (fun _ _ => True)
          (fun s => s.phase = .done) s₀ ∧
        ∀ ls s, (stopExecutor tx 1).run s₀ ls = some s →
          s.phase = .done →
          (calls ls).Perm ["a.service", "b.service"] := by
  have hPlan :
      ∃ g tx, build pair = .ok g ∧
        g.planStop ["a.service"] = .ok tx ∧
        tx.jobNames = ["a.service", "b.service"] :=
    ⟨_, _, rfl, rfl, rfl⟩
  rcases hPlan with ⟨g, tx, hBuild, hPlan, hJobs⟩
  rcases stop_complete (Or.inl hPlan) (Nat.le_refl 1) with
    ⟨s₀, hBegin, hReturns, hRuns⟩
  refine ⟨g, tx, hBuild, hPlan, s₀, hBegin, hReturns, ?_⟩
  intro ls s hRun hDone
  rw [← hJobs]
  exact ((hRuns ls s hRun).2.2.2.2 hDone).1

end Pair

end StopExec

end Core

end Winunitd
