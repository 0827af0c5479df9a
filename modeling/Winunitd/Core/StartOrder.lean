import Winunitd.Core.ExecuteSpec

/-
  Order and concurrency of starter calls.

  `Tracked` ties the flags of the executor to the run so
  far: a job is released once its result was processed or it
  was rejected unlaunched, and an unlaunched job with an
  error never launches.  `Ordered` adds the goroutines: every
  launched job is in exactly one of spawned, outstanding and
  returned, and the launched jobs in flight never exceed the
  worker limit.

  Key definitions include:
    * `Executor.Tracked`
    * `Exec.Ordered`

  Key theorems include:
    * `Exec.ordered_of_reachable`
    * `Exec.start_order`
-/

------------------------------------------------------------
-- Flags And Results
------------------------------------------------------------

namespace Winunitd

namespace Core

variable {N : Type}
variable [UnitNames N]
variable {tx : Transaction N}

namespace Executor

/- The flags of `ex`, given the processed jobs `done`. -/
structure Tracked
    (tx : Transaction N)
    (done : List N)
    (ex : Executor N) : Prop where
  counted : Counted tx ex
  launched : ∀ n, ex.launched n = true ↔ n ∈ ex.started
  nodup : ex.started.Nodup
  jobs : ∀ n ∈ ex.started, n ∈ tx.jobNames
  unlaunched :
    ∀ n, ex.launched n = false → ex.errors n ≠ none →
      ex.states n = .failed
  released :
    ∀ n, ex.released n = true ↔
      n ∈ done ∨ ex.launched n = false ∧ ex.errors n ≠ none
  rejected :
    ∀ n err, (n, err) ∈ ex.rejected ↔
      ex.launched n = false ∧ ex.errors n = some err

theorem tracked_start
    (tx : Transaction N) :
    Tracked tx [] (start tx) where
  counted := counted_start tx
  launched := by simp [start]
  nodup := List.nodup_nil
  jobs := by simp [start]
  unlaunched := by simp [start]
  released := by simp [start]
  rejected := by simp [start]

namespace Tracked

variable {done : List N}
variable {ex ex' : Executor N}

theorem failStep
    (h : Tracked tx done ex)
    (hFail : FailStep tx ex ex') :
    Tracked tx done ex' where
  counted := hFail.counted h.counted
  launched n := by
    rw [hFail.launched, hFail.started]
    exact h.launched n
  nodup := by
    rw [hFail.started]
    exact h.nodup
  jobs := by
    rw [hFail.started]
    exact h.jobs
  unlaunched n hLaunched hErr := by
    rw [hFail.launched] at hLaunched
    by_cases hOld : ex.errors n = none
    · exact hFail.fresh n hOld hErr
    · exact hFail.failed (h.unlaunched n hLaunched hOld)
  released n := by
    rw [hFail.released n, h.released n, hFail.launched]
    constructor
    · rintro ((hDone | ⟨hl, hOld⟩) | ⟨hl, _, hNew⟩)
      · exact Or.inl hDone
      · exact Or.inr
          ⟨hl, fun hNone => hOld (hFail.errors_none hNone)⟩
      · exact Or.inr ⟨hl, hNew⟩
    · rintro (hDone | ⟨hl, hNew⟩)
      · exact Or.inl (Or.inl hDone)
      · by_cases hOld : ex.errors n = none
        · exact Or.inr ⟨hl, hOld, hNew⟩
        · exact Or.inl (Or.inr ⟨hl, hOld⟩)
  rejected n err := by
    rw [hFail.rejected n err, h.rejected n err, hFail.launched]
    constructor
    · rintro (⟨hl, hOld⟩ | ⟨hl, _, hNew⟩)
      · exact ⟨hl, hFail.errors n err hOld⟩
      · exact ⟨hl, hNew⟩
    · rintro ⟨hl, hNew⟩
      cases hOld : ex.errors n with
      | none => exact Or.inr ⟨hl, rfl, hNew⟩
      | some e =>
          have hEq := hFail.errors n e hOld
          rw [hNew] at hEq
          cases hEq
          exact Or.inl ⟨hl, rfl⟩

/- The state of a launched job is free to change. -/
theorem setState
    (h : Tracked tx done ex)
    {name : N}
    (hLaunched : ex.launched name = true)
    (s : State) :
    Tracked tx done (ex.setState name s) := by
  refine { h with unlaunched := ?_ }
  intro n hl hErr
  have hne : n ≠ name := by
    intro hEq
    rw [hEq] at hl
    have hl' : ex.launched name = false := hl
    rw [hLaunched] at hl'
    cases hl'
  have hSame : (ex.setState name s).states n = ex.states n := by
    simp [Executor.setState, hne]
  rw [hSame]
  exact h.unlaunched n hl hErr

/- Processing a result releases what waits for the job. -/
theorem releaseAfter
    (h : Tracked tx done ex)
    (name : N) :
    Tracked tx (done ++ [name])
      (releaseAfter tx ex name) := by
  have hReleased := released_releaseAfter tx ex name
  have hCounted := counted_releaseAfter h.counted name
  rw [releaseAfter_same] at hReleased hCounted ⊢
  refine ⟨hCounted, h.launched, h.nodup, h.jobs, h.unlaunched,
    ?_, h.rejected⟩
  intro n
  rw [hReleased n, h.released n, List.mem_append,
    List.mem_singleton]
  tauto

/- Launching a job that has not failed. -/
theorem launch
    (h : Tracked tx done ex)
    {name : N}
    (hJob : name ∈ tx.jobNames)
    (hNew : ex.launched name = false)
    (hState : ex.states name ≠ .failed) :
    Tracked tx done (ex.launch name) := by
  have hErr : ex.errors name = none := by
    by_contra hSome
    exact hState (h.unlaunched name hNew hSome)
  have hNotStarted : name ∉ ex.started := by
    intro hMem
    rw [(h.launched name).mpr hMem] at hNew
    cases hNew
  constructor
  case counted => exact h.counted
  case launched =>
    intro n
    simp only [Function.update_apply, List.mem_append,
      List.mem_singleton]
    by_cases hn : n = name
    · simp [hn]
    · simp [hn, h.launched n]
  case nodup =>
    simpa using h.nodup.concat hNotStarted
  case jobs =>
    intro n hn
    rcases List.mem_append.mp hn with hOld | hLast
    · exact h.jobs n hOld
    · rw [List.mem_singleton.mp hLast]
      exact hJob
  case unlaunched =>
    intro n hl hSome
    by_cases hn : n = name
    · rw [hn] at hSome
      exact absurd hErr hSome
    · simp only [Function.update_apply, if_neg hn] at hl ⊢
      exact h.unlaunched n hl hSome
  case released =>
    intro n
    by_cases hn : n = name
    · have hOld := h.released name
      rw [hn]
      simpa [hErr] using hOld
    · simp only [Function.update_apply, if_neg hn]
      exact h.released n
  case rejected =>
    intro n err
    by_cases hn : n = name
    · have hOld := h.rejected name err
      rw [hn]
      simpa [hErr] using hOld
    · simp only [Function.update_apply, if_neg hn]
      exact h.rejected n err

end Tracked

end Executor

------------------------------------------------------------
-- Goroutines
------------------------------------------------------------

namespace Exec

open Executor

/- The names whose starter call has returned. -/
def returned (s : Exec N) : List N :=
  s.results.map Prod.fst

/-
  The launched jobs are split between the goroutines, the
  worker limit holds, and every launched job has seen its
  predecessors settle.
-/
structure Ordered
    (tx : Transaction N)
    (workers : Nat)
    (s : Exec N) : Prop where
  tracked : Tracked tx (s.processed.map Prod.fst) s.ex
  perm :
    s.ex.started.Perm
      (s.ex.spawned ++ (s.outstanding ++ s.returned))
  invoked : s.invoked.Perm (s.outstanding ++ s.returned)
  inflight :
    s.ex.inflight =
      s.ex.spawned.length + s.outstanding.length +
        s.finished.length
  bound : s.ex.inflight ≤ workers
  ready :
    ∀ n ∈ s.ex.started, ∀ d ∈ tx.waitsFor n,
      d ∈ s.returned ∨
        s.ex.launched d = false ∧ s.ex.errors d ≠ none
  rest :
    ∀ ns, s.phase = .launching ns → ∀ n ∈ ns, n ∈ tx.jobNames

namespace Ordered

variable {workers : Nat}
variable {s s' : Exec N}

/- With nothing in flight no goroutine has a job. -/
theorem idle
    (h : Ordered tx workers s)
    (hIdle : s.ex.inflight = 0) :
    s.ex.spawned = [] ∧ s.outstanding = [] ∧ s.finished = [] := by
  have hInflight := h.inflight
  simp only [← List.length_eq_zero_iff]
  omega

theorem processed_of_idle
    (h : Ordered tx workers s)
    (hIdle : s.ex.inflight = 0)
    {n : N}
    (hLaunched : s.ex.launched n = true) :
    n ∈ s.processed.map Prod.fst := by
  rcases h.idle hIdle with ⟨hSpawned, hOutstanding, hFinished⟩
  have hMem :=
    h.perm.mem_iff.mp ((h.tracked.launched n).mp hLaunched)
  rw [hSpawned, hOutstanding, returned, results, hFinished,
    List.append_nil] at hMem
  exact hMem

theorem begin
    (h : tx.executeWithLimit workers = .ok s) :
    Ordered tx workers s := by
  obtain rfl := begin_eq h
  refine ⟨tracked_start tx, ?_, ?_, rfl, Nat.zero_le _, ?_, ?_⟩
  · simp [start, returned, results]
  · simp [returned, results]
  · simp [start]
  · simp

variable {phase : Phase N}

/- A failure touches no goroutine. -/
theorem fail
    (h : Ordered tx workers s)
    {ex : Executor N}
    (hFail : FailStep tx s.ex ex)
    (hRest :
      ∀ ns, phase = .launching ns → ∀ n ∈ ns, n ∈ tx.jobNames) :
    Ordered tx workers { s with ex := ex, phase := phase } where
  tracked := h.tracked.failStep hFail
  perm := by
    simp only [hFail.started, hFail.spawned]
    exact h.perm
  invoked := h.invoked
  inflight := by
    simp only [hFail.inflight, hFail.spawned]
    exact h.inflight
  bound := by
    simp only [hFail.inflight]
    exact h.bound
  ready := by
    simp only [hFail.started, hFail.launched]
    intro n hn d hd
    rcases h.ready n hn d hd with hDone | ⟨hl, hErr⟩
    · exact Or.inl hDone
    · exact Or.inr
        ⟨hl, fun hNone => hErr (hFail.errors_none hNone)⟩
  rest := hRest

/- The executor moves to a phase without further effect. -/
theorem move
    (h : Ordered tx workers s)
    (hRest :
      ∀ ns, phase = .launching ns → ∀ n ∈ ns, n ∈ tx.jobNames) :
    Ordered tx workers { s with phase := phase } :=
  h.fail (.refl s.ex) hRest

variable {name : N}

section

variable (h : Ordered tx workers s)

include h

/- A launch adds one spawned goroutine below the limit. -/
theorem launch
    {ns : List N}
    (hPhase : s.phase = .launching (name :: ns))
    (hLimit : s.ex.inflight < workers)
    (hNew : s.ex.launched name = false)
    (hState : s.ex.states name ≠ .failed)
    (hZero : s.ex.remaining name = 0) :
    Ordered tx workers
      { s with phase := .launching ns, ex := s.ex.launch name } := by
  have hJob : name ∈ tx.jobNames :=
    h.rest _ hPhase name List.mem_cons_self
  have hErr : s.ex.errors name = none := by
    by_contra hSome
    exact hState (h.tracked.unlaunched name hNew hSome)
  -- A settled predecessor is not the job that is launched.
  have hKeep :
      ∀ d, s.ex.launched d = false ∧ s.ex.errors d ≠ none →
        Function.update s.ex.launched name true d = false ∧
          s.ex.errors d ≠ none := by
    rintro d ⟨hl, hSome⟩
    have hne : d ≠ name := by
      intro hEq
      rw [hEq] at hSome
      exact hSome hErr
    exact ⟨by rw [Function.update_apply, if_neg hne, hl], hSome⟩
  constructor
  case tracked => exact h.tracked.launch hJob hNew hState
  case perm =>
    exact (h.perm.append_right [name]).trans
      (perm_append_snoc _ _ name)
  case invoked => exact h.invoked
  case inflight =>
    have hOld := h.inflight
    simp only [List.length_append, List.length_singleton]
    omega
  case bound => exact hLimit
  case ready =>
    intro n hn d hd
    rcases List.mem_append.mp hn with hOld | hLast
    · rcases h.ready n hOld d hd with hDone | hRejected
      · exact Or.inl hDone
      · exact Or.inr (hKeep d hRejected)
    · rw [List.mem_singleton.mp hLast] at hd
      have hReleased :=
        h.tracked.counted.released_of_zero hJob hZero hd
      rcases (h.tracked.released d).mp hReleased with
        hDone | hRejected
      · left
        unfold returned results
        rw [List.map_append]
        exact List.mem_append_left _ hDone
      · exact Or.inr (hKeep d hRejected)
  case rest =>
    intro ms hms n hn
    cases hms
    exact h.rest _ hPhase n (List.mem_cons_of_mem _ hn)

/- Taking a result from the channel. -/
theorem receive
    {next : Phase N}
    (hNext : ∀ ns, next ≠ .launching ns)
    (hStep : s.receive tx next = some s') :
    Ordered tx workers s' := by
  unfold Exec.receive at hStep
  split at hStep
  · cases hStep
  rename_i name res rest hFinished
  cases hStep
  have hInflight := h.inflight
  rw [hFinished, List.length_cons] at hInflight
  rcases onFinish_frame s.returning tx name res with
    ⟨hLaunch, hStart, hSpawn, hFlight, hErrors⟩
  have hReturned :
      ((s.processed ++ [(name, res)] ++ rest).map Prod.fst) =
        s.returned := by
    simp [returned, results, hFinished]
  have hLaunched : s.ex.launched name = true := by
    apply (h.tracked.launched name).mpr
    apply h.perm.mem_iff.mpr
    apply List.mem_append_right
    apply List.mem_append_right
    simp [returned, results, hFinished]
  have hTracked :
      Tracked tx (s.processed.map Prod.fst) s.returning :=
    { h.tracked with }
  have hReleased := hTracked.releaseAfter name
  constructor
  case tracked =>
    simp only [List.map_append, List.map_cons, List.map_nil]
    rcases onFinish_cases s.returning tx name res with
      ⟨st, hEq⟩ | hFail
    · rw [hEq]
      apply hReleased.setState
      rw [releaseAfter_same]
      exact hLaunched
    · exact hReleased.failStep hFail
  case perm =>
    unfold returned results
    simp only [hStart, hSpawn, hReturned]
    exact h.perm
  case invoked =>
    unfold returned results
    simp only [hReturned]
    exact h.invoked
  case inflight =>
    simp only [hFlight, hSpawn]
    omega
  case bound =>
    have hBound := h.bound
    simp only [hFlight]
    omega
  case ready =>
    unfold returned results
    simp only [hStart, hLaunch, hReturned]
    intro n hn d hd
    rcases h.ready n hn d hd with hDone | ⟨hl, hErr⟩
    · exact Or.inl hDone
    · exact Or.inr ⟨hl, hErrors d hErr⟩
  case rest =>
    intro ns hns
    exact absurd hns (hNext ns)

theorem invoke
    (hStep : s.step tx workers (.invoke name) = some s') :
    Ordered tx workers s' := by
  simp only [step] at hStep
  split at hStep
  · rename_i hMem
    cases hStep
    have hLength := List.length_erase_of_mem hMem
    have hPos := List.length_pos_of_mem hMem
    refine { h with
      tracked := { h.tracked with }
      perm := ?_, invoked := ?_, inflight := ?_ }
    · refine (h.perm.trans (perm_move hMem _)).trans ?_
      exact (perm_append_snoc _ _ name).append_left _
    · exact (h.invoked.append_right [name]).trans
        (perm_append_snoc _ _ name)
    · have hOld := h.inflight
      simp only [List.length_append, List.length_singleton]
      omega
  · cases hStep

theorem finish
    {res : Option (Err N)}
    (hStep : s.step tx workers (.finish name res) = some s') :
    Ordered tx workers s' := by
  simp only [step] at hStep
  split at hStep
  · rename_i hMem
    cases hStep
    have hLength := List.length_erase_of_mem hMem
    have hPos := List.length_pos_of_mem hMem
    have hReturned :
        (s.processed ++ (s.finished ++ [(name, res)])).map
            Prod.fst = s.returned ++ [name] := by
      simp [returned, results]
    have hMove := perm_move hMem s.returned
    refine { h with
      perm := ?_, invoked := ?_, inflight := ?_, ready := ?_ }
    · unfold returned results
      simp only [hReturned]
      exact h.perm.trans (hMove.append_left _)
    · unfold returned results
      simp only [hReturned]
      exact h.invoked.trans hMove
    · have hOld := h.inflight
      simp only [List.length_append, List.length_singleton]
      omega
    · unfold returned results
      simp only [hReturned]
      intro n hn d hd
      rcases h.ready n hn d hd with hDone | hRejected
      · exact Or.inl (List.mem_append_left _ hDone)
      · exact Or.inr hRejected
  · cases hStep

theorem tick
    (hStep : s.tick tx workers = some s') :
    Ordered tx workers s' := by
  unfold Exec.tick at hStep
  split at hStep
  case h_1 =>
    split at hStep
    · cases hStep
      exact h.fail (failStep_failQueued _ _ _) (by simp)
    · cases hStep
      apply h.move
      intro ns hns
      cases hns
      exact fun _ hn => hn
  case h_2 =>
    cases hStep
    exact h.move (by simp)
  case h_3 name ns hPhase =>
    split at hStep
    · cases hStep
      exact h.move (by simp)
    · rename_i hLimit
      cases hStep
      rcases tryLaunch_cases s.ex tx name with
        hFail | ⟨hNew, hState, hZero, _, hEq⟩
      · apply h.fail hFail
        intro ms hms n hn
        cases hms
        exact h.rest _ hPhase n (List.mem_cons_of_mem _ hn)
      · rw [hEq]
        exact h.launch hPhase (by omega) hNew hState hZero
  case h_4 =>
    split at hStep
    · cases hStep
      exact h.move (by simp)
    · exact h.receive (by simp) hStep
  case h_5 =>
    split at hStep
    · cases hStep
      exact h.fail (failStep_failQueued _ _ _) (by simp)
    · exact h.receive (by simp) hStep
  case h_6 => cases hStep

theorem step
    {l : ExecLabel N}
    (hStep : s.step tx workers l = some s') :
    Ordered tx workers s' := by
  cases l with
  | cancel deadline =>
      simp only [Exec.step] at hStep
      split at hStep
      · cases hStep
        exact { h with }
      · cases hStep
  | invoke name => exact h.invoke hStep
  | finish name res => exact h.finish hStep
  | tick => exact h.tick hStep

end

end Ordered

variable {workers : Nat}
variable {s : Exec N}

/- The invariant holds along every run. -/
theorem ordered_of_reachable
    (hs : (executor tx workers).Reachable s) :
    Ordered tx workers s :=
  Lib.System.reachable_invariant
    (I := Ordered tx workers)
    (fun _ hInit => Ordered.begin hInit)
    (fun _ _ _ _ hI hNext => hI.step hNext) hs

/- Only launched jobs return. -/
theorem Ordered.launched_of_returned
    (h : Ordered tx workers s)
    {n : N}
    (hn : n ∈ s.returned) :
    s.ex.launched n = true := by
  apply (h.tracked.launched n).mpr
  apply h.perm.mem_iff.mpr
  exact List.mem_append_right _ (List.mem_append_right _ hn)

/- Only launched jobs are called. -/
theorem Ordered.launched_of_invoked
    (h : Ordered tx workers s)
    {n : N}
    (hn : n ∈ s.invoked) :
    s.ex.launched n = true := by
  apply (h.tracked.launched n).mpr
  apply h.perm.mem_iff.mpr
  exact List.mem_append_right _ (h.invoked.mem_iff.mp hn)

/- No job is called twice. -/
theorem Ordered.invoked_nodup
    (h : Ordered tx workers s) :
    s.invoked.Nodup := by
  have hNodup := h.perm.nodup_iff.mp h.tracked.nodup
  apply h.invoked.nodup_iff.mpr
  exact (List.nodup_append.mp hNodup).2.1

/-
  A starter call begins only when every job that it waits
  for has returned or was rejected without a call; no job is
  called twice; and the calls in progress stay within the
  worker limit.
-/
theorem start_order
    {workers : Nat}
    {s : Exec N}
    (hs : (executor tx workers).Reachable s) :
    (∀ n s', s.step tx workers (.invoke n) = some s' →
        ∀ d ∈ tx.waitsFor n,
          d ∈ s.returned ∨
            (∃ err, (d, err) ∈ s.ex.rejected) ∧ d ∉ s'.invoked) ∧
      s.invoked.Nodup ∧ s.outstanding.length ≤ workers := by
  have h := ordered_of_reachable hs
  refine ⟨?_, h.invoked_nodup, ?_⟩
  · intro n s' hStep d hd
    have h' := h.invoke hStep
    simp only [step] at hStep
    split at hStep
    · rename_i hMem
      cases hStep
      have hStarted : n ∈ s.ex.started :=
        h.perm.mem_iff.mpr (List.mem_append_left _ hMem)
      rcases h.ready n hStarted d hd with hDone | ⟨hl, hErr⟩
      · exact Or.inl hDone
      · rcases Option.ne_none_iff_exists'.mp hErr with ⟨err, hErr⟩
        refine Or.inr
          ⟨⟨err, (h.tracked.rejected d err).mpr ⟨hl, hErr⟩⟩, ?_⟩
        intro hInvoked
        have hLaunched : s.ex.launched d = true :=
          h'.launched_of_invoked hInvoked
        rw [hl] at hLaunched
        cases hLaunched
    · cases hStep
  · have hInflight := h.inflight
    have hBound := h.bound
    omega

section Chain

local instance : UnitNames String := asciiNames

/- A service and another that requires and follows it. -/
def chain : List (Option (UnitFile String)) :=
  [some (.bare "a.service" .service),
    some
      { UnitFile.bare "b.service" .service with
        requires := ["a.service"]
        after := ["a.service"] }]

/-
  With one worker, the second call of the chain waits for
  the first to return.
-/
theorem start_order_chain :
    ∃ g tx, build chain = .ok g ∧
      g.planStart ["b.service"] = .ok tx ∧
      ∃ s, (executor tx 1).Reachable s ∧
        s.invoked = ["a.service"] ∧
        s.ex.spawned = ["b.service"] ∧
        ((∀ n s', s.step tx 1 (.invoke n) = some s' →
            ∀ d ∈ tx.waitsFor n,
              d ∈ s.returned ∨
                (∃ err, (d, err) ∈ s.ex.rejected) ∧
                  d ∉ s'.invoked) ∧
          s.invoked.Nodup ∧ s.outstanding.length ≤ 1) := by
  have hRun :
      ∃ g tx, build chain = .ok g ∧
        g.planStart ["b.service"] = .ok tx ∧
        ∃ s, (executor tx 1).Reachable s ∧
          s.invoked = ["a.service"] ∧
          s.ex.spawned = ["b.service"] :=
    ⟨_, _, rfl, rfl, _,
      Lib.System.reachable_of_run
        [.tick, .tick, .tick, .invoke "a.service",
          .finish "a.service" none, .tick, .tick, .tick, .tick,
          .tick]
        rfl rfl,
      rfl, rfl⟩
  rcases hRun with
    ⟨g, tx, hBuild, hPlan, s, hReach, hInvoked, hSpawned⟩
  exact ⟨g, tx, hBuild, hPlan, s, hReach, hInvoked, hSpawned,
    start_order hReach⟩

end Chain

end Exec

end Core

end Winunitd
