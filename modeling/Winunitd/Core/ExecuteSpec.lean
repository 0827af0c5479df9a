import Winunitd.Core.Execute

/-
  What the parts of the executor do.

  `FailStep` says once what a failure may change, however far
  it propagates: it records errors and never removes one, it
  fails only jobs that have not started, and it releases the
  waiters of exactly those jobs that it rejects unlaunched.
  `Counted` ties the counter of a job to its unreleased
  predecessors.

  Key definitions include:
    * `Phase.Passed`, `workLeft`
    * `Executor.Counted`
    * `Executor.FailStep`

  Key theorems include:
    * `Executor.counted_releaseAfter`
    * `Executor.failStep_markFailed`, `Executor.markFailed_rule`
    * `Executor.failStep_failQueued`
-/

------------------------------------------------------------
-- Calls On The Move
------------------------------------------------------------

namespace Winunitd

namespace Core

variable {α : Type}

/- A new element joins the first of two lists. -/
theorem perm_append_snoc
    (xs ys : List α)
    (a : α) :
    (xs ++ ys ++ [a]).Perm (xs ++ [a] ++ ys) := by
  rw [List.append_assoc, List.append_assoc]
  exact List.perm_append_comm.append_left xs

/- An element goes from the first of two lists to the second. -/
theorem perm_move
    [DecidableEq α]
    {xs : List α}
    {a : α}
    (h : a ∈ xs)
    (ys : List α) :
    (xs ++ ys).Perm (xs.erase a ++ (ys ++ [a])) := by
  refine ((List.perm_cons_erase h).append_right ys).trans ?_
  refine (List.perm_append_singleton a (xs.erase a ++ ys)).symm.trans ?_
  rw [List.append_assoc]

theorem exists_mem_of_length
    {xs ys : List α}
    (h : xs.length + ys.length ≠ 0) :
    (∃ a, a ∈ xs) ∨ ∃ a, a ∈ ys := by
  cases xs with
  | cons a xs => exact Or.inl ⟨a, List.mem_cons_self⟩
  | nil =>
      rw [List.length_nil, Nat.zero_add] at h
      exact Or.inr (List.exists_mem_of_length_pos
        (Nat.pos_of_ne_zero h))

/- The pass of an executor over the jobs is past `n`. -/
def Phase.Passed {N : Type} (phase : Phase N) (n : N) : Prop :=
  match phase with
  | .head => False
  | .launching rest => n ∉ rest
  | _ => True

/- Work of an executor in a phase, over `jobs` jobs. -/
def Phase.rank {N : Type} (jobs : Nat) : Phase N → Nat
| .head => jobs + 4
| .launching rest => rest.length + 3
| .awaiting => 2
| .draining => 1
| .done => 0

/-
  Work left in an execution: each job is launched, called,
  returned and processed in turn, and processing a result
  may begin another pass over the jobs.
-/
def workLeft
    {N : Type}
    (jobs : Nat)
    (phase : Phase N)
    (unlaunched spawned outstanding finished : Nat) : Nat :=
  phase.rank jobs + 3 * unlaunched + 2 * spawned + outstanding +
    (jobs + 3) * (unlaunched + spawned + outstanding + finished)

section WorkLeft

variable {N : Type}
variable {jobs : Nat}
variable {phase next : Phase N}
variable {u sp out fin : Nat}

theorem workLeft_move (h : next.rank jobs < phase.rank jobs) :
    workLeft jobs next u sp out fin <
      workLeft jobs phase u sp out fin := by
  unfold workLeft
  omega

theorem workLeft_launch
    (h : next.rank jobs ≤ phase.rank jobs)
    (hu : 0 < u) :
    workLeft jobs next (u - 1) (sp + 1) out fin <
      workLeft jobs phase u sp out fin := by
  have hSame : u - 1 + (sp + 1) + out + fin = u + sp + out + fin := by
    omega
  unfold workLeft
  rw [hSame]
  omega

theorem workLeft_invoke (hsp : 0 < sp) :
    workLeft jobs phase u (sp - 1) (out + 1) fin <
      workLeft jobs phase u sp out fin := by
  have hSame : u + (sp - 1) + (out + 1) + fin = u + sp + out + fin := by
    omega
  unfold workLeft
  rw [hSame]
  omega

theorem workLeft_finish (hout : 0 < out) :
    workLeft jobs phase u sp (out - 1) (fin + 1) <
      workLeft jobs phase u sp out fin := by
  have hSame : u + sp + (out - 1) + (fin + 1) = u + sp + out + fin := by
    omega
  unfold workLeft
  rw [hSame]
  omega

/- Processing a result pays for the next pass. -/
theorem workLeft_receive
    (h : next.rank jobs ≤ phase.rank jobs + jobs + 2) :
    workLeft jobs next u sp out fin <
      workLeft jobs phase u sp out (fin + 1) := by
  unfold workLeft
  rw [← Nat.add_assoc _ fin 1, Nat.mul_succ]
  omega

end WorkLeft

------------------------------------------------------------
-- Counting Predecessors
------------------------------------------------------------

variable {N : Type}
variable [UnitNames N]
variable {tx : Transaction N}

namespace Executor

/- Every job counts its predecessors that are not released. -/
def Counted (tx : Transaction N) (ex : Executor N) : Prop :=
  ∀ n ∈ tx.jobNames,
    ex.remaining n =
      ((tx.waitsFor n).filter
        (fun d => ex.released d = false)).length

theorem countDown_apply
    (remaining : N → Nat)
    (succs : List N)
    (n : N) :
    countDown remaining succs n =
      remaining n - succs.count n := by
  unfold countDown
  induction succs generalizing remaining with
  | nil => simp
  | cons succ succs ih =>
      rw [List.foldl_cons, ih, Function.update_apply,
        List.count_cons]
      by_cases hEq : n = succ
      · rw [if_pos hEq, hEq]
        simp
        omega
      · rw [if_neg hEq]
        simp [Ne.symm hEq]

variable {n : N}

/- Distinct names, each repeated as often as `f` says. -/
private theorem count_flatMap_replicate
    {names : List N}
    (hNodup : names.Nodup)
    (f : N → Nat)
    (hn : n ∈ names) :
    (names.flatMap (fun m => List.replicate (f m) m)).count n =
      f n := by
  induction names with
  | nil => simp at hn
  | cons m names ih =>
      rcases List.nodup_cons.mp hNodup with ⟨hNot, hTail⟩
      rw [List.flatMap_cons, List.count_append,
        List.count_replicate]
      by_cases hm : m = n
      · have hZero :
            (names.flatMap
              (fun m => List.replicate (f m) m)).count n = 0 := by
          apply List.count_eq_zero_of_not_mem
          intro hMem
          rcases List.mem_flatMap.mp hMem with ⟨x, hx, hxn⟩
          have hEq : n = x := List.eq_of_mem_replicate hxn
          exact hNot (hm ▸ hEq ▸ hx)
        simp [hm, hZero]
      · have hMem : n ∈ names := by
          rcases List.mem_cons.mp hn with h | h
          · exact absurd h.symm hm
          · exact h
        simp [hm, ih hTail hMem]

/- A job is unblocked by `dep` once for each mention of it. -/
theorem count_unblock
    (tx : Transaction N)
    (hn : n ∈ tx.jobNames)
    (dep : N) :
    (tx.unblock dep).count n = (tx.waitsFor n).count dep := by
  have hReplicate :
      tx.unblock dep =
        tx.jobNames.flatMap (fun m =>
          List.replicate ((tx.waitsFor m).count dep) m) := by
    unfold Transaction.unblock
    congr 1
    funext m
    rw [List.map_const', List.count_eq_length_filter]
    congr 2
  rw [hReplicate]
  exact count_flatMap_replicate tx.nodup_jobNames _ hn

/- Releasing changes the release flags and counters only. -/
theorem releaseAfter_same
    (tx : Transaction N)
    (ex : Executor N)
    (name : N) :
    releaseAfter tx ex name =
      { ex with
        released := (releaseAfter tx ex name).released
        remaining := (releaseAfter tx ex name).remaining } := by
  unfold releaseAfter
  split <;> rfl

section

variable {ex : Executor N}
variable {name : N}
variable (tx : Transaction N)
variable (err : Err N)

theorem rejected_launched
    (hLaunched : ex.launched name = true) :
    (reject tx (ex.recordError name err) name err).rejected =
      ex.rejected := by
  simp [reject, recordError, hLaunched]

theorem rejected_new
    (hLaunched : ex.launched name = false) :
    (reject tx (ex.recordError name err) name err).rejected =
      ex.rejected ++ [(name, err)] := by
  unfold reject
  rw [if_neg (by simp [recordError, hLaunched]), releaseAfter_same]
  rfl

end

theorem released_releaseAfter
    (tx : Transaction N)
    (ex : Executor N)
    (name n : N) :
    (releaseAfter tx ex name).released n = true ↔
      n = name ∨ ex.released n = true := by
  unfold releaseAfter
  split
  · rename_i h
    constructor
    · exact Or.inr
    · rintro (rfl | h')
      · exact h
      · exact h'
  · simp only [Function.update_apply]
    by_cases hn : n = name
    · simp [hn]
    · simp [hn]

variable {ex : Executor N}

/- Releasing keeps the counters exact. -/
theorem counted_releaseAfter
    (h : Counted tx ex)
    (name : N) :
    Counted tx (releaseAfter tx ex name) := by
  unfold releaseAfter
  split
  · exact h
  rename_i hNew
  intro n hn
  simp only
  rw [countDown_apply, h n hn, count_unblock tx hn]
  have hFilter :
      (tx.waitsFor n).filter
          (fun d => Function.update ex.released name true d =
            false) =
        ((tx.waitsFor n).filter
          (fun d => ex.released d = false)).filter
            (fun d => d ≠ name) := by
    rw [List.filter_filter]
    apply List.filter_congr
    intro d _
    rw [Function.update_apply]
    by_cases hd : d = name
    · simp [hd]
    · simp [hd]
  have hCount :
      (tx.waitsFor n).count name =
        ((tx.waitsFor n).filter
          (fun d => ex.released d = false)).count name := by
    rw [List.count_filter]
    simpa using hNew
  rw [hFilter, hCount]
  have hSplit :=
    List.length_eq_length_filter_add
      (l := (tx.waitsFor n).filter
        (fun d => ex.released d = false))
      (fun d => d ≠ name)
  rw [List.count_eq_length_filter]
  have hSame :
      ((tx.waitsFor n).filter
          (fun d => ex.released d = false)).filter
            (fun d => !decide (d ≠ name)) =
        ((tx.waitsFor n).filter
          (fun d => ex.released d = false)).filter
            (fun d => d == name) := by
    apply List.filter_congr
    intro d _
    simp [beq_eq_decide]
  rw [hSame] at hSplit
  omega

/- A job that counts nothing has all predecessors released. -/
theorem Counted.released_of_zero
    (h : Counted tx ex)
    (hn : n ∈ tx.jobNames)
    (hZero : ex.remaining n = 0)
    {d : N}
    (hd : d ∈ tx.waitsFor n) :
    ex.released d = true := by
  rw [h n hn, List.length_eq_zero_iff,
    List.filter_eq_nil_iff] at hZero
  simpa using hZero d hd

/-
  If every job has the property or waits for something more,
  and jobs with it are released, then all jobs have it: the
  first one without it, along the waits, would wait for nothing.
-/
theorem Counted.induction
    {P : N → Prop}
    (h : Counted tx ex)
    (hAcyclic : Lib.Digraph.Acyclic (WaitsIn tx.jobNames tx.waitsFor))
    (hReleased : ∀ n, P n → ex.released n = true)
    (hAll : ∀ n ∈ tx.jobNames, P n ∨ 0 < ex.remaining n) :
    ∀ n ∈ tx.jobNames, P n := by
  refine hAcyclic.induction ?_
  intro n hn ih
  refine (hAll n hn).resolve_right ?_
  rw [h n hn, List.filter_eq_nil_iff.mpr]
  · exact Nat.lt_irrefl 0
  · intro d hd
    have hJob : d ∈ tx.jobNames :=
      Transaction.mem_jobNames.mpr (tx.waits_mem n d hd)
    simp [hReleased d (ih d hJob ⟨hd, hJob⟩)]

theorem counted_start
    (tx : Transaction N) :
    Counted tx (start tx) := by
  intro n _
  simp [start]

------------------------------------------------------------
-- What A Failure May Change
------------------------------------------------------------

/-
  The effect of failing any number of jobs.  A fresh error
  is one that `ex` does not have and `ex'` has.
-/
structure FailStep
    (tx : Transaction N)
    (ex ex' : Executor N) : Prop where
  launched : ex'.launched = ex.launched
  inflight : ex'.inflight = ex.inflight
  started : ex'.started = ex.started
  spawned : ex'.spawned = ex.spawned
  errors : ∀ n e, ex.errors n = some e → ex'.errors n = some e
  states :
    ∀ n, ex'.states n = ex.states n ∨
      ex'.states n = .failed ∧ ex.jobNotYetStarted n = true ∧
        ex'.errors n ≠ none
  fresh :
    ∀ n, ex.errors n = none → ex'.errors n ≠ none →
      ex'.states n = .failed
  released :
    ∀ n, ex'.released n = true ↔
      ex.released n = true ∨
        ex.launched n = false ∧ ex.errors n = none ∧
          ex'.errors n ≠ none
  rejected :
    ∀ n err, (n, err) ∈ ex'.rejected ↔
      (n, err) ∈ ex.rejected ∨
        ex.launched n = false ∧ ex.errors n = none ∧
          ex'.errors n = some err
  counted : Counted tx ex → Counted tx ex'

omit [UnitNames N] in
theorem jobNotYetStarted_iff :
    ex.jobNotYetStarted n = true ↔
      ex.states n = .inactive ∨ ex.states n = .activating := by
  unfold jobNotYetStarted
  cases ex.states n <;> simp

namespace FailStep

theorem refl
    (ex : Executor N) :
    FailStep tx ex ex where
  launched := rfl
  inflight := rfl
  started := rfl
  spawned := rfl
  errors _ _ h := h
  states _ := Or.inl rfl
  fresh n hNone hSome := absurd hNone hSome
  released n := by simp +contextual
  rejected n err := by simp +contextual
  counted h := h

/- No error is lost, so none is present before it is made. -/
theorem errors_none
    {ex ex' : Executor N}
    (h : FailStep tx ex ex')
    (hNone : ex'.errors n = none) :
    ex.errors n = none := by
  cases hErr : ex.errors n with
  | none => rfl
  | some e =>
      rw [h.errors n e hErr] at hNone
      cases hNone

/- A failed job stays failed. -/
theorem failed
    {ex ex' : Executor N}
    (h : FailStep tx ex ex')
    (hFailed : ex.states n = .failed) :
    ex'.states n = .failed := by
  rcases h.states n with hSame | hNew
  · rw [hSame, hFailed]
  · exact hNew.1

theorem trans
    {ex mid ex' : Executor N}
    (h₁ : FailStep tx ex mid)
    (h₂ : FailStep tx mid ex') :
    FailStep tx ex ex' where
  launched := h₂.launched.trans h₁.launched
  inflight := h₂.inflight.trans h₁.inflight
  started := h₂.started.trans h₁.started
  spawned := h₂.spawned.trans h₁.spawned
  errors n e h := h₂.errors n e (h₁.errors n e h)
  states n := by
    rcases h₁.states n with hSame | ⟨hFailed, hNot, hErr⟩
    · have hNotYet :
          mid.jobNotYetStarted n = ex.jobNotYetStarted n := by
        simp [jobNotYetStarted, hSame]
      rw [← hSame, ← hNotYet]
      exact h₂.states n
    · refine Or.inr ⟨h₂.failed hFailed, hNot, ?_⟩
      exact fun hNone => hErr (h₂.errors_none hNone)
  fresh n hNone hSome := by
    by_cases hMid : mid.errors n = none
    · exact h₂.fresh n hMid hSome
    · exact h₂.failed (h₁.fresh n hNone hMid)
  -- a fresh error is made in the first part or in the second
  released n := by
    rw [h₂.released n, h₁.released n, h₁.launched, or_assoc]
    apply or_congr_right
    by_cases hMid : mid.errors n = none
    · simp [hMid, h₁.errors_none hMid]
    · simp [hMid, mt h₂.errors_none hMid]
  rejected n err := by
    rw [h₂.rejected n err, h₁.rejected n err, h₁.launched, or_assoc]
    apply or_congr_right
    cases hMid : mid.errors n with
    | none => simp [h₁.errors_none hMid]
    | some e => simp [h₂.errors n e hMid]
  counted h := h₂.counted (h₁.counted h)

/- A fold of failures is a failure. -/
theorem foldl
    {α : Type}
    {f : Executor N → α → Executor N}
    (hStep : ∀ ex a, FailStep tx ex (f ex a))
    (as : List α)
    (ex : Executor N) :
    FailStep tx ex (as.foldl f ex) := by
  induction as generalizing ex with
  | nil => exact refl ex
  | cons a as ih => exact (hStep ex a).trans (ih (f ex a))

end FailStep

/- The executor when it has launched a job. -/
abbrev launch (ex : Executor N) (name : N) : Executor N :=
  { ex with
    launched := Function.update ex.launched name true
    states := Function.update ex.states name .activating
    started := ex.started ++ [name]
    inflight := ex.inflight + 1
    spawned := ex.spawned ++ [name] }

variable {name : N}

/- A job that already has an error is failed again. -/
theorem failStep_setState
    (hMay : ex.jobNotYetStarted name = true ∨
      ex.states name = .failed)
    (hErr : ex.errors name ≠ none) :
    FailStep tx ex (ex.setState name .failed) where
  launched := rfl
  inflight := rfl
  started := rfl
  spawned := rfl
  errors _ _ h := h
  states n := by
    by_cases hn : n = name
    · rw [hn]
      rcases hMay with hNot | hFailed
      · exact Or.inr ⟨by simp [setState], hNot, hErr⟩
      · exact Or.inl (by simp [setState, hFailed])
    · exact Or.inl (by simp [setState, hn])
  fresh n hNone hSome := absurd hNone hSome
  released := (FailStep.refl ex : FailStep tx ex ex).released
  rejected := (FailStep.refl ex : FailStep tx ex ex).rejected
  counted h := h

theorem reject_errors
    (tx : Transaction N)
    (ex : Executor N)
    (name : N)
    (err : Err N) :
    (reject tx (ex.recordError name err) name err).errors =
      Function.update ex.errors name (some err) := by
  unfold reject
  split
  · rfl
  · rw [releaseAfter_same]
    rfl

theorem reject_states
    (tx : Transaction N)
    (ex : Executor N)
    (name : N)
    (err : Err N) :
    (reject tx (ex.recordError name err) name err).states =
      Function.update ex.states name .failed := by
  unfold reject
  split
  · rfl
  · rw [releaseAfter_same]
    rfl

/- Recording the first error of a job, and rejecting it. -/
theorem failStep_record
    (hMay : ex.jobNotYetStarted name = true ∨
      ex.states name = .failed)
    (hNone : ex.errors name = none)
    (err : Err N) :
    FailStep tx ex
      (reject tx (ex.recordError name err) name err) := by
  have hErrors := reject_errors tx ex name err
  have hStates := reject_states tx ex name err
  constructor
  case launched | inflight | started | spawned =>
    unfold reject
    split
    · rfl
    · rw [releaseAfter_same]
      rfl
  case errors =>
    intro n e hSome
    rw [hErrors, Function.update_apply]
    by_cases hn : n = name
    · rw [hn, hNone] at hSome
      cases hSome
    · rw [if_neg hn]
      exact hSome
  case states =>
    intro n
    rw [hStates, hErrors, Function.update_apply,
      Function.update_apply]
    by_cases hn : n = name
    · rw [if_pos hn, if_pos hn, hn]
      rcases hMay with hNot | hFailed
      · exact Or.inr ⟨rfl, hNot, by simp⟩
      · exact Or.inl hFailed.symm
    · exact Or.inl (if_neg hn)
  case fresh =>
    intro n hn hSome
    have hEq : n = name := by
      by_contra hNe
      exact hSome (by simp [hErrors, hNe, hn])
    rw [hStates, hEq, Function.update_self]
  case released =>
    intro n
    rw [hErrors]
    cases hLaunched : ex.launched name with
    | true =>
        have hSame :
            (reject tx (ex.recordError name err) name err).released =
              ex.released := by
          simp [reject, recordError, hLaunched]
        rw [hSame]
        by_cases hn : n = name
        · simp [hn, hLaunched]
        · simp +contextual [hn]
    | false =>
        have hRelease :
            (reject tx (ex.recordError name err) name err).released
                n = true ↔ n = name ∨ ex.released n = true := by
          unfold reject
          rw [if_neg (by simp [recordError, hLaunched]),
            released_releaseAfter]
          rfl
        rw [hRelease]
        by_cases hn : n = name
        · simp [hn, hLaunched, hNone]
        · simp +contextual [hn]
  case rejected =>
    intro n e
    rw [hErrors]
    cases hLaunched : ex.launched name with
    | true =>
        rw [rejected_launched tx err hLaunched]
        by_cases hn : n = name
        · simp [hn, hLaunched]
        · simp +contextual [hn]
    | false =>
        rw [rejected_new tx err hLaunched, List.mem_append,
          List.mem_singleton, Prod.mk.injEq]
        by_cases hn : n = name
        · simp [hn, hLaunched, hNone, eq_comm]
        · simp +contextual [hn]
  case counted =>
    intro hCounted
    unfold reject
    split
    · exact hCounted
    · apply counted_releaseAfter
      exact hCounted

/- What a failure of `name` does with one of the other jobs. -/
abbrev spreadTo
    (tx : Transaction N)
    (fuel : Nat)
    (name : N)
    (err : Err N)
    (ex : Executor N)
    (other : N) :
    Executor N :=
  if other = name then ex
  else if ¬ dependsOn tx other name then ex
  else if ¬ ex.jobNotYetStarted other then ex
  else markFailed tx fuel ex other (.dependency other name err)

theorem spreadTo_eq
    (tx : Transaction N)
    (fuel : Nat)
    (name : N)
    (err : Err N)
    (ex : Executor N)
    (other : N) :
    spreadTo tx fuel name err ex other = ex ∨
      (other ≠ name ∧ dependsOn tx other name = true ∧
          ex.jobNotYetStarted other = true) ∧
        spreadTo tx fuel name err ex other =
          markFailed tx fuel ex other (.dependency other name err) := by
  unfold spreadTo
  split
  · exact Or.inl rfl
  rename_i hNe
  split
  · exact Or.inl rfl
  rename_i hDep
  split
  · exact Or.inl rfl
  · rename_i hNot
    exact Or.inr
      ⟨⟨hNe, by simpa using hDep, by simpa using hNot⟩, rfl⟩

omit [UnitNames N] in
theorem may_of_not
    (h : ¬ (¬ ex.jobNotYetStarted name ∧ ex.states name ≠ .failed)) :
    ex.jobNotYetStarted name = true ∨ ex.states name = .failed := by
  by_contra hNot
  rw [not_or] at hNot
  exact h hNot

section

variable (ex : Executor N)

/-
  What holds of a failure that does nothing or fails its job
  alone, and passes from each job to one that requires it, holds
  of a propagated failure, which is a failure step.
-/
theorem markFailed_rule
    {P : Executor N → N → Err N → Executor N → Prop}
    (hIdle : ∀ ex name err, P ex name err ex)
    (hAgain :
      ∀ ex name err, ex.errors name ≠ none →
        P ex name err (ex.setState name .failed))
    (hRecord :
      ∀ ex name err, ex.errors name = none →
        P ex name err (reject tx (ex.recordError name err) name err))
    (hSpread :
      ∀ ex name err mid other ex', ex.errors name = none →
        P ex name err mid → FailStep tx ex mid →
        mid.errors name = some err → other ∈ tx.jobNames →
        other ≠ name → dependsOn tx other name = true →
        mid.jobNotYetStarted other = true → FailStep tx mid ex' →
        P mid other (.dependency other name err) ex' →
        P ex name err ex')
    (fuel : Nat)
    (name : N)
    (err : Err N) :
    P ex name err (markFailed tx fuel ex name err) ∧
      FailStep tx ex (markFailed tx fuel ex name err) := by
  induction fuel generalizing ex name err with
  | zero => exact ⟨hIdle ex name err, .refl ex⟩
  | succ fuel ih =>
      unfold markFailed
      split
      · exact ⟨hIdle ex name err, .refl ex⟩
      rename_i hMay
      split
      · rename_i hErr
        have hSome := Option.isSome_iff_ne_none.mp hErr
        exact ⟨hAgain ex name err hSome,
          failStep_setState (may_of_not hMay) hSome⟩
      rename_i hErr
      have hNone : ex.errors name = none := by
        simpa using hErr
      -- the loop goes on to the requirers, one after another
      refine And.left (List.foldlRecOn (motive := fun mid =>
        (P ex name err mid ∧ FailStep tx ex mid) ∧
          mid.errors name = some err)
        tx.jobNames (spreadTo tx fuel name err)
        ⟨⟨hRecord ex name err hNone,
          failStep_record (may_of_not hMay) hNone err⟩,
          by simp [reject_errors]⟩ ?_)
      rintro mid ⟨⟨hMid, hStep⟩, hOwn⟩ other hJob
      rcases spreadTo_eq tx fuel name err mid other with
        hEq | ⟨⟨hNe, hDep, hOpen⟩, hEq⟩
      · rw [hEq]
        exact ⟨⟨hMid, hStep⟩, hOwn⟩
      · rw [hEq]
        rcases ih mid other (.dependency other name err) with
          ⟨hFail, hNext⟩
        exact ⟨⟨hSpread ex name err mid other _ hNone hMid hStep hOwn
          hJob hNe hDep hOpen hNext hFail, hStep.trans hNext⟩,
          hNext.errors name err hOwn⟩

/- A propagated failure is a failure step, with any fuel. -/
theorem failStep_markFailed
    (fuel : Nat)
    (name : N)
    (err : Err N) :
    FailStep tx ex (markFailed tx fuel ex name err) := by
  refine (markFailed_rule (P := fun _ _ _ _ => True) ex ?_ ?_ ?_ ?_
    fuel name err).2
  all_goals intros; trivial

theorem failStep_spreadTo
    (fuel : Nat)
    (name : N)
    (err : Err N)
    (other : N) :
    FailStep tx ex (spreadTo tx fuel name err ex other) := by
  rcases spreadTo_eq tx fuel name err ex other with hEq | ⟨_, hEq⟩
  · rw [hEq]
    exact .refl ex
  · rw [hEq]
    exact failStep_markFailed ex fuel other _

theorem failStep_fail
    (name : N)
    (err : Err N) :
    FailStep tx ex (fail tx ex name err) :=
  failStep_markFailed ex _ name err

theorem failStep_failQueued
    (err : N → Err N)
    (names : List N) :
    FailStep tx ex (failQueued tx err ex names) := by
  apply FailStep.foldl
  intro ex name
  split
  · exact failStep_fail ex name (err name)
  · exact .refl ex

/-
  After releasing its waiters, a processed result sets the
  state of its job or fails jobs.
-/
theorem onFinish_cases
    (tx : Transaction N)
    (name : N)
    (res : Option (Err N)) :
    (∃ st, onFinish tx ex name res =
        (releaseAfter tx ex name).setState name st) ∨
      FailStep tx (releaseAfter tx ex name)
        (onFinish tx ex name res) := by
  cases res with
  | some err =>
      simp only [onFinish]
      split
      · exact Or.inl ⟨_, rfl⟩
      · exact Or.inr (failStep_fail _ name err)
  | none =>
      simp only [onFinish]
      split
      · exact Or.inr (.refl _)
      split
      · rename_i err _
        exact Or.inr (failStep_fail _ name err)
      · exact Or.inl ⟨_, rfl⟩

/- Processing a result launches nothing and keeps errors. -/
theorem onFinish_frame
    (tx : Transaction N)
    (name : N)
    (res : Option (Err N)) :
    (onFinish tx ex name res).launched = ex.launched ∧
      (onFinish tx ex name res).started = ex.started ∧
      (onFinish tx ex name res).spawned = ex.spawned ∧
      (onFinish tx ex name res).inflight = ex.inflight ∧
      ∀ n, ex.errors n ≠ none →
        (onFinish tx ex name res).errors n ≠ none := by
  have hRelease := releaseAfter_same tx ex name
  rcases onFinish_cases ex tx name res with ⟨st, hEq⟩ | hFail
  · rw [hEq, hRelease]
    exact ⟨rfl, rfl, rfl, rfl, fun _ h => h⟩
  · have hErrors :
        (releaseAfter tx ex name).errors = ex.errors := by
      rw [hRelease]
    refine ⟨?_, ?_, ?_, ?_, ?_⟩
    · rw [hFail.launched, hRelease]
    · rw [hFail.started, hRelease]
    · rw [hFail.spawned, hRelease]
    · rw [hFail.inflight, hRelease]
    · intro n hSome hNone
      apply hSome
      rw [← hErrors]
      exact hFail.errors_none hNone

/-
  A launch attempt does nothing, fails jobs, or launches a
  job that waits for nothing more.
-/
theorem tryLaunch_cases
    (tx : Transaction N)
    (name : N) :
    FailStep tx ex (tryLaunch tx ex name) ∨
      ex.launched name = false ∧ ex.states name ≠ .failed ∧
        ex.remaining name = 0 ∧
        requiresFailed tx ex name = none ∧
        tryLaunch tx ex name = ex.launch name := by
  unfold tryLaunch
  split
  · exact Or.inl (.refl ex)
  rename_i hNew
  split
  · exact Or.inl (.refl ex)
  rename_i hState
  split
  · exact Or.inl (.refl ex)
  rename_i hZero
  split
  · rename_i err _
    exact Or.inl (failStep_fail ex name err)
  · rename_i hReq
    exact Or.inr ⟨by simpa using hNew, hState, by omega, hReq, rfl⟩

end

end Executor

------------------------------------------------------------
-- Steps Beside The Executor
------------------------------------------------------------

namespace Exec

variable {workers : Nat}
variable {s s' : Exec N}

/- The executor when one call less is in flight. -/
abbrev returning (s : Exec N) : Executor N :=
  { s.ex with inflight := s.ex.inflight - 1 }

/- A call of the job is pending, or its result is. -/
def InFlight (s : Exec N) (n : N) : Prop :=
  n ∈ s.ex.spawned ∨ n ∈ s.outstanding ∨
    n ∈ s.finished.map Prod.fst

/- An execution that is accepted begins with nothing done. -/
theorem begin_eq
    (h : tx.executeWithLimit workers = .ok s) :
    s = ⟨.head, .start tx, none, [], [], [], []⟩ := by
  unfold Transaction.executeWithLimit at h
  split at h
  · cases h
  split at h
  · cases h
  rename_i tx' hValid
  rw [(Transaction.validate_ok_iff.mp hValid).1] at h
  cases h
  rfl

/-
  Calls and cancellations alter no book of the executor but
  its goroutines, bring no job into flight, and never take a
  cancellation back.
-/
theorem step_aside
    {l : ExecLabel N}
    (hl : l ≠ .tick)
    (hStep : s.step tx workers l = some s') :
    s' =
        { s with
          ctxErr := s'.ctxErr
          ex := { s.ex with spawned := s'.ex.spawned }
          outstanding := s'.outstanding
          finished := s'.finished
          invoked := s'.invoked } ∧
      (s'.ctxErr = none → s.ctxErr = none) ∧
      ∀ n, s'.InFlight n → s.InFlight n := by
  cases l with
  | cancel deadline =>
      simp only [step] at hStep
      split at hStep
      · cases hStep
        exact ⟨rfl, nofun, fun _ hn => hn⟩
      · cases hStep
  | invoke name =>
      simp only [step] at hStep
      split at hStep
      · rename_i hMem
        cases hStep
        refine ⟨rfl, id, ?_⟩
        rintro n (hn | hn | hn)
        · exact Or.inl (List.mem_of_mem_erase hn)
        · rcases List.mem_append.mp hn with hn | hn
          · exact Or.inr (Or.inl hn)
          · rw [List.mem_singleton.mp hn]
            exact Or.inl hMem
        · exact Or.inr (Or.inr hn)
      · cases hStep
  | finish name res =>
      simp only [step] at hStep
      split at hStep
      · rename_i hMem
        cases hStep
        refine ⟨rfl, id, ?_⟩
        rintro n (hn | hn | hn)
        · exact Or.inl hn
        · exact Or.inr (Or.inl (List.mem_of_mem_erase hn))
        · rw [List.map_append, List.mem_append] at hn
          rcases hn with hn | hn
          · exact Or.inr (Or.inr hn)
          · have hEq : n = name := by
              simpa using hn
            rw [hEq]
            exact Or.inr (Or.inl hMem)
      · cases hStep
  | tick => exact absurd rfl hl

end Exec

end Core

end Winunitd
