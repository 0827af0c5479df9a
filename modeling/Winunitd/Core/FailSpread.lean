import Winunitd.Core.ExecuteSpec

/-
  How far a failure spreads.

  `FailReach` is the set of jobs that a failure at `root`
  reaches: it goes from a job without an error to the jobs
  not yet started that require it.  A failure records an
  error for exactly these jobs, and the fuel of `fail` is
  always enough.

  Key definitions include:
    * `Executor.FailReach`
    * `Executor.Spreads`
    * `Executor.Blames`
    * `Executor.Touches`

  Key theorems include:
    * `Executor.Spreads.errors_iff`
    * `Executor.spreads_fail`
    * `Executor.spreads_failQueued`
    * `Executor.markFailed_fuel`
    * `Executor.blames_fail`
    * `Executor.touches_fail`
-/

------------------------------------------------------------
-- Reach Of A Failure
------------------------------------------------------------

namespace Winunitd

namespace Core

variable {N : Type}
variable [UnitNames N]
variable {tx : Transaction N}

namespace Executor

/- The jobs that a failure at `root` reaches in `ex`. -/
inductive FailReach
    (tx : Transaction N)
    (ex : Executor N)
    (root : N) : N → Prop where
| root : FailReach tx ex root root
| requirer {m other : N} :
    FailReach tx ex root m →
    ex.errors m = none →
    other ∈ tx.jobNames →
    other ≠ m →
    dependsOn tx other m = true →
    ex.jobNotYetStarted other = true →
    FailReach tx ex root other

variable {n : N}

/- A job that started failing keeps an error. -/
theorem FailStep.notYetStarted
    {ex ex' : Executor N}
    (h : FailStep tx ex ex')
    (hNot : ex.jobNotYetStarted n = true) :
    ex'.jobNotYetStarted n = true ∨ ex'.errors n ≠ none := by
  rcases h.states n with hSame | hNew
  · left
    simpa [jobNotYetStarted, hSame] using hNot
  · exact Or.inr hNew.2.2

/- Failing starts no job anew. -/
theorem FailStep.notYetStarted_back
    {ex ex' : Executor N}
    (h : FailStep tx ex ex')
    (hNot : ex'.jobNotYetStarted n = true) :
    ex.jobNotYetStarted n = true := by
  rcases h.states n with hSame | hNew
  · simpa [jobNotYetStarted, hSame] using hNot
  · exact hNew.2.1

theorem FailStep.queued_back
    {ex ex' : Executor N}
    (h : FailStep tx ex ex')
    (hQueued : ex'.states n = .inactive ∧ ex'.launched n = false) :
    ex.states n = .inactive ∧ ex.launched n = false := by
  refine ⟨?_, h.launched ▸ hQueued.2⟩
  rcases h.states n with hSame | hNew
  · exact hSame ▸ hQueued.1
  · cases hNew.1.symm.trans hQueued.1

/- Each element of a fold has its turn. -/
theorem FailStep.foldl_mem
    {f : Executor N → N → Executor N}
    (hStep : ∀ ex o, FailStep tx ex (f ex o))
    {os : List N}
    {o : N}
    (ho : o ∈ os)
    (ex : Executor N) :
    ∃ mid, FailStep tx ex mid ∧
      FailStep tx (f mid o) (os.foldl f ex) := by
  rcases List.append_of_mem ho with ⟨before, after, rfl⟩
  rw [List.foldl_append, List.foldl_cons]
  exact ⟨_, .foldl hStep before ex, .foldl hStep after _⟩

/- What is reached after some failures was reached before. -/
theorem FailReach.back
    {ex ex' : Executor N}
    (h : FailStep tx ex ex')
    {root x : N}
    (hReach : FailReach tx ex' root x) :
    FailReach tx ex root x := by
  induction hReach with
  | root => exact .root
  | requirer _ hErr hJob hNe hDep hNot ih =>
      exact .requirer ih (h.errors_none hErr) hJob hNe hDep
        (h.notYetStarted_back hNot)

/- The reach depends on states and errors only. -/
theorem FailReach.congr
    {ex ex' : Executor N}
    (hStates : ex'.states = ex.states)
    (hErrors : ex'.errors = ex.errors)
    {root x : N}
    (hReach : FailReach tx ex root x) :
    FailReach tx ex' root x := by
  induction hReach with
  | root => exact .root
  | requirer _ hErr hJob hNe hDep hNot ih =>
      refine .requirer ih (by rw [hErrors, hErr]) hJob hNe hDep ?_
      simpa [jobNotYetStarted, hStates] using hNot

/-
  Failures at the jobs `roots` that went all the way: every
  root has an error, every fresh error is in reach of a
  root, and no job that requires a freshly failed one was
  left to start.
-/
structure Spreads
    (tx : Transaction N)
    (roots : N → Prop)
    (ex ex' : Executor N) : Prop where
  step : FailStep tx ex ex'
  sound :
    ∀ x, ex.errors x = none → ex'.errors x ≠ none →
      ∃ r, roots r ∧ FailReach tx ex r x
  closed :
    ∀ x, ex.errors x = none → ex'.errors x ≠ none →
      ∀ other ∈ tx.jobNames, other ≠ x →
        dependsOn tx other x = true →
        ex.jobNotYetStarted other = true →
        ex'.errors other ≠ none
  hit : ∀ r, roots r → ex'.errors r ≠ none

namespace Spreads

variable {ex mid ex' : Executor N}
variable {roots roots' : N → Prop}

/- Exactly the reach of the roots has an error afterwards. -/
theorem errors_iff
    (h : Spreads tx roots ex ex')
    {x : N} :
    ex'.errors x ≠ none ↔
      ex.errors x ≠ none ∨
        ∃ r, roots r ∧ FailReach tx ex r x := by
  constructor
  · intro hSome
    by_cases hOld : ex.errors x = none
    · exact Or.inr (h.sound x hOld hSome)
    · exact Or.inl hOld
  · rintro (hOld | ⟨r, hr, hReach⟩)
    · exact fun hNone => hOld (h.step.errors_none hNone)
    · induction hReach with
      | root => exact h.hit r hr
      | requirer _ hErr hJob hNe hDep hNot ih =>
          exact h.closed _ hErr ih _ hJob hNe hDep hNot

/- Nothing to fail. -/
theorem none
    (ex : Executor N)
    (h : ∀ r, roots r → ex.errors r ≠ none) :
    Spreads tx roots ex ex where
  step := .refl ex
  sound _ hNone hSome := absurd hNone hSome
  closed _ hNone hSome := absurd hNone hSome
  hit := h

/- One failure after another. -/
theorem append
    (h₁ : Spreads tx roots ex mid)
    (h₂ : Spreads tx roots' mid ex') :
    Spreads tx (fun r => roots r ∨ roots' r) ex ex' where
  step := h₁.step.trans h₂.step
  sound x hNone hSome := by
    by_cases hMid : mid.errors x = Option.none
    · rcases h₂.sound x hMid hSome with ⟨r, hr, hReach⟩
      exact ⟨r, Or.inr hr, hReach.back h₁.step⟩
    · rcases h₁.sound x hNone hMid with ⟨r, hr, hReach⟩
      exact ⟨r, Or.inl hr, hReach⟩
  closed x hNone hSome other hJob hNe hDep hNot := by
    by_cases hMid : mid.errors x = Option.none
    · rcases h₁.step.notYetStarted hNot with hStill | hErr
      · exact h₂.closed x hMid hSome other hJob hNe hDep hStill
      · exact mt h₂.step.errors_none hErr
    · exact mt h₂.step.errors_none
        (h₁.closed x hNone hMid other hJob hNe hDep hNot)
  hit r hr := by
    rcases hr with hr | hr
    · exact mt h₂.step.errors_none (h₁.hit r hr)
    · exact h₂.hit r hr

/- More roots, as long as each of them has an error. -/
theorem widen
    (h : Spreads tx roots ex ex')
    (hRoots : ∀ r, roots r → roots' r)
    (hHit : ∀ r, roots' r → ex'.errors r ≠ Option.none) :
    Spreads tx roots' ex ex' where
  step := h.step
  sound x hNone hSome := by
    rcases h.sound x hNone hSome with ⟨r, hr, hReach⟩
    exact ⟨r, hRoots r hr, hReach⟩
  closed := h.closed
  hit := hHit

/-
  A loop in which each job is a root and fails, or is passed
  over because it is none or has an error.
-/
theorem foldl
    {f : Executor N → N → Executor N}
    {os : List N}
    (hStep : ∀ ex o, FailStep tx ex (f ex o))
    (hRoots : ∀ r, roots r → r ∈ os)
    (hEach :
      ∀ mid, FailStep tx ex mid → ∀ o ∈ os,
        f mid o = mid ∧ (roots o → mid.errors o ≠ Option.none) ∨
          roots o ∧ Spreads tx (fun r => r = o) mid (f mid o)) :
    Spreads tx roots ex (os.foldl f ex) := by
  -- in between, the roots are those that already have an error
  have hLoop :
      Spreads tx
        (fun r => roots r ∧ (os.foldl f ex).errors r ≠ Option.none) ex
        (os.foldl f ex) := by
    refine List.foldlRecOn (motive := fun mid =>
      Spreads tx (fun r => roots r ∧ mid.errors r ≠ Option.none) ex mid)
      os f (.none ex (fun _ hr => hr.2)) ?_
    intro mid hMid o ho
    rcases hEach mid hMid.step o ho with ⟨hEq, _⟩ | ⟨hRoot, hHead⟩
    · rw [hEq]
      exact hMid
    · refine (hMid.append hHead).widen ?_ (fun _ hr => hr.2)
      rintro r (⟨hr, hOld⟩ | rfl)
      · exact ⟨hr, mt hHead.step.errors_none hOld⟩
      · exact ⟨hRoot, hHead.hit r rfl⟩
  refine hLoop.widen (fun _ hr => hr.1) ?_
  intro r hr
  rcases FailStep.foldl_mem hStep (hRoots r hr) ex with
    ⟨mid, hMid, hRest⟩
  refine mt hRest.errors_none ?_
  rcases hEach mid hMid r (hRoots r hr) with ⟨hEq, hOld⟩ | ⟨_, hHead⟩
  · rw [hEq]
    exact hOld hr
  · exact hHead.hit r rfl

end Spreads

variable {ex : Executor N}

theorem FailReach.trans
    {a b c : N}
    (hab : FailReach tx ex a b)
    (hbc : FailReach tx ex b c) :
    FailReach tx ex a c := by
  induction hbc with
  | root => exact hab
  | requirer _ hErr hJob hNe hDep hNot ih =>
      exact .requirer ih hErr hJob hNe hDep hNot

------------------------------------------------------------
-- Fuel
------------------------------------------------------------

/- The number of jobs without an error. -/
def unerrored (tx : Transaction N) (ex : Executor N) : Nat :=
  (tx.jobNames.filter (fun n => (ex.errors n).isNone)).length

theorem unerrored_le
    {ex ex' : Executor N}
    (h : FailStep tx ex ex') :
    unerrored tx ex' ≤ unerrored tx ex := by
  apply List.Sublist.length_le
  apply List.monotone_filter_right
  intro n hn
  rw [Option.isNone_iff_eq_none] at hn ⊢
  exact h.errors_none hn

variable {name : N}

theorem unerrored_lt
    {ex ex' : Executor N}
    (h : FailStep tx ex ex')
    (hJob : name ∈ tx.jobNames)
    (hNone : ex.errors name = none)
    (hSome : ex'.errors name ≠ none) :
    unerrored tx ex' < unerrored tx ex := by
  have hSub :
      (tx.jobNames.filter (fun n => (ex'.errors n).isNone)).Sublist
        ((tx.jobNames.filter (fun n => (ex.errors n).isNone)).filter
          (fun n => n ≠ name)) := by
    rw [List.filter_filter]
    apply List.monotone_filter_right
    intro n hn
    rw [Option.isNone_iff_eq_none] at hn
    have hne : n ≠ name := by
      intro hEq
      exact hSome (hEq ▸ hn)
    simp [h.errors_none hn, hne]
  refine Nat.lt_of_le_of_lt hSub.length_le ?_
  apply List.length_filter_lt_length_iff_exists.mpr
  exact ⟨name, by simp [hJob, hNone], by simp⟩

/- One failure has fuel for all jobs. -/
theorem unerrored_lt_failFuel
    (ex : Executor N) :
    unerrored tx ex < failFuel tx :=
  Nat.lt_succ_of_le (List.length_filter_le _ _)

------------------------------------------------------------
-- Exact Propagation
------------------------------------------------------------

/- The jobs in `os` that a failure of `name` goes on to. -/
private def Requirers
    (tx : Transaction N)
    (ex : Executor N)
    (name : N)
    (os : List N)
    (o : N) : Prop :=
  o ∈ os ∧ o ≠ name ∧ dependsOn tx o name = true ∧
    ex.jobNotYetStarted o = true

variable {fuel : Nat}
variable {os : List N}

/- The loop over the jobs that may require `name`. -/
private theorem spreads_requirers
    (hFail :
      ∀ (ex : Executor N) (o : N) (err : Err N),
        o ∈ tx.jobNames → ex.jobNotYetStarted o = true →
        unerrored tx ex < fuel →
        Spreads tx (fun r => r = o) ex
          (markFailed tx fuel ex o err))
    (name : N)
    (err : Err N)
    (hos : ∀ o ∈ os, o ∈ tx.jobNames)
    (hFuel : unerrored tx ex < fuel) :
    Spreads tx (Requirers tx ex name os) ex
      (os.foldl (spreadTo tx fuel name err) ex) := by
  refine .foldl (failStep_spreadTo · fuel name err) (fun _ hr => hr.1) ?_
  intro mid hMid o ho
  rcases spreadTo_eq tx fuel name err mid o with
    hEq | ⟨⟨hNe, hDep, hNot⟩, hEq⟩
  · refine Or.inl ⟨hEq, ?_⟩
    rintro ⟨_, hNe, hDep, hNot⟩
    rcases hMid.notYetStarted hNot with hStill | hErr
    · -- its turn was a failure of the job
      have hHead := hFail mid o (.dependency o name err) (hos o ho)
        hStill (Nat.lt_of_le_of_lt (unerrored_le hMid) hFuel)
      rw [spreadTo, if_neg hNe, if_neg (by simp [hDep]),
        if_neg (by simp [hStill])] at hEq
      rw [hEq] at hHead
      exact hHead.hit o rfl
    · exact hErr
  · rw [hEq]
    exact Or.inr ⟨⟨ho, hNe, hDep, hMid.notYetStarted_back hNot⟩,
      hFail mid o _ (hos o ho) hNot
        (Nat.lt_of_le_of_lt (unerrored_le hMid) hFuel)⟩

/- With enough fuel a failure spreads to its whole reach. -/
theorem spreads_markFailed
    (err : Err N)
    (hJob : name ∈ tx.jobNames)
    (hMay : ex.jobNotYetStarted name = true ∨
      ex.states name = .failed)
    (hFuel : unerrored tx ex < fuel) :
    Spreads tx (fun r => r = name) ex
      (markFailed tx fuel ex name err) := by
  induction fuel generalizing ex name err with
  | zero => omega
  | succ fuel ih =>
      have hGo :
          ¬ (¬ ex.jobNotYetStarted name ∧
            ex.states name ≠ .failed) :=
        fun hNot => hMay.elim hNot.1 hNot.2
      cases hErr : ex.errors name with
      | some e =>
          have hEq :
              markFailed tx (fuel + 1) ex name err =
                ex.setState name .failed := by
            simp only [markFailed]
            rw [if_neg hGo, if_pos (by simp [hErr])]
          have hHave : ex.errors name ≠ none := by
            simp [hErr]
          have hNone : Spreads tx (fun r => r = name) ex ex :=
            .none ex (fun r hr => hr ▸ hHave)
          rw [hEq]
          exact { hNone with step := failStep_setState hMay hHave }
      | none =>
          let ex₁ := reject tx (ex.recordError name err) name err
          have hRecord : FailStep tx ex ex₁ :=
            failStep_record hMay hErr err
          have hErrors :
              ∀ x, x ≠ name → ex₁.errors x = ex.errors x := by
            intro x hx
            simp [ex₁, reject_errors, hx]
          have hSelf : ex₁.errors name ≠ none := by
            simp [ex₁, reject_errors]
          have hLess : unerrored tx ex₁ < fuel := by
            have hLt := unerrored_lt hRecord hJob hErr hSelf
            omega
          have hRest :=
            spreads_requirers
              (fun ex o err ho hn hf => ih err ho (Or.inl hn) hf)
              name err (fun _ h => h) hLess
          have hEq :
              markFailed tx (fuel + 1) ex name err =
                tx.jobNames.foldl (spreadTo tx fuel name err) ex₁ := by
            simp only [markFailed]
            rw [if_neg hGo, if_neg (by simp [hErr])]
          rw [hEq]
          refine ⟨hRecord.trans hRest.step, ?_, ?_, ?_⟩
          · intro x hNone hSome
            refine ⟨name, rfl, ?_⟩
            by_cases hx : x = name
            · rw [hx]
              exact .root
            · have hMid : ex₁.errors x = none := by
                rw [hErrors x hx, hNone]
              rcases hRest.sound x hMid hSome with
                ⟨r, ⟨hr, hNe, hDep, hNot⟩, hReach⟩
              have hFirst : FailReach tx ex name r :=
                .requirer .root hErr hr hNe hDep
                  (hRecord.notYetStarted_back hNot)
              exact hFirst.trans (hReach.back hRecord)
          · intro x hNone hSome other ho hNe hDep hNot
            rcases hRecord.notYetStarted hNot with hStill | hBad
            · by_cases hx : x = name
              · rw [hx] at hNe hDep
                exact hRest.hit other ⟨ho, hNe, hDep, hStill⟩
              · have hMid : ex₁.errors x = none := by
                  rw [hErrors x hx, hNone]
                exact hRest.closed x hMid hSome other ho hNe hDep
                  hStill
            · exact mt hRest.step.errors_none hBad
          · intro r hr
            rw [hr]
            exact mt hRest.step.errors_none hSelf

theorem spreads_fail
    (err : Err N)
    (hJob : name ∈ tx.jobNames)
    (hMay : ex.jobNotYetStarted name = true ∨
      ex.states name = .failed) :
    Spreads tx (fun r => r = name) ex (fail tx ex name err) :=
  spreads_markFailed err hJob hMay (unerrored_lt_failFuel ex)

variable {names : List N}

/- Failing the queued jobs fails exactly their reach. -/
theorem spreads_failQueued
    (err : N → Err N)
    (hNames : ∀ n ∈ names, n ∈ tx.jobNames)
    (ex : Executor N) :
    Spreads tx
      (fun n => n ∈ names ∧ ex.states n = .inactive ∧
        ex.launched n = false)
      ex (failQueued tx err ex names) := by
  refine .foldl ?_ (fun _ hr => hr.1) ?_
  · intro mid n
    split
    · exact failStep_fail mid n (err n)
    · exact .refl mid
  intro mid hMid n hn
  by_cases hQueued : mid.states n = .inactive ∧ mid.launched n = false
  · rw [if_pos hQueued]
    exact Or.inr ⟨⟨hn, hMid.queued_back hQueued⟩,
      spreads_fail (err n) (hNames n hn)
        (Or.inl (jobNotYetStarted_iff.mpr (Or.inl hQueued.1)))⟩
  · rw [if_neg hQueued]
    refine Or.inl ⟨rfl, ?_⟩
    rintro ⟨_, hState, hLaunched⟩
    rcases hMid.states n with hSame | hNew
    · exact absurd ⟨hSame.trans hState,
        (congrFun hMid.launched n).trans hLaunched⟩ hQueued
    · exact hNew.2.2

------------------------------------------------------------
-- The Recursion Ends
------------------------------------------------------------

/- The loop over requirers, with two amounts of fuel. -/
private theorem requirers_fuel
    {fuel fuel' : Nat}
    (hFail :
      ∀ (ex : Executor N) (o : N) (err : Err N),
        o ∈ tx.jobNames →
        unerrored tx ex < fuel → unerrored tx ex < fuel' →
        markFailed tx fuel ex o err = markFailed tx fuel' ex o err)
    (name : N)
    (err : Err N)
    (hos : ∀ o ∈ os, o ∈ tx.jobNames)
    (hFuel : unerrored tx ex < fuel)
    (hFuel' : unerrored tx ex < fuel') :
    os.foldl (spreadTo tx fuel name err) ex =
      os.foldl (spreadTo tx fuel' name err) ex := by
  induction os generalizing ex with
  | nil => rfl
  | cons o os ih =>
      have hTail : ∀ p ∈ os, p ∈ tx.jobNames :=
        fun p hp => hos p (List.mem_cons_of_mem _ hp)
      have hSame : spreadTo tx fuel name err ex o =
          spreadTo tx fuel' name err ex o := by
        unfold spreadTo
        rw [hFail ex o (.dependency o name err)
          (hos o List.mem_cons_self) hFuel hFuel']
      have hStep : FailStep tx ex (spreadTo tx fuel name err ex o) :=
        failStep_spreadTo ..
      have hLess := unerrored_le hStep
      rw [List.foldl_cons, List.foldl_cons, ← hSame]
      exact ih hTail (Nat.lt_of_le_of_lt hLess hFuel)
        (Nat.lt_of_le_of_lt hLess hFuel')

/-
  A failure does not use up its fuel: with any amount above
  the number of jobs without an error it does the same.
-/
theorem markFailed_fuel
    {fuel fuel' : Nat}
    (err : Err N)
    (hJob : name ∈ tx.jobNames)
    (hFuel : unerrored tx ex < fuel)
    (hFuel' : unerrored tx ex < fuel') :
    markFailed tx fuel ex name err =
      markFailed tx fuel' ex name err := by
  induction fuel generalizing fuel' ex name err with
  | zero => omega
  | succ fuel ih =>
      cases fuel' with
      | zero => omega
      | succ fuel' =>
          simp only [markFailed]
          split
          · rfl
          rename_i hMay
          split
          · rfl
          rename_i hErr
          have hNone : ex.errors name = none := by
            simpa using hErr
          have hLess :=
            unerrored_lt (failStep_record (may_of_not hMay) hNone err)
              hJob hNone (by simp [reject_errors])
          exact requirers_fuel
            (fun ex o err ho hf hf' => ih err ho hf hf') name err
            (fun _ h => h) (by omega) (by omega)

------------------------------------------------------------
-- What A Failure Is Blamed On
------------------------------------------------------------

/-
  A fresh error is that of a root, or it names a requirement
  of the job and carries its error.
-/
def Blames
    (tx : Transaction N)
    (roots : N → Prop)
    (ex ex' : Executor N) : Prop :=
  ∀ n, ex.errors n = none → ex'.errors n ≠ none →
    roots n ∨
      ∃ m e, m ∈ tx.jobNames ∧ dependsOn tx n m = true ∧
        ex'.errors m = some e ∧
        ex'.errors n = some (.dependency n m e)

namespace Blames

variable {roots roots' : N → Prop}
variable {ex mid ex' : Executor N}

theorem refl
    (roots : N → Prop)
    (ex : Executor N) :
    Blames tx roots ex ex :=
  fun _ hNone hSome => absurd hNone hSome

theorem append
    (h₁ : Blames tx roots ex mid)
    (h₂ : Blames tx roots' mid ex')
    (hStep : FailStep tx mid ex') :
    Blames tx (fun r => roots r ∨ roots' r) ex ex' := by
  intro n hNone hSome
  by_cases hMid : mid.errors n = none
  · rcases h₂ n hMid hSome with hRoot | hBlamed
    · exact Or.inl (Or.inr hRoot)
    · exact Or.inr hBlamed
  · rcases h₁ n hNone hMid with hRoot | ⟨m, e, hm, hDep, hErr, hOwn⟩
    · exact Or.inl (Or.inl hRoot)
    · exact Or.inr
        ⟨m, e, hm, hDep, hStep.errors m e hErr,
          hStep.errors n _ hOwn⟩

/- Roots that are themselves blamed on a requirement. -/
theorem narrow
    (h : Blames tx roots ex ex')
    (hRoots :
      ∀ n, roots n → ex.errors n = none → ex'.errors n ≠ none →
        roots' n ∨
          ∃ m e, m ∈ tx.jobNames ∧ dependsOn tx n m = true ∧
            ex'.errors m = some e ∧
            ex'.errors n = some (.dependency n m e)) :
    Blames tx roots' ex ex' := by
  intro n hNone hSome
  rcases h n hNone hSome with hRoot | hBlamed
  · exact hRoots n hRoot hNone hSome
  · exact Or.inr hBlamed

end Blames

/-
  A failure is blamed on its job, whose first error is the one
  that it is failed with.
-/
theorem blames_markFailed
    (fuel : Nat)
    (ex : Executor N)
    (err : Err N)
    (hJob : name ∈ tx.jobNames) :
    Blames tx (fun r => r = name) ex
      (markFailed tx fuel ex name err) := by
  refine ((markFailed_rule (P := fun ex name err ex' =>
    name ∈ tx.jobNames → Blames tx (fun r => r = name) ex ex' ∧
      (ex.errors name = none → ex'.errors name ≠ none →
        ex'.errors name = some err))
    ex ?_ ?_ ?_ ?_ fuel name err).1 hJob).1
  · exact fun ex name _ _ => ⟨.refl _ ex, absurd⟩
  · exact fun ex name _ _ _ => ⟨.refl _ ex, absurd⟩
  · intro ex name err _ _
    refine ⟨?_, fun _ _ => by simp [reject_errors]⟩
    intro n hn hSome
    by_contra hNot
    rw [not_or] at hNot
    exact hSome (by simp [reject_errors, hNot.1, hn])
  · intro ex name err mid other ex' _ hMid hStep hOwn hOther _ hDep _ hNext
      hFail hJob
    rcases hFail hOther with ⟨hBlames, hFirst⟩
    refine ⟨((hMid hJob).1.append hBlames hNext).narrow ?_,
      fun _ _ => hNext.errors name err hOwn⟩
    -- the requirer is blamed on `name`
    rintro n (hName | rfl) hNone hSome
    · exact Or.inl hName
    by_cases hOld : mid.errors n = none
    · exact Or.inr ⟨name, err, hJob, hDep, hNext.errors name err hOwn,
        hFirst hOld hSome⟩
    · rcases (hMid hJob).1 n hNone hOld with
        hName | ⟨m, e, hm, hDep, hErr, hOwn⟩
      · exact Or.inl hName
      · exact Or.inr ⟨m, e, hm, hDep, hNext.errors m e hErr,
          hNext.errors n _ hOwn⟩

theorem blames_fail
    (ex : Executor N)
    (err : Err N)
    (hJob : name ∈ tx.jobNames) :
    Blames tx (fun r => r = name) ex (fail tx ex name err) :=
  blames_markFailed _ ex err hJob

theorem blames_failQueued
    (err : N → Err N)
    (hNames : ∀ n ∈ names, n ∈ tx.jobNames)
    (ex : Executor N) :
    Blames tx
      (fun n => n ∈ names ∧ ex.states n = .inactive ∧
        ex.launched n = false)
      ex (failQueued tx err ex names) := by
  refine (List.foldlRecOn (motive := fun mid =>
    FailStep tx ex mid ∧
      Blames tx
        (fun n => n ∈ names ∧ ex.states n = .inactive ∧
          ex.launched n = false) ex mid)
    names _ ⟨.refl ex, .refl _ ex⟩ ?_).2
  rintro mid ⟨hStep, hMid⟩ n hn
  split
  · rename_i hQueued
    have hNext : FailStep tx mid _ := failStep_fail mid n (err n)
    refine ⟨hStep.trans hNext, (hMid.append
      (blames_fail mid (err n) (hNames n hn)) hNext).narrow ?_⟩
    rintro m (hOld | rfl) _ _
    · exact Or.inl hOld
    · exact Or.inl ⟨hn, hStep.queued_back hQueued⟩
  · exact ⟨hStep, hMid⟩

------------------------------------------------------------
-- What A Failure Touches
------------------------------------------------------------

/- Only states within reach of a root change. -/
def Touches
    (tx : Transaction N)
    (roots : N → Prop)
    (ex ex' : Executor N) : Prop :=
  ∀ n, ex'.states n ≠ ex.states n →
    ∃ r, roots r ∧ FailReach tx ex r n

namespace Touches

variable {roots : N → Prop}
variable {ex mid ex' : Executor N}

theorem refl
    (roots : N → Prop)
    (ex : Executor N) :
    Touches tx roots ex ex :=
  fun _ hChanged => absurd rfl hChanged

/- A further failure at a job that is itself in reach. -/
theorem snoc
    (h : Touches tx roots ex mid)
    (hStep : FailStep tx ex mid)
    {name r : N}
    (hr : roots r)
    (hReach : FailReach tx ex r name)
    (hNext : Touches tx (fun r => r = name) mid ex') :
    Touches tx roots ex ex' := by
  intro n hChanged
  by_cases hMid : mid.states n = ex.states n
  · rw [← hMid] at hChanged
    rcases hNext n hChanged with ⟨_, rfl, hFrom⟩
    exact ⟨r, hr, hReach.trans (hFrom.back hStep)⟩
  · exact h n hMid

end Touches

theorem touches_markFailed
    (fuel : Nat)
    (ex : Executor N)
    (name : N)
    (err : Err N) :
    Touches tx (fun r => r = name) ex
      (markFailed tx fuel ex name err) := by
  have hSelf :
      ∀ {ex ex' : Executor N} {name : N},
        (∀ n, n ≠ name → ex'.states n = ex.states n) →
        Touches tx (fun r => r = name) ex ex' := by
    intro ex ex' name hOther n hChanged
    by_cases hn : n = name
    · exact ⟨name, rfl, hn ▸ .root⟩
    · exact absurd (hOther n hn) hChanged
  refine (markFailed_rule
    (P := fun ex name _ ex' => Touches tx (fun r => r = name) ex ex')
    ex ?_ ?_ ?_ ?_ fuel name err).1
  · exact fun ex _ _ => Touches.refl _ ex
  · intro ex name _ _
    apply hSelf
    intro n hn
    simp [setState, hn]
  · intro ex name err _
    apply hSelf
    intro n hn
    simp [reject_states, hn]
  · -- the requirers are in reach of the root
    intro ex name err mid other ex' hNone hMid hStep _ hJob hNe hDep hOpen
      _ hNext
    exact hMid.snoc hStep rfl (.requirer .root hNone hJob hNe hDep
      (hStep.notYetStarted_back hOpen)) hNext

theorem touches_fail
    (ex : Executor N)
    (name : N)
    (err : Err N) :
    Touches tx (fun r => r = name) ex (fail tx ex name err) :=
  touches_markFailed _ ex name err

theorem touches_failQueued
    (err : N → Err N)
    (ex : Executor N)
    (names : List N) :
    Touches tx
      (fun n => n ∈ names ∧ ex.states n = .inactive ∧
        ex.launched n = false)
      ex (failQueued tx err ex names) := by
  refine (List.foldlRecOn
    (motive := fun mid =>
      FailStep tx ex mid ∧
        Touches tx
          (fun n => n ∈ names ∧ ex.states n = .inactive ∧
            ex.launched n = false) ex mid)
    names _ ⟨.refl ex, Touches.refl _ ex⟩ ?_).2
  rintro mid ⟨hStep, hTouch⟩ n hMem
  split
  · rename_i hQueued
    exact ⟨hStep.trans (failStep_fail _ _ _),
      hTouch.snoc hStep ⟨hMem, hStep.queued_back hQueued⟩ .root
        (touches_fail mid n (err n))⟩
  · exact ⟨hStep, hTouch⟩

end Executor

end Core

end Winunitd
