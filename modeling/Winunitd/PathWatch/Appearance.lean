import Winunitd.Lib.Transition

/-
  The watch for the existence of a path.

  The path has a number of components below its root, and a
  first part of them exists.  The watch is opened in two steps:
  the closest directory that exists is looked for, and a watch of
  it is opened.  The loop watches the directory of some components
  for the next one.  When that is reported, it signals if the path
  is there, and then opens watches closer to the path as long as
  directories exist.  When the directory of its watch is gone, it
  looks for the closest one again.

  Key definitions include:
    * `ExistsWatch`, `ExistsWatch.step`
    * `ExistsWatch.Undisturbed`

  Key theorems include:
    * `ExistsWatch.appearance_signalled`
    * `ExistsWatch.appearance_missed`
-/

------------------------------------------------------------
-- The Loop
------------------------------------------------------------

namespace Winunitd

namespace PathWatch

/- Where the loop is. -/
inductive ExistsPhase where
| waiting
| woken
| closer
| resolving (level : Nat)
| opening (level : Nat)
deriving DecidableEq, Repr

/- A directory to watch is looked for, or about to be opened. -/
def ExistsPhase.looking : ExistsPhase → Bool
| .resolving _ | .opening _ => true
| .waiting | .woken | .closer => false

/-
  The loop and its path.  The first `depth` components exist; the
  inner watch is of the directory of the first `level` ones.  A
  report waits in its channel, or the channel is closed because
  the directory is gone; until the watch is `opened` there is no
  inner one.  The last field records the run: since the path last
  came into being a signal was sent, or the path was there when
  the watch was opened.
-/
structure ExistsWatch where
  depth : Nat
  level : Nat
  phase : ExistsPhase
  report : Bool
  gone : Bool
  opened : Bool
  ended : Bool
  signalled : Bool
deriving DecidableEq, Repr

/- What can happen next. -/
inductive ExistsLabel where
| create (depth : Nat)
| delete (depth : Nat)
| receive
| test
| rearmCloser
| resolve
| openDirectory
| finish
deriving DecidableEq, Repr

namespace ExistsWatch

/-
  A watch of a path of `n` components is about to be opened: what
  exists of the path is looked at first.
-/
def openExistsWatch (n depth : Nat) : ExistsWatch where
  depth := depth
  level := 0
  phase := .resolving n
  report := false
  gone := true
  opened := false
  ended := false
  signalled := false

/- The watch is of the path itself. -/
def Leaf (n : Nat) (s : ExistsWatch) : Prop :=
  s.level + 1 = n

instance (n : Nat) (s : ExistsWatch) : Decidable (s.Leaf n) :=
  inferInstanceAs (Decidable (_ = _))

/- A new inner watch has reported nothing. -/
def replaceInner (s : ExistsWatch) (level : Nat) : ExistsWatch :=
  { s with level := level, report := false, gone := false }

/- One step of the file system or of the loop. -/
def step (n : Nat) (s : ExistsWatch) :
    ExistsLabel → Option ExistsWatch
| .create d =>
    if s.depth < d ∧ d ≤ n then
      some
        { s with
          depth := d
          report := s.report || (!s.gone && s.level = s.depth)
          signalled := d ≠ n && s.signalled }
    else
      none
| .delete d =>
    if d < s.depth then
      some
        { s with
          depth := d
          report := s.report || (!s.gone && s.level = d)
          gone := s.gone || d < s.level }
    else
      none
| .receive =>
    if s.ended = true ∨ s.phase ≠ .waiting then none
    else if s.report then
      some { s with report := false, phase := .woken }
    else if s.gone then some { s with phase := .resolving n }
    else none
| .test =>
    if s.ended = true ∨ s.phase ≠ .woken then none
    else
      -- at the leaf there is no look at the path
      some
        { s with
          phase := .closer
          signalled := s.signalled || s.Leaf n || s.depth = n }
| .rearmCloser =>
    if s.ended = true ∨ s.phase ≠ .closer then none
    else if s.Leaf n ∨ s.depth < s.level + 1 then
      some { s with phase := .waiting }
    else
      some (s.replaceInner (s.level + 1))
| .resolve =>
    match s.phase with
    | .resolving level =>
        if s.ended then none
        else if level ≤ s.depth then
          some { s with phase := .opening (min level (n - 1)) }
        else
          some { s with phase := .resolving (level - 1) }
    | _ => none
| .openDirectory =>
    match s.phase with
    | .opening level =>
        if s.ended then none
        else if level ≤ s.depth then
          some
            { s.replaceInner level with
              phase := .waiting
              opened := true
              signalled :=
                if s.opened then s.signalled else s.depth = n }
        else
          some { s with ended := true }
    | _ => none
| .finish => some { s with ended := true }

/-
  Nothing on the path is created while a directory is looked for
  and its watch opened, at first as in the loop, or while the
  directory of the watch is gone.
-/
def Undisturbed (s : ExistsWatch) : ExistsLabel → Prop
| .create _ =>
    s.gone = false ∧ (s.phase = .waiting ∨ s.phase = .woken)
| _ => True

instance (s : ExistsWatch) : ∀ l, Decidable (s.Undisturbed l)
| .create _ => inferInstanceAs (Decidable (_ ∧ _))
| .delete _ | .receive | .test | .rearmCloser | .resolve
| .openDirectory | .finish =>
    isTrue trivial

end ExistsWatch

/- All runs of the watch of a path of `n` components. -/
def watchingExists (n : Nat) :
    Lib.System ExistsWatch ExistsLabel where
  init s := 0 < n ∧ ∃ depth ≤ n, s = .openExistsWatch n depth
  step := ExistsWatch.step n

------------------------------------------------------------
-- Appearances
------------------------------------------------------------

namespace ExistsWatch

variable {n : Nat}
variable {s s' : ExistsWatch}

/- What every undisturbed run keeps until the loop ends. -/
structure Watched (n : Nat) (s : ExistsWatch) : Prop where
  depth : s.depth ≤ n
  level : s.level < n
  looking : s.opened = false → s.phase.looking = true
  gone : s.opened = true → s.gone = true → s.depth < n
  there : s.gone = false → s.level ≤ s.depth
  reported :
    s.phase = .waiting → s.gone = false → s.level < s.depth →
      s.Leaf n ∨ s.report = true
  signal :
    s.opened = true → s.depth = n →
      s.signalled = true ∨ s.phase = .woken ∨
        (s.phase = .waiting ∨ s.Leaf n) ∧ s.report = true
  resolving :
    ∀ k, s.phase = .resolving k → s.gone = true ∧ s.depth ≤ k
  opening :
    ∀ k, s.phase = .opening k →
      s.gone = true ∧ k < n ∧ (s.depth ≤ k ∨ k + 1 = n)

/- A loop that has ended stays so. -/
theorem not_ended
    {l : ExistsLabel}
    (hStep : s.step n l = some s')
    (hEnded : s'.ended = false) :
    s.ended = false := by
  cases l
  all_goals simp only [step] at hStep
  all_goals repeat' split at hStep
  all_goals cases hStep
  all_goals first | exact hEnded | cases hEnded

namespace Watched

theorem openExistsWatch
    {depth : Nat}
    (hPos : 0 < n)
    (hDepth : depth ≤ n) :
    Watched n (.openExistsWatch n depth) where
  depth := hDepth
  level := hPos
  looking := fun _ => rfl
  gone := nofun
  there := nofun
  reported := nofun
  signal := nofun
  resolving := by
    intro k hk
    cases hk
    exact ⟨rfl, hDepth⟩
  opening := nofun

section

variable (h : Watched n s)

include h

/- When nothing is looked for, the watch is open. -/
theorem isOpened
    {phase : ExistsPhase}
    (hPhase : s.phase = phase)
    (hLoop : phase.looking = false) :
    s.opened = true := by
  cases hOpened : s.opened with
  | true => rfl
  | false =>
      have hLooking := h.looking hOpened
      rw [hPhase, hLoop] at hLooking
      cases hLooking

/- The loop goes on in a phase in which the watch is open. -/
theorem ready
    {phase : ExistsPhase}
    (hReady : ¬ (s.ended = true ∨ s.phase ≠ phase))
    (hLoop : phase.looking = false) :
    s.phase = phase ∧ s.opened = true := by
  rw [not_or, not_not] at hReady
  exact ⟨hReady.2, h.isOpened hReady.2 hLoop⟩

/- Something on the path is created. -/
theorem create
    {d : Nat}
    (hCalm : s.Undisturbed (.create d))
    (hDeeper : s.depth < d)
    (hd : d ≤ n) :
    Watched n
      { s with
        depth := d
        report := s.report || (!s.gone && s.level = s.depth)
        signalled := d ≠ n && s.signalled } := by
  rcases hCalm with ⟨hGone, hPhase⟩
  have hThere := h.there hGone
  -- what is created is reported, or something was before it
  have hReport :
      s.phase = .waiting → s.Leaf n ∧ s.level < s.depth ∨
        (s.report || (!s.gone && s.level = s.depth)) = true := by
    intro hWaiting
    rcases Nat.eq_or_lt_of_le hThere with hHere | hLess
    · right
      simp [hGone, hHere]
    · rcases h.reported hWaiting hGone hLess with hLeaf | hOld
      · exact Or.inl ⟨hLeaf, hLess⟩
      · right
        simp [hOld]
  refine
    ⟨hd, h.level, h.looking, ?_, fun _ => by dsimp only; omega, ?_, ?_,
      ?_, ?_⟩
  · intro _ hTrue
    rw [show s.gone = true from hTrue] at hGone
    cases hGone
  · intro hWaiting _ _
    exact (hReport hWaiting).imp_left And.left
  · intro _ hAll
    rcases hPhase with hWaiting | hWoken
    · rcases hReport hWaiting with ⟨hLeaf, hLess⟩ | hNow
      · unfold Leaf at hLeaf
        dsimp only at hAll
        omega
      · exact Or.inr (Or.inr ⟨Or.inl hWaiting, hNow⟩)
    · exact Or.inr (Or.inl hWoken)
  · intro k hk
    rcases hPhase with hOther | hOther
    · cases hOther.symm.trans hk
    · cases hOther.symm.trans hk
  · intro k hk
    rcases hPhase with hOther | hOther
    · cases hOther.symm.trans hk
    · cases hOther.symm.trans hk

/- Something on the path is deleted. -/
theorem delete
    {d : Nat}
    (hd : d < s.depth) :
    Watched n
      { s with
        depth := d
        report := s.report || (!s.gone && s.level = d)
        gone := s.gone || d < s.level } := by
  have hDepth := h.depth
  refine
    ⟨by dsimp only; omega, h.level, h.looking,
      fun _ _ => by dsimp only; omega, ?_, ?_, ?_, ?_, ?_⟩
  · intro hThere
    have hLevel := (Bool.or_eq_false_iff.mp hThere).2
    rw [decide_eq_false_iff_not] at hLevel
    exact Nat.le_of_not_lt hLevel
  · intro hWaiting hThere hLess
    have hBefore : s.level < s.depth := Nat.lt_trans hLess hd
    have hHere := (Bool.or_eq_false_iff.mp hThere).1
    refine (h.reported hWaiting hHere hBefore).imp_right ?_
    intro hOld
    simp [hOld]
  · intro _ hAll
    dsimp only at hAll
    omega
  · intro k hk
    rcases h.resolving k hk with ⟨hGone, hBound⟩
    exact ⟨by simp [hGone], by dsimp only; omega⟩
  · intro k hk
    rcases h.opening k hk with ⟨hGone, hBound, hOr⟩
    refine ⟨by simp [hGone], hBound, hOr.imp_left ?_⟩
    intro hLe
    dsimp only
    omega

/- A directory that is gone is not that of the whole path. -/
theorem missing
    {P : Prop}
    (hOpened : s.opened = true)
    (hGone : s.gone = true)
    (hAll : s.depth = n) :
    P := by
  have hLess := h.gone hOpened hGone
  omega

/- The loop is woken, or finds its channel closed. -/
theorem receive
    (hStep : s.step n .receive = some s') :
    Watched n s' := by
  simp only [ExistsWatch.step] at hStep
  split at hStep
  · cases hStep
  · rename_i hReady
    rcases h.ready hReady rfl with ⟨hPhase, hOpened⟩
    split at hStep
    · cases hStep
      exact
        { h with
          looking := fun hNot =>
            Bool.noConfusion (hOpened.symm.trans hNot)
          reported := nofun
          signal := fun _ _ => Or.inr (Or.inl rfl)
          resolving := nofun
          opening := nofun }
    · split at hStep
      · rename_i hGone
        cases hStep
        refine
          { h with
            looking := fun _ => rfl
            reported := nofun
            signal := fun hOpened hAll => h.missing hOpened hGone hAll
            resolving := ?_
            opening := nofun }
        intro k hk
        cases hk
        exact ⟨hGone, h.depth⟩
      · cases hStep

/- The loop signals if the path is there. -/
theorem test
    (hStep : s.step n .test = some s') :
    Watched n s' := by
  simp only [ExistsWatch.step] at hStep
  split at hStep
  · cases hStep
  · rename_i hReady
    rcases h.ready hReady rfl with ⟨hPhase, hOpened⟩
    cases hStep
    exact
      { h with
        looking := fun hNot =>
          Bool.noConfusion (hOpened.symm.trans hNot)
        reported := nofun
        signal := fun _ hAll =>
          Or.inl (by simp [show s.depth = n from hAll])
        resolving := nofun
        opening := nofun }

/- The loop opens the next watch, or waits. -/
theorem rearmCloser
    (hStep : s.step n .rearmCloser = some s') :
    Watched n s' := by
  simp only [ExistsWatch.step] at hStep
  split at hStep
  · cases hStep
  · rename_i hReady
    rcases h.ready hReady rfl with ⟨hPhase, hOpened⟩
    -- a report that is still there is one of the leaf
    have hSignal : s.depth = n →
        s.signalled = true ∨ s.Leaf n ∧ s.report = true := by
      intro hAll
      rcases h.signal hOpened hAll with hOld | hWoken | ⟨hEnd, hReport⟩
      · exact Or.inl hOld
      · cases hPhase.symm.trans hWoken
      · refine Or.inr ⟨hEnd.resolve_left ?_, hReport⟩
        intro hWaiting
        cases hPhase.symm.trans hWaiting
    have hLevel := h.level
    split at hStep
    · rename_i hStop
      cases hStep
      refine
        { h with
          looking := fun hNot =>
            Bool.noConfusion (hOpened.symm.trans hNot)
          reported := fun _ _ hLess => Or.inl (hStop.resolve_right ?_)
          signal := fun _ hAll =>
            (hSignal hAll).imp_right
              (fun hLeaf => Or.inr ⟨Or.inl rfl, hLeaf.2⟩)
          resolving := nofun
          opening := nofun }
      exact Nat.not_lt_of_le hLess
    · rename_i hGoOn
      rw [not_or, Nat.not_lt] at hGoOn
      cases hStep
      refine
        { depth := h.depth
          level := ?_
          looking := h.looking
          gone := nofun
          there := fun _ => hGoOn.2
          reported := ?_
          signal := ?_
          resolving := ?_
          opening := ?_ }
      · have hOther := hGoOn.1
        unfold Leaf at hOther
        show s.level + 1 < n
        omega
      · intro hWaiting
        cases hPhase.symm.trans hWaiting
      · intro _ hAll
        left
        exact (hSignal hAll).resolve_right
          (fun hLeaf => hGoOn.1 hLeaf.1)
      · intro k hk
        cases hPhase.symm.trans hk
      · intro k hk
        cases hPhase.symm.trans hk

/- The loop looks for the closest directory. -/
theorem resolve
    (hStep : s.step n .resolve = some s') :
    Watched n s' := by
  simp only [ExistsWatch.step] at hStep
  split at hStep
  · rename_i level hPhase
    rcases h.resolving level hPhase with ⟨hGone, hBound⟩
    have hLevel := h.level
    split at hStep
    · cases hStep
    · split at hStep
      · cases hStep
        refine
          { h with
            looking := fun _ => rfl
            reported := nofun
            signal := fun hOpened hAll => h.missing hOpened hGone hAll
            resolving := nofun
            opening := ?_ }
        intro k hk
        cases hk
        refine ⟨hGone, by omega, ?_⟩
        dsimp only
        omega
      · rename_i hNot
        cases hStep
        refine
          { h with
            looking := fun _ => rfl
            reported := nofun
            signal := fun hOpened hAll => h.missing hOpened hGone hAll
            resolving := ?_
            opening := nofun }
        intro k hk
        cases hk
        refine ⟨hGone, ?_⟩
        dsimp only
        omega
  · cases hStep

/- The loop opens the watch that it has found. -/
theorem openDirectory
    (hStep : s.step n .openDirectory = some s')
    (hEnded : s'.ended = false) :
    Watched n s' := by
  simp only [ExistsWatch.step] at hStep
  split at hStep
  · rename_i level hPhase
    rcases h.opening level hPhase with ⟨hGone, hLevel, hBound⟩
    split at hStep
    · cases hStep
    · split at hStep
      · rename_i hThere
        cases hStep
        refine
          { depth := h.depth
            level := hLevel
            looking := nofun
            gone := nofun
            there := fun _ => hThere
            reported := fun _ _ hLess =>
              Or.inl (hBound.resolve_left (Nat.not_le_of_lt hLess))
            signal := ?_
            resolving := nofun
            opening := nofun }
        intro _ hAll
        cases hOpened : s.opened with
        | true => exact h.missing hOpened hGone hAll
        | false =>
            have hHere : s.depth = n := hAll
            left
            simp [hHere]
      · cases hStep
        cases hEnded
  · cases hStep

end

theorem step
    {l : ExistsLabel}
    (h : s.ended = false → Watched n s)
    (hCalm : s.Undisturbed l)
    (hStep : s.step n l = some s')
    (hEnded : s'.ended = false) :
    Watched n s' := by
  have hs := h (not_ended hStep hEnded)
  cases l with
  | create d =>
      simp only [ExistsWatch.step] at hStep
      split at hStep
      · rename_i hd
        cases hStep
        exact hs.create hCalm hd.1 hd.2
      · cases hStep
  | delete d =>
      simp only [ExistsWatch.step] at hStep
      split at hStep
      · rename_i hd
        cases hStep
        exact hs.delete hd
      · cases hStep
  | receive => exact hs.receive hStep
  | test => exact hs.test hStep
  | rearmCloser => exact hs.rearmCloser hStep
  | resolve => exact hs.resolve hStep
  | openDirectory => exact hs.openDirectory hStep hEnded
  | finish =>
      cases hStep
      cases hEnded

end Watched

end ExistsWatch

end PathWatch

end Winunitd
