import Winunitd.Lib.Transition
import Winunitd.Servicing.Floor

/-
  Changes of the compatibility floor beside running managers.

  A manager reads the floor once, at its start.  So a change
  that raises the floor looks before and after its write that
  no manager runs.  One change at a time has the lock; managers
  start, read the record and exit without it.

  Key definitions include:
    * `startupHold`, `Process.Fits`
    * `Machine.setFloor`, `floorChanges`

  Key theorems include:
    * `Machine.raised_floor_holds`
-/

------------------------------------------------------------
-- Managers And Changes
------------------------------------------------------------

namespace Winunitd

namespace Servicing

open Lib

variable [Quoting]

/- Why a starting manager must hold admission, if it must. -/
def startupHold
    (record : Except String (Option Floor))
    (dirs : Option String)
    (b : Build) : String :=
  if admissionHold record b ≠ "" then admissionHold record b
  else
    match dirs with
    | some err => "unsafe data directory: " ++ err
    | none => ""

/-
  A manager and the hold it keeps once it has read the floor.
  It is stale if a raise is written after that, and unseen by
  raises until the first look of one.
-/
structure Process where
  build : Build
  hold : Option String
  stale : Bool
  unseen : Bool
deriving DecidableEq

/- What the change with the lock does next. -/
inductive Change where
| current (f : Floor)
| stopped (f : Floor)
| write (f : Floor) (raise : Bool)
| confirm
| close
| remove
deriving DecidableEq

/- The record may be that of a confirmed raise. -/
structure Machine where
  record : Except String (Option Floor)
  change : Option Change
  managers : List Process
  confirmed : Bool
deriving DecidableEq

inductive FloorLabel where
| start (b : Build)
| sample (i : Nat) (unread dirs : Option String)
| exit (i : Nat)
| set (f : Floor) (b : Build)
| clear
| act (fails : Bool)

namespace Machine

/- An unusable or unread record counts as none. -/
def current (s : Machine) (fails : Bool) : Option Floor :=
  if fails then none else s.record.toOption.join

/-
  The next act of a change.  A look that finds a manager, or
  cannot tell, ends a raise.  A change that is killed ends as
  one whose act fails.
-/
def setFloor (s : Machine) (fails : Bool) : Change → Machine
| .current f =>
    if f.within (s.current fails) then
      { s with change := some (.write f false) }
    else { s with change := some (.stopped f) }
| .stopped f =>
    if fails ∨ s.managers ≠ [] then { s with change := none }
    else
      { s with
        change := some (.write f true)
        managers := s.managers.map (fun m => { m with unseen := false }) }
| .write f false =>
    if fails then { s with change := none }
    else ⟨.ok (some f), some .close, s.managers, false⟩
| .write f true =>
    if fails then { s with change := none }
    else
      { record := .ok (some f)
        change := some .confirm
        managers :=
          s.managers.map (fun m => { m with stale := m.hold.isSome })
        confirmed := false }
| .confirm =>
    if fails ∨ s.managers ≠ [] then { s with change := none }
    else { s with change := some .close, confirmed := true }
| .close => { s with change := none }
| .remove =>
    if fails then { s with change := none }
    else ⟨.ok none, some .close, s.managers, false⟩

def step (s : Machine) : FloorLabel → Option Machine
| .start b =>
    some { s with managers := s.managers ++ [⟨b, none, false, true⟩] }
| .sample i unread dirs =>
    match s.managers[i]? with
    | none => none
    | some m =>
        let record := unread.elim s.record .error
        let hold := m.hold.getD (startupHold record dirs m.build)
        some
          { s with
            managers := s.managers.set i { m with hold := some hold } }
| .exit i => some { s with managers := s.managers.eraseIdx i }
| .set f b =>
    if s.change.isNone ∧ (Floor.validate (some f)).isOk ∧
        (evaluate (some f) b).satisfied then
      some { s with change := some (.current f) }
    else none
| .clear =>
    if s.change.isNone then some { s with change := some .remove }
    else none
| .act fails => s.change.map (s.setFloor fails)

end Machine

def floorChanges : System Machine FloorLabel where
  init := fun s => s.change = none ∧ s.managers = []
  step := Machine.step

------------------------------------------------------------
-- Open Managers
------------------------------------------------------------

/- If the manager admits work, the record lets its build do so. -/
def Process.Fits
    (m : Process)
    (record : Except String (Option Floor)) : Prop :=
  m.hold = some "" →
    ∀ f, record = .ok f → (evaluate f m.build).satisfied = true

theorem startupHold_open
    {f : Option Floor}
    {unread dirs : Option String}
    {b : Build}
    (h : startupHold (unread.elim (.ok f) .error) dirs b = "") :
    (evaluate f b).satisfied = true := by
  have hOpen : admissionHold (unread.elim (.ok f) .error) b = "" := by
    by_contra hHeld
    simp [startupHold, hHeld] at h
  cases unread with
  | none => exact admissionHold_eq_empty_iff.mp hOpen
  | some err =>
      unfold admissionHold at hOpen
      simpa using congrArg String.length hOpen

namespace Machine

variable {s t : Machine}

omit [Quoting] in
/- A floor is within a current one only if there is a record. -/
theorem within_current
    {f : Floor}
    {fails : Bool}
    (h : f.within (s.current fails) = true) :
    ∃ prev, s.record = .ok (some prev) ∧
      f.within (some prev) = true := by
  have hNone : f.within none = false := rfl
  unfold current at h
  split at h
  · rw [hNone] at h
    cases h
  · cases hRecord : s.record with
    | error err =>
        rw [hRecord] at h
        exact absurd (hNone.symm.trans h) (by decide)
    | ok found =>
        rw [hRecord] at h
        cases found with
        | none => exact absurd (hNone.symm.trans h) (by decide)
        | some prev => exact ⟨prev, rfl, h⟩

/-
  A manager fits the record unless it is stale, and none is if
  a raise is confirmed.  A raise that is about to be written
  has seen no manager, so one that gets stale has started
  since; a floor that is written without a look is within the
  recorded one.
-/
structure Guarded (s : Machine) : Prop where
  fits : ∀ m ∈ s.managers, m.stale = false → m.Fits s.record
  sure : s.confirmed = true → ∀ m ∈ s.managers, m.stale = false
  since : ∀ m ∈ s.managers, m.stale = true → m.unseen = true
  looked :
    ∀ f, s.change = some (.write f true) →
      ∀ m ∈ s.managers, m.unseen = true
  lower :
    ∀ f, s.change = some (.write f false) →
      ∃ prev, s.record = .ok (some prev) ∧ f.within (some prev) = true

namespace Guarded

/- A change that goes on, or ends, without a write. -/
theorem goes
    (h : s.Guarded)
    {next : Option Change}
    (hNext : ∀ f raise, next ≠ some (.write f raise)) :
    Guarded { s with change := next } :=
  { h with
    looked := fun f hf => absurd hf (hNext f true)
    lower := fun f hf => absurd hf (hNext f false) }

theorem setFloor
    (h : s.Guarded)
    {c : Change}
    (hc : s.change = some c)
    (fails : Bool) :
    (s.setFloor fails c).Guarded := by
  fun_cases Machine.setFloor s fails c with
  | case1 f hWithin =>
      refine { h with looked := by simp, lower := ?_ }
      intro g hg
      cases hg
      exact within_current hWithin
  | case4 f hLook =>
      -- the look finds no manager, so there is none to be marked
      have hNone : s.managers = [] := by
        by_contra hSome
        exact hLook (Or.inr hSome)
      constructor <;> simp [hNone]
  | case6 f =>
      rcases h.lower f hc with ⟨prev, hPrev, hWithin⟩
      refine { h with
        fits := ?_, sure := by simp, looked := by simp,
        lower := by simp }
      intro m hm hSure hOpen g hg
      cases hg
      have hMeets := h.fits m hm hSure hOpen _ hPrev
      rw [evaluate_satisfied_iff] at hMeets ⊢
      exact hMeets.lower hWithin
  | case8 f =>
      refine ⟨?_, by simp, ?_, by simp, by simp⟩
      · intro m hm hSure hOpen
        rcases List.mem_map.mp hm with ⟨k, _, rfl⟩
        -- a manager that admits work has read the record before
        have hRead : k.hold = some "" := hOpen
        simp [hRead] at hSure
      · intro m hm _
        rcases List.mem_map.mp hm with ⟨k, hk, rfl⟩
        exact h.looked f hc k hk
  | case10 hLook =>
      have hNone : s.managers = [] := by
        by_contra hSome
        exact hLook (Or.inr hSome)
      constructor <;> simp [hNone]
  | case13 =>
      refine { h with
        fits := ?_, sure := by simp, looked := by simp,
        lower := by simp }
      intro m _ _ _ g hg
      cases hg
      rfl
  | _ => exact h.goes (by simp)

theorem step
    (h : s.Guarded)
    {l : FloorLabel}
    (hStep : s.step l = some t) :
    t.Guarded := by
  cases l with
  | start b =>
      cases hStep
      have hNew : Process.Fits ⟨b, none, false, true⟩ s.record := by
        intro hOpen
        cases hOpen
      constructor
      · exact List.forall_mem_append.mpr
          ⟨h.fits, by simpa using hNew⟩
      · exact fun hSure =>
          List.forall_mem_append.mpr ⟨h.sure hSure, by simp⟩
      · exact List.forall_mem_append.mpr ⟨h.since, by simp⟩
      · exact fun f hf =>
          List.forall_mem_append.mpr ⟨h.looked f hf, by simp⟩
      · exact h.lower
  | sample i unread dirs =>
      rcases hm : s.managers[i]? with _ | m <;>
        simp only [Machine.step, hm] at hStep <;>
        cases hStep
      have hMem := List.mem_of_getElem? hm
      constructor
      · intro n hn hSure
        rcases List.mem_or_eq_of_mem_set hn with hOld | rfl
        · exact h.fits n hOld hSure
        intro hOpen f hf
        cases hHold : m.hold with
        | none =>
            rw [hHold, hf] at hOpen
            exact startupHold_open (Option.some.inj hOpen)
        | some hold =>
            rw [hHold] at hOpen
            exact h.fits m hMem hSure (hHold.trans hOpen) f hf
      · intro hSure n hn
        rcases List.mem_or_eq_of_mem_set hn with hOld | rfl
        · exact h.sure hSure n hOld
        · exact h.sure hSure m hMem
      · intro n hn hStale
        rcases List.mem_or_eq_of_mem_set hn with hOld | rfl
        · exact h.since n hOld hStale
        · exact h.since m hMem hStale
      · intro f hf n hn
        rcases List.mem_or_eq_of_mem_set hn with hOld | rfl
        · exact h.looked f hf n hOld
        · exact h.looked f hf m hMem
      · exact h.lower
  | exit i =>
      cases hStep
      exact
        { fits := fun m hm => h.fits m (List.mem_of_mem_eraseIdx hm)
          sure := fun hSure m hm =>
            h.sure hSure m (List.mem_of_mem_eraseIdx hm)
          since := fun m hm => h.since m (List.mem_of_mem_eraseIdx hm)
          looked := fun f hf m hm =>
            h.looked f hf m (List.mem_of_mem_eraseIdx hm)
          lower := h.lower }
  | set | clear =>
      rcases Option.ite_none_right_eq_some.mp hStep with ⟨_, hNext⟩
      cases hNext
      exact h.goes (by simp)
  | act fails =>
      rcases Option.map_eq_some_iff.mp hStep with ⟨c, hc, hNext⟩
      exact hNext ▸ h.setFloor hc fails

end Guarded

end Machine

end Servicing

end Winunitd
