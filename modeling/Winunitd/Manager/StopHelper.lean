import Winunitd.Lib.Transition

/-
  The helpers that run ExecStop.

  A stop of an invocation may run a helper process.  The helper
  is registered with the manager, and its record keeps a cleanup
  bit and an operation, until the helper's process is known to
  be gone and its output to be stored; a stop that is tried
  again joins the helper that is there.

  The rest of the manager is the environment: it replaces the
  unit map, starts new invocations, holds records for work of
  its own, and closes, at any time.  An invocation identifier is
  random, so a new invocation has a new one.

  Key definitions include:
    * `HelperManager`
    * `HelperManager.acceptStopHelper`, `releaseStopHelper`
    * `stopHelperRuns`

  Key theorems include:
    * `HelperManager.Sound.step`
    * `HelperManager.helper_once`
-/

------------------------------------------------------------
-- Helpers
------------------------------------------------------------

namespace Winunitd

namespace Manager

open Lib

def maxStopHelpers : Nat := 32

abbrev UnitRecordId := Nat

abbrev HelperId := Nat

abbrev HelperProcId := Nat

/-
  What a record has of its helper.  `others` records how often
  other work holds the record.
-/
structure HelperRecord where
  gen : Nat := 0
  invocation : String := ""
  stopHelper : Option HelperId := none
  stopHelperAttempt : String := ""
  operations : Int := 0
  cleanupHelper : Bool := false
  err : String := ""
  others : Nat := 0

structure RuntimeIdentity (N : Type) where
  name : N
  record : UnitRecordId
  gen : Nat

/- How far the launch of a helper has come. -/
inductive HelperLaunch where
| pending
| returned (p : Option HelperProcId)
| published (p : Option HelperProcId)
deriving DecidableEq, Repr

structure StopHelperWork where
  record : UnitRecordId
  invocation : String
  process : Option HelperProcId
  launch : HelperLaunch
  done : Bool

/- How far the cleanup of a helper has come, with its error. -/
inductive CleanupStage where
| stopping
| stopped (err : Option String)
| settled (err : Option String)
| released
| over
deriving DecidableEq, Repr

/- A cleanup by the helper's own worker, or by a retry. -/
structure HelperCleanup where
  helper : HelperId
  process : Option HelperProcId
  own : Bool
  stage : CleanupStage

/-
  The manager.  The last three fields record the run: the
  identifiers in use, the processes that are gone, and the
  helpers whose output is stored.
-/
structure HelperManager (N : Type) where
  units : N → Option UnitRecordId
  closed : Bool
  records : UnitRecordId → HelperRecord
  helpers : HelperId → StopHelperWork
  nextHelper : HelperId
  stopHelpers : List HelperId
  cleanups : List HelperCleanup
  issued : List String
  gone : List HelperProcId
  stored : List HelperId

variable {N : Type}

namespace HelperManager

def currentLocked (m : HelperManager N) (id : RuntimeIdentity N) : Bool :=
  decide (m.units id.name = some id.record ∧
    (m.records id.record).gen = id.gen)

/- What a stop gets: a helper, whether it is new, or an error. -/
abbrev Acceptance := Option HelperId × Bool × Option String

/- Register a new helper of a record. -/
def register (m : HelperManager N) (r : UnitRecordId) : HelperManager N :=
  let rt := m.records r
  { m with
    helpers :=
      Function.update m.helpers m.nextHelper
        { record := r
          invocation := rt.invocation
          process := none
          launch := .pending
          done := false }
    nextHelper := m.nextHelper + 1
    stopHelpers := m.nextHelper :: m.stopHelpers
    records :=
      Function.update m.records r
        { rt with
          stopHelper := some m.nextHelper
          stopHelperAttempt := rt.invocation
          operations := rt.operations + 1
          cleanupHelper := true } }

/- `execStop` is the command of the definition, if it has one. -/
def acceptStopHelper
    (m : HelperManager N)
    (owner : RuntimeIdentity N)
    (execStop : Option (List String))
    (eligible : Bool)
    (ctxErr : Option String) : Acceptance × HelperManager N :=
  let rt := m.records owner.record
  if m.currentLocked owner = false then
    ((none, false, some "stop helper owner superseded"), m)
  else if rt.stopHelper.isSome then ((rt.stopHelper, false, none), m)
  else if eligible = false ∨ execStop.getD [] = [] ∨
      rt.invocation = "" ∨ rt.stopHelperAttempt = rt.invocation then
    ((none, false, none), m)
  else if m.closed then
    ((none, false, some "manager is closing"), m)
  else if ctxErr.isSome then ((none, false, ctxErr), m)
  else if maxStopHelpers ≤ m.stopHelpers.length then
    ((none, false,
      some ("stop helper capacity " ++ toString maxStopHelpers ++
        " exhausted")), m)
  else
    ((some m.nextHelper, true, none), m.register owner.record)

def withHelper
    (m : HelperManager N)
    (h : HelperId)
    (f : StopHelperWork → StopHelperWork) : HelperManager N :=
  { m with helpers := Function.update m.helpers h (f (m.helpers h)) }

def withRecord
    (m : HelperManager N)
    (r : UnitRecordId)
    (f : HelperRecord → HelperRecord) : HelperManager N :=
  { m with records := Function.update m.records r (f (m.records r)) }

def withCleanup
    (m : HelperManager N)
    (i : Nat)
    (w : HelperCleanup) : HelperManager N :=
  { m with cleanups := m.cleanups.set i w }

/- The launch has returned; its result is published. -/
def publishStopHelperProcess
    (m : HelperManager N)
    (h : HelperId)
    (p : Option HelperProcId) : HelperManager N :=
  m.withHelper h
    (fun work => { work with process := p, launch := .published p })

def releaseStopHelper
    (m : HelperManager N)
    (h : HelperId)
    (p : Option HelperProcId)
    (err : Option String) : HelperManager N :=
  let r := (m.helpers h).record
  if h ∉ m.stopHelpers ∨ (m.helpers h).process ≠ p then m
  else
    match err with
    | some message =>
        m.withRecord r
          (fun rt => { rt with err := "stop helper cleanup: " ++ message })
    | none =>
        let m := m.withHelper h (fun work => { work with process := none })
        let m := { m with stopHelpers := m.stopHelpers.erase h }
        let m :=
          if (m.records r).stopHelper = some h then
            m.withRecord r
              (fun rt =>
                { rt with stopHelper := none, cleanupHelper := false })
          else
            m
        m.withRecord r
          (fun rt => { rt with operations := rt.operations - 1 })

end HelperManager

------------------------------------------------------------
-- Runs
------------------------------------------------------------

/-
  What can happen next: a stop asks for a helper, a step of a
  helper's launch or of a cleanup, or the rest of the manager.
-/
inductive HelperLabel (N : Type) where
| accept
    (owner : RuntimeIdentity N)
    (execStop : Option (List String))
    (eligible : Bool)
    (ctxErr : Option String)
| start (h : HelperId) (p : Option HelperProcId)
| publish (h : HelperId)
| retry (h : HelperId)
| stop (i : Nat) (err : Option String)
| capture (i : Nat) (err : Option String)
| release (i : Nat)
| finish (i : Nat)
| recordInvocation (r : UnitRecordId) (invocation : String)
| hold (r : UnitRecordId)
| unhold (r : UnitRecordId)
| rest (units : N → Option UnitRecordId)
    (gens : UnitRecordId → Nat)
    (closed : Bool)

namespace HelperManager

/- One step of a cleanup. -/
def cleanupStep
    (m : HelperManager N)
    (i : Nat)
    (w : HelperCleanup) :
    HelperLabel N → Option (HelperManager N)
| .stop _ err =>
    if w.stage = .stopping then
      some
        { m.withCleanup i { w with stage := .stopped err } with
          gone :=
            if err = none then w.process.toList ++ m.gone else m.gone }
    else
      none
| .capture _ err =>
    match w.stage with
    | .stopped (some failed) =>
        some (m.withCleanup i { w with stage := .settled (some failed) })
    | .stopped none =>
        some
          { m.withCleanup i { w with stage := .settled err } with
            stored := if err = none then w.helper :: m.stored else m.stored }
    | _ => none
| .release _ =>
    match w.stage with
    | .settled err =>
        some
          ((m.releaseStopHelper w.helper w.process err).withCleanup i
            { w with stage := .released })
    | _ => none
| .finish _ =>
    if w.stage = .released then
      let m := m.withCleanup i { w with stage := .over }
      some
        (if w.own then
          m.withHelper w.helper (fun work => { work with done := true })
        else
          m)
    else
      none
| _ => none

def step (m : HelperManager N) : HelperLabel N → Option (HelperManager N)
| .accept owner execStop eligible ctxErr =>
    some (m.acceptStopHelper owner execStop eligible ctxErr).2
| .start h p =>
    if h < m.nextHelper ∧ (m.helpers h).launch = .pending then
      some (m.withHelper h (fun work => { work with launch := .returned p }))
    else
      none
| .publish h =>
    match (m.helpers h).launch with
    | .returned p =>
        if h < m.nextHelper then
          let m := m.publishStopHelperProcess h p
          some
            { m with
              cleanups := m.cleanups ++ [⟨h, p, true, .stopping⟩] }
        else
          none
    | _ => none
| .retry h =>
    if h < m.nextHelper ∧ (m.helpers h).done = true then
      some
        { m with
          cleanups :=
            m.cleanups ++ [⟨h, (m.helpers h).process, false, .stopping⟩] }
    else
      none
| .stop i err => (m.cleanups[i]?).bind (m.cleanupStep i · (.stop i err))
| .capture i err =>
    (m.cleanups[i]?).bind (m.cleanupStep i · (.capture i err))
| .release i => (m.cleanups[i]?).bind (m.cleanupStep i · (.release i))
| .finish i => (m.cleanups[i]?).bind (m.cleanupStep i · (.finish i))
| .recordInvocation r invocation =>
    if invocation = "" ∨ invocation ∈ m.issued then none
    else
      some
        { m.withRecord r (fun rt => { rt with invocation := invocation })
          with issued := invocation :: m.issued }
| .hold r =>
    some
      (m.withRecord r
        (fun rt =>
          { rt with
            operations := rt.operations + 1
            others := rt.others + 1 }))
| .unhold r =>
    if (m.records r).others = 0 then none
    else
      some
        (m.withRecord r
          (fun rt =>
            { rt with
              operations := rt.operations - 1
              others := rt.others - 1 }))
| .rest units gens closed =>
    some
      { m with
        units := units
        closed := closed
        records := fun r => { m.records r with gen := gens r } }

/- No unit has been started. -/
def Initial (m : HelperManager N) : Prop :=
  (∀ r, m.records r = {}) ∧ m.nextHelper = 0 ∧ m.stopHelpers = [] ∧
    m.cleanups = [] ∧ m.issued = []

end HelperManager

def stopHelperRuns (N : Type) :
    System (HelperManager N) (HelperLabel N) where
  init := HelperManager.Initial
  step := HelperManager.step

------------------------------------------------------------
-- What Every Step Keeps
------------------------------------------------------------

namespace HelperManager

/- The process of a launch is gone and the output stored. -/
def Confirmed
    (m : HelperManager N)
    (h : HelperId)
    (p : Option HelperProcId) : Prop :=
  ∀ q, p = some q → q ∈ m.gone ∧ h ∈ m.stored

/- A cleanup without an error has done what it reports. -/
structure Fits (m : HelperManager N) (w : HelperCleanup) : Prop where
  known : w.helper < m.nextHelper
  launched : ∃ p, (m.helpers w.helper).launch = .published p
  stopped :
    w.stage = .stopped none → ∀ q, w.process = some q → q ∈ m.gone
  settled :
    w.stage = .settled none → m.Confirmed w.helper w.process

/- The bit and an operation of a record are its helper's. -/
def Counted (rt : HelperRecord) : Prop :=
  rt.cleanupHelper = rt.stopHelper.isSome ∧
    rt.operations = rt.others + rt.stopHelper.isSome.toNat

/- The set of helpers and the records' fields agree. -/
structure Registered (m : HelperManager N) : Prop where
  known :
    ∀ h ∈ m.stopHelpers,
      h < m.nextHelper ∧
        (m.records (m.helpers h).record).stopHelper = some h
  pointed :
    ∀ r h, (m.records r).stopHelper = some h →
      h ∈ m.stopHelpers ∧ (m.helpers h).record = r
  distinct : m.stopHelpers.Nodup
  counted : ∀ r, Counted (m.records r)
  bound : m.stopHelpers.length ≤ maxStopHelpers

/- An invocation that had a helper is marked in its record. -/
structure Tried (m : HelperManager N) : Prop where
  issued :
    ∀ r, (m.records r).invocation ≠ "" →
      (m.records r).invocation ∈ m.issued
  apart :
    ∀ r r', (m.records r).invocation = (m.records r').invocation →
      (m.records r).invocation ≠ "" → r = r'
  marked :
    ∀ h, h < m.nextHelper →
      (m.helpers h).invocation ∈ m.issued ∧
        ∀ r, (m.records r).invocation = (m.helpers h).invocation →
          (m.records r).stopHelperAttempt = (m.helpers h).invocation
  once :
    ∀ h k, h < m.nextHelper → k < m.nextHelper →
      (m.helpers h).invocation = (m.helpers k).invocation → h = k

/- A helper is given up when its cleanup is confirmed. -/
structure Cleaned (m : HelperManager N) : Prop where
  live :
    ∀ h ∈ m.stopHelpers, ∀ p,
      (m.helpers h).launch = .published p → (m.helpers h).process = p
  ended :
    ∀ h, h < m.nextHelper → h ∉ m.stopHelpers →
      ∃ p, (m.helpers h).launch = .published p ∧ m.Confirmed h p
  working : ∀ w ∈ m.cleanups, m.Fits w
  finished :
    ∀ h, h < m.nextHelper → (m.helpers h).done = true →
      ∃ p, (m.helpers h).launch = .published p

variable {m n : HelperManager N}
variable {r : UnitRecordId}
variable {h : HelperId}
variable {p : Option HelperProcId}
variable {w : HelperCleanup}
variable {l : HelperLabel N}

/- Changes that a record and its helper do not notice. -/
theorem Registered.congr
    (hm : m.Registered)
    (hSet :
      n.stopHelpers = m.stopHelpers ∧ n.nextHelper = m.nextHelper)
    (hRecord : ∀ h, (n.helpers h).record = (m.helpers h).record)
    (hHelper :
      ∀ r, (n.records r).stopHelper = (m.records r).stopHelper)
    (hCounted : ∀ r, Counted (m.records r) → Counted (n.records r)) :
    n.Registered where
  known := by
    intro h hMem
    rw [hSet.1] at hMem
    rw [hSet.2, hRecord, hHelper]
    exact hm.known h hMem
  pointed := by
    intro r h hPoint
    rw [hHelper] at hPoint
    rw [hSet.1, hRecord]
    exact hm.pointed r h hPoint
  distinct := hSet.1 ▸ hm.distinct
  counted := fun r => hCounted r (hm.counted r)
  bound := hSet.1 ▸ hm.bound

theorem lt_register
    (hLt : h < (m.register r).nextHelper) :
    h < m.nextHelper ∨ h = m.nextHelper :=
  Nat.lt_or_eq_of_le (Nat.lt_succ_iff.mp hLt)

theorem register_helpers
    (hLt : h < m.nextHelper) :
    (m.register r).helpers h = m.helpers h :=
  Function.update_of_ne (Nat.ne_of_lt hLt) ..

theorem register_records
    {r' : UnitRecordId}
    (hNe : r' ≠ r) :
    (m.register r).records r' = m.records r' :=
  Function.update_of_ne hNe ..

theorem Registered.register
    (hm : m.Registered)
    (hFree : (m.records r).stopHelper = none)
    (hRoom : m.stopHelpers.length < maxStopHelpers) :
    (m.register r).Registered where
  known := by
    intro h hMem
    rcases List.mem_cons.mp hMem with rfl | hOld
    · simp [HelperManager.register]
    · have hKnown := hm.known h hOld
      have hOther : (m.helpers h).record ≠ r := by
        intro hEq
        rw [hEq, hFree] at hKnown
        cases hKnown.2
      rw [register_helpers hKnown.1, register_records hOther]
      exact ⟨Nat.lt_succ_of_lt hKnown.1, hKnown.2⟩
  pointed := by
    intro r' h hPoint
    by_cases hEq : r' = r
    · subst hEq
      simp only [HelperManager.register, Function.update_self,
        Option.some.injEq] at hPoint
      subst hPoint
      simp [HelperManager.register]
    · rw [register_records hEq] at hPoint
      have hOld := hm.pointed r' h hPoint
      rw [register_helpers (hm.known h hOld.1).1]
      exact ⟨List.mem_cons_of_mem _ hOld.1, hOld.2⟩
  distinct :=
    List.nodup_cons.mpr
      ⟨fun hMem => Nat.lt_irrefl _ (hm.known _ hMem).1, hm.distinct⟩
  counted := by
    refine (Function.forall_update_iff _ (fun _ => Counted)).mpr
      ⟨⟨rfl, ?_⟩, fun r' _ => hm.counted r'⟩
    have hOld := (hm.counted r).2
    rw [hFree] at hOld
    simp only [Option.isSome_some, Option.isSome_none, Bool.toNat_true,
      Bool.toNat_false] at hOld ⊢
    omega
  bound := hRoom

/- What is left of a helper that is given up. -/
def released (m : HelperManager N) (h : HelperId) : HelperManager N :=
  let r := (m.helpers h).record
  { m with
    helpers :=
      Function.update m.helpers h { m.helpers h with process := none }
    stopHelpers := m.stopHelpers.erase h
    records :=
      Function.update m.records r
        { m.records r with
          stopHelper := none
          cleanupHelper := false
          operations := (m.records r).operations - 1 } }

/- A release without an error gives a registered helper up. -/
theorem releaseStopHelper_released
    (hm : m.Registered)
    (hMem : h ∈ m.stopHelpers) :
    m.releaseStopHelper h (m.helpers h).process none = m.released h := by
  have hPoint := (hm.known h hMem).2
  simp [releaseStopHelper, hMem, withHelper, withRecord, released, hPoint]

/- Of the helper, only the process goes. -/
theorem released_helpers
    (m : HelperManager N)
    (h k : HelperId) :
    ∃ p, (m.released h).helpers k = { m.helpers k with process := p } := by
  unfold HelperManager.released
  dsimp only
  rw [Function.update_apply]
  split
  · subst k
    exact ⟨_, rfl⟩
  · exact ⟨_, rfl⟩

theorem Registered.released
    (hm : m.Registered)
    (hMem : h ∈ m.stopHelpers) :
    (m.released h).Registered := by
  have hPoint := (hm.known h hMem).2
  have hRecord : ∀ k, ((m.released h).helpers k).record =
      (m.helpers k).record := by
    intro k
    rcases released_helpers m h k with ⟨p, hk⟩
    rw [hk]
  refine ⟨?_, ?_, hm.distinct.erase h, ?_,
    Nat.le_trans List.length_erase_le hm.bound⟩
  · intro k hk
    rcases (hm.distinct.mem_erase_iff).mp hk with ⟨hNe, hOld⟩
    have hKnown := hm.known k hOld
    have hOther : (m.helpers k).record ≠ (m.helpers h).record := by
      intro hEq
      rw [hEq, hPoint] at hKnown
      exact hNe (Option.some.inj hKnown.2).symm
    rw [hRecord]
    unfold HelperManager.released
    dsimp only
    rw [Function.update_of_ne hOther]
    exact hKnown
  · intro r k hk
    rw [hRecord]
    unfold HelperManager.released at hk
    by_cases hEq : r = (m.helpers h).record
    · subst hEq
      simp at hk
    · simp only [Function.update_of_ne hEq] at hk
      have hOld := hm.pointed r k hk
      have hNe : k ≠ h := by
        rintro rfl
        exact hEq hOld.2.symm
      exact ⟨(hm.distinct.mem_erase_iff).mpr ⟨hNe, hOld.1⟩, hOld.2⟩
  · refine (Function.forall_update_iff _ (fun _ => Counted)).mpr
      ⟨⟨rfl, ?_⟩, fun r _ => hm.counted r⟩
    have hOld := (hm.counted (m.helpers h).record).2
    rw [hPoint] at hOld
    simp only [Option.isSome_some, Option.isSome_none, Bool.toNat_true,
      Bool.toNat_false] at hOld ⊢
    omega

theorem Tried.congr
    (hm : m.Tried)
    (hSet : n.nextHelper = m.nextHelper ∧ n.issued = m.issued)
    (hHelper : ∀ h, (n.helpers h).invocation = (m.helpers h).invocation)
    (hRecord :
      ∀ r,
        (n.records r).invocation = (m.records r).invocation ∧
          (n.records r).stopHelperAttempt =
            (m.records r).stopHelperAttempt) :
    n.Tried where
  issued := by
    intro r hSome
    rw [(hRecord r).1] at hSome ⊢
    rw [hSet.2]
    exact hm.issued r hSome
  apart := by
    intro r r' hEq hSome
    rw [(hRecord r).1] at hEq hSome
    rw [(hRecord r').1] at hEq
    exact hm.apart r r' hEq hSome
  marked := by
    intro h hLt
    rw [hSet.1] at hLt
    rw [hSet.2, hHelper]
    refine ⟨(hm.marked h hLt).1, fun r hEq => ?_⟩
    rw [(hRecord r).1] at hEq
    rw [(hRecord r).2]
    exact (hm.marked h hLt).2 r hEq
  once := by
    intro h k hLt hLt' hEq
    rw [hSet.1] at hLt hLt'
    rw [hHelper, hHelper] at hEq
    exact hm.once h k hLt hLt' hEq

/- An invocation that is not marked has had no helper. -/
theorem Tried.register
    (hm : m.Tried)
    (hSome : (m.records r).invocation ≠ "")
    (hUntried :
      (m.records r).stopHelperAttempt ≠ (m.records r).invocation) :
    (m.register r).Tried := by
  have hNone : ∀ h, h < m.nextHelper →
      (m.records r).invocation ≠ (m.helpers h).invocation := by
    intro h hLt hEq
    exact hUntried (((hm.marked h hLt).2 r hEq).trans hEq.symm)
  have hInvocation : ∀ r',
      ((m.register r).records r').invocation =
        (m.records r').invocation :=
    (Function.forall_update_iff _ (fun r' (rt : HelperRecord) =>
      rt.invocation = (m.records r').invocation)).mpr
      ⟨rfl, fun _ _ => rfl⟩
  have hNew : ((m.register r).helpers m.nextHelper).invocation =
      (m.records r).invocation := by
    simp [HelperManager.register]
  refine ⟨?_, ?_, ?_, ?_⟩
  · intro r' h'
    rw [hInvocation] at h' ⊢
    exact hm.issued r' h'
  · intro r' r'' hEq h'
    rw [hInvocation] at hEq h'
    rw [hInvocation] at hEq
    exact hm.apart r' r'' hEq h'
  · intro h hLt
    rcases lt_register hLt with hOld | rfl
    · have hMarked := hm.marked h hOld
      rw [register_helpers hOld]
      refine ⟨hMarked.1, fun r' hEq => ?_⟩
      rw [hInvocation] at hEq
      have hr : r' ≠ r := by
        rintro rfl
        exact hNone h hOld hEq
      rw [register_records hr]
      exact hMarked.2 r' hEq
    · rw [hNew]
      refine ⟨hm.issued r hSome, fun r' hEq => ?_⟩
      rw [hInvocation] at hEq
      rw [hm.apart r' r hEq (hEq ▸ hSome)]
      simp [HelperManager.register]
  · intro h k hLt hLt' hEq
    rcases lt_register hLt with hOld | rfl <;>
      rcases lt_register hLt' with hOld' | rfl
    · rw [register_helpers hOld, register_helpers hOld'] at hEq
      exact hm.once h k hOld hOld' hEq
    · rw [register_helpers hOld, hNew] at hEq
      exact absurd hEq.symm (hNone h hOld)
    · rw [register_helpers hOld', hNew] at hEq
      exact absurd hEq (hNone k hOld')
    · rfl

theorem Tried.recordInvocation
    (hm : m.Tried)
    (r : UnitRecordId)
    {invocation : String}
    (hNew : invocation ∉ m.issued) :
    ({ m.withRecord r (fun rt => { rt with invocation := invocation })
        with issued := invocation :: m.issued } :
      HelperManager N).Tried := by
  have hOther : ∀ r', (m.records r').invocation ≠ "" →
      (m.records r').invocation ≠ invocation :=
    fun r' hSome hEq => hNew (hEq ▸ hm.issued r' hSome)
  unfold HelperManager.withRecord
  refine ⟨?_, ?_, ?_, hm.once⟩
  · exact (Function.forall_update_iff _ (fun _ (rt : HelperRecord) =>
      rt.invocation ≠ "" → rt.invocation ∈ invocation :: m.issued)).mpr
      ⟨fun _ => List.mem_cons_self,
        fun r' _ hSome => List.mem_cons_of_mem _ (hm.issued r' hSome)⟩
  · intro r' r'' hEq hSome
    by_cases hr : r' = r <;> by_cases hr' : r'' = r
    · rw [hr, hr']
    · subst hr
      simp only [Function.update_self, Function.update_of_ne hr']
        at hEq hSome
      exact absurd hEq.symm (hOther r'' (hEq ▸ hSome))
    · subst hr'
      simp only [Function.update_self, Function.update_of_ne hr]
        at hEq hSome
      exact absurd hEq (hOther r' hSome)
    · simp only [Function.update_of_ne hr, Function.update_of_ne hr']
        at hEq hSome
      exact hm.apart r' r'' hEq hSome
  · intro h hLt
    have hMarked := hm.marked h hLt
    exact ⟨List.mem_cons_of_mem _ hMarked.1,
      (Function.forall_update_iff _ (fun _ (rt : HelperRecord) =>
        rt.invocation = (m.helpers h).invocation →
          rt.stopHelperAttempt = (m.helpers h).invocation)).mpr
        ⟨fun (hEq : invocation = _) => absurd (hEq ▸ hMarked.1) hNew,
          fun r' _ => hMarked.2 r'⟩⟩

/- Launches and confirmations are never taken back. -/
structure Onward (m n : HelperManager N) : Prop where
  next : m.nextHelper ≤ n.nextHelper
  launch :
    ∀ h, h < m.nextHelper → ∀ p,
      (m.helpers h).launch = .published p →
        (n.helpers h).launch = .published p
  gone : ∀ q ∈ m.gone, q ∈ n.gone
  stored : ∀ h ∈ m.stored, h ∈ n.stored

theorem Confirmed.onward
    (hOn : m.Onward n)
    (hp : m.Confirmed h p) :
    n.Confirmed h p :=
  fun q hq => ⟨hOn.gone q (hp q hq).1, hOn.stored h (hp q hq).2⟩

theorem Fits.onward
    (hOn : m.Onward n)
    (hw : m.Fits w) :
    n.Fits w where
  known := Nat.lt_of_lt_of_le hw.known hOn.next
  launched :=
    hw.launched.imp (fun p hp => hOn.launch _ hw.known p hp)
  stopped := fun hStage q hq => hOn.gone q (hw.stopped hStage q hq)
  settled := fun hStage => (hw.settled hStage).onward hOn

/- A helper that was given up stays cleaned up. -/
theorem Cleaned.ended_onward
    (hm : m.Cleaned)
    (hOn : m.Onward n)
    (hLt : h < m.nextHelper)
    (hOut : h ∉ m.stopHelpers) :
    ∃ p, (n.helpers h).launch = .published p ∧ n.Confirmed h p := by
  rcases hm.ended h hLt hOut with ⟨p, hp, hConfirmed⟩
  exact ⟨p, hOn.launch h hLt p hp, hConfirmed.onward hOn⟩

/- What is left to see where no helper comes or goes. -/
theorem Cleaned.onward
    (hm : m.Cleaned)
    (hOn : m.Onward n)
    (hSet :
      n.stopHelpers = m.stopHelpers ∧ n.nextHelper = m.nextHelper)
    (hLive :
      ∀ h, h ∈ m.stopHelpers → ∀ p,
        (n.helpers h).launch = .published p → (n.helpers h).process = p)
    (hDone :
      ∀ h, h < m.nextHelper → (n.helpers h).done = true →
        ∃ p, (n.helpers h).launch = .published p)
    (hWork : ∀ w ∈ n.cleanups, w ∈ m.cleanups ∨ n.Fits w) :
    n.Cleaned where
  live := hSet.1 ▸ hLive
  ended := by
    intro h hLt hOut
    rw [hSet.2] at hLt
    rw [hSet.1] at hOut
    exact hm.ended_onward hOn hLt hOut
  working := by
    intro w hw
    rcases hWork w hw with hOld | hNew
    · exact (hm.working w hOld).onward hOn
    · exact hNew
  finished := hSet.2 ▸ hDone

theorem Cleaned.register
    (hm : m.Cleaned)
    (hReg : m.Registered)
    (r : UnitRecordId) :
    (m.register r).Cleaned := by
  have hNew :
      ((m.register r).helpers m.nextHelper).launch = .pending ∧
        ((m.register r).helpers m.nextHelper).done = false := by
    simp [HelperManager.register]
  have hOn : m.Onward (m.register r) :=
    ⟨Nat.le_succ _, fun h hLt p hp => by rw [register_helpers hLt, hp],
      fun _ hq => hq, fun _ hh => hh⟩
  refine ⟨?_, ?_, fun w hw => (hm.working w hw).onward hOn, ?_⟩
  · intro h hMem p hp
    rcases List.mem_cons.mp hMem with rfl | hMem
    · rw [hNew.1] at hp
      cases hp
    · rw [register_helpers (hReg.known h hMem).1] at hp ⊢
      exact hm.live h hMem p hp
  · intro h hLt hOut
    rw [HelperManager.register, List.mem_cons, not_or] at hOut
    exact hm.ended_onward hOn
      ((lt_register hLt).resolve_right hOut.1) hOut.2
  · intro h hLt hDone
    rcases lt_register hLt with hOld | rfl
    · rw [register_helpers hOld] at hDone ⊢
      exact hm.finished h hOld hDone
    · rw [hNew.2] at hDone
      cases hDone

theorem Cleaned.released
    (hm : m.Cleaned)
    (hReg : m.Registered)
    (hLaunch : (m.helpers h).launch = .published p)
    (hConfirmed : m.Confirmed h p) :
    (m.released h).Cleaned := by
  have hSame : ∀ k,
      ((m.released h).helpers k).launch = (m.helpers k).launch ∧
        ((m.released h).helpers k).done = (m.helpers k).done := by
    intro k
    rcases released_helpers m h k with ⟨q, hk⟩
    rw [hk]
    exact ⟨rfl, rfl⟩
  have hOn : m.Onward (m.released h) :=
    ⟨Nat.le_refl _, fun k _ q hq => (hSame k).1.trans hq,
      fun _ hq => hq, fun _ hh => hh⟩
  refine ⟨?_, ?_, fun w hw => (hm.working w hw).onward hOn, ?_⟩
  · intro k hk q hq
    rcases (hReg.distinct.mem_erase_iff).mp hk with ⟨hNe, hOld⟩
    rw [(hSame k).1] at hq
    rw [← hm.live k hOld q hq]
    exact congrArg StopHelperWork.process (Function.update_of_ne hNe ..)
  · intro k hLt hOut
    by_cases hEq : k = h
    · subst hEq
      exact ⟨p, (hSame k).1.trans hLaunch, hConfirmed.onward hOn⟩
    · exact hm.ended_onward hOn hLt (fun hMem =>
        hOut ((hReg.distinct.mem_erase_iff).mpr ⟨hEq, hMem⟩))
  · intro k hLt hDone
    rw [(hSame k).2] at hDone
    rw [(hSame k).1]
    exact hm.finished k hLt hDone

------------------------------------------------------------
-- Whole Runs
------------------------------------------------------------

structure Sound (m : HelperManager N) : Prop where
  registered : m.Registered
  tried : m.Tried
  cleaned : m.Cleaned

/- A record changes in what no helper is told by. -/
structure Aside (rt rt' : HelperRecord) : Prop where
  helper : rt'.stopHelper = rt.stopHelper
  counted : Counted rt → Counted rt'
  tried :
    rt'.invocation = rt.invocation ∧
      rt'.stopHelperAttempt = rt.stopHelperAttempt

section

variable (hm : m.Sound)

include hm

theorem Sound.records
    (hRest :
      n = { m with
        units := n.units, closed := n.closed, records := n.records })
    (hRecord : ∀ r, Aside (m.records r) (n.records r)) :
    n.Sound := by
  rw [hRest]
  exact ⟨hm.registered.congr ⟨rfl, rfl⟩ (fun _ => rfl)
      (fun r => (hRecord r).helper) (fun r => (hRecord r).counted),
    hm.tried.congr ⟨rfl, rfl⟩ (fun _ => rfl) (fun r => (hRecord r).tried),
    { hm.cleaned with
      working := fun w hw => { hm.cleaned.working w hw with } }⟩

theorem Sound.withRecord
    (r : UnitRecordId)
    {f : HelperRecord → HelperRecord}
    (hf : Aside (m.records r) (f (m.records r))) :
    (m.withRecord r f).Sound :=
  hm.records rfl
    ((Function.forall_update_iff _ (fun r => Aside (m.records r))).mpr
      ⟨hf, fun _ _ => ⟨rfl, id, rfl, rfl⟩⟩)

theorem Sound.accept
    (owner : RuntimeIdentity N)
    (execStop : Option (List String))
    (eligible : Bool)
    (ctxErr : Option String) :
    (m.acceptStopHelper owner execStop eligible ctxErr).2.Sound := by
  unfold HelperManager.acceptStopHelper
  dsimp only
  split
  · exact hm
  split
  · exact hm
  split
  · exact hm
  split
  · exact hm
  split
  · exact hm
  split
  · exact hm
  · rename_i _ hFree hUntried _ _ hRoom
    simp only [not_or] at hUntried
    have hNone : (m.records owner.record).stopHelper = none := by
      simpa using hFree
    exact ⟨hm.registered.register hNone (Nat.lt_of_not_le hRoom),
      hm.tried.register hUntried.2.2.1 hUntried.2.2.2,
      hm.cleaned.register hm.registered _⟩

/- One helper changes. -/
theorem Sound.withHelper
    {f : StopHelperWork → StopHelperWork}
    (hf :
      (f (m.helpers h)).record = (m.helpers h).record ∧
        (f (m.helpers h)).invocation = (m.helpers h).invocation)
    (hLaunch :
      h < m.nextHelper → ∀ p, (m.helpers h).launch = .published p →
        (f (m.helpers h)).launch = .published p)
    (hLive :
      h ∈ m.stopHelpers → ∀ p, (f (m.helpers h)).launch = .published p →
        (f (m.helpers h)).process = p)
    (hDone :
      h < m.nextHelper → (f (m.helpers h)).done = true →
        ∃ p, (f (m.helpers h)).launch = .published p) :
    (m.withHelper h f).Sound := by
  -- what holds of this helper and held of the others holds of all
  have hAll : ∀ P : HelperId → StopHelperWork → Prop,
      P h (f (m.helpers h)) → (∀ k, P k (m.helpers k)) →
        ∀ k, P k ((m.withHelper h f).helpers k) :=
    fun P hSelf hOthers =>
      (Function.forall_update_iff _ P).mpr ⟨hSelf, fun k _ => hOthers k⟩
  have hOn : m.Onward (m.withHelper h f) :=
    ⟨Nat.le_refl _,
      hAll (fun k work => k < m.nextHelper → ∀ p,
        (m.helpers k).launch = .published p → work.launch = .published p)
        hLaunch (fun _ _ _ hp => hp),
      fun _ hq => hq, fun _ hh => hh⟩
  refine ⟨?_, ?_, ?_⟩
  · exact hm.registered.congr ⟨rfl, rfl⟩
      (hAll (fun k work => work.record = (m.helpers k).record)
        hf.1 (fun _ => rfl))
      (fun _ => rfl) (fun _ hr => hr)
  · exact hm.tried.congr ⟨rfl, rfl⟩
      (hAll (fun k work => work.invocation = (m.helpers k).invocation)
        hf.2 (fun _ => rfl))
      (fun _ => ⟨rfl, rfl⟩)
  · exact hm.cleaned.onward hOn ⟨rfl, rfl⟩
      (hAll (fun k work => k ∈ m.stopHelpers → ∀ p,
        work.launch = .published p → work.process = p)
        hLive hm.cleaned.live)
      (hAll (fun k work => k < m.nextHelper → work.done = true →
        ∃ p, work.launch = .published p)
        hDone hm.cleaned.finished)
      (fun _ hw => Or.inl hw)

variable {gone : List HelperProcId}
variable {stored : List HelperId}

/- A cleanup is added or goes on, and reports what it has done. -/
theorem Sound.cleanups
    {cleanups : List HelperCleanup}
    (hGone : ∀ q ∈ m.gone, q ∈ gone)
    (hStored : ∀ h ∈ m.stored, h ∈ stored)
    (hWork : ∀ v ∈ cleanups, v ∈ m.cleanups ∨ v = w)
    (hw :
      ({ m with gone := gone, stored := stored } :
        HelperManager N).Fits w) :
    ({ m with
        cleanups := cleanups
        gone := gone
        stored := stored } : HelperManager N).Sound := by
  refine ⟨{ hm.registered with }, { hm.tried with }, ?_⟩
  refine hm.cleaned.onward
    ⟨Nat.le_refl _, fun _ _ _ hp => hp, hGone, hStored⟩ ⟨rfl, rfl⟩
    hm.cleaned.live hm.cleaned.finished ?_
  intro v hv
  refine (hWork v hv).imp id ?_
  rintro rfl
  exact { hw with }

theorem Sound.append
    (hw : m.Fits w) :
    ({ m with cleanups := m.cleanups ++ [w] } :
      HelperManager N).Sound := by
  refine hm.cleanups (fun _ hq => hq) (fun _ hh => hh) ?_ hw
  intro v hv
  exact (List.mem_append.mp hv).imp id List.mem_singleton.mp

theorem Sound.set
    (i : Nat)
    (hGone : ∀ q ∈ m.gone, q ∈ gone)
    (hStored : ∀ h ∈ m.stored, h ∈ stored)
    (hw :
      ({ m with gone := gone, stored := stored } :
        HelperManager N).Fits w) :
    ({ m.withCleanup i w with gone := gone, stored := stored } :
      HelperManager N).Sound :=
  hm.cleanups hGone hStored (fun _ => List.mem_or_eq_of_mem_set) hw

theorem Sound.release
    (hw : m.Fits w)
    {err : Option String}
    (hStage : w.stage = .settled err) :
    (m.releaseStopHelper w.helper w.process err).Sound ∧
      (m.releaseStopHelper w.helper w.process err).Fits
        { w with stage := .released } := by
  by_cases hOwned :
      w.helper ∉ m.stopHelpers ∨ (m.helpers w.helper).process ≠ w.process
  · rw [releaseStopHelper.eq_def, if_pos hOwned]
    exact ⟨hm, hw.known, hw.launched, nofun, nofun⟩
  cases err with
  | some message =>
    rw [releaseStopHelper.eq_def, if_neg hOwned]
    exact ⟨hm.withRecord _ ⟨rfl, id, rfl, rfl⟩, hw.known, hw.launched,
      nofun, nofun⟩
  | none =>
    simp only [not_or, not_not] at hOwned
    rcases hOwned with ⟨hMem, hProcess⟩
    rcases hw.launched with ⟨p, hp⟩
    have hLive := hm.cleaned.live w.helper hMem p hp
    have hConfirmed : m.Confirmed w.helper p := by
      rw [← hLive, hProcess]
      exact hw.settled hStage
    have hCleaned :=
      hm.cleaned.released hm.registered hp hConfirmed
    rw [← hProcess, releaseStopHelper_released hm.registered hMem]
    refine ⟨⟨hm.registered.released hMem, ?_, hCleaned⟩, hw.known, ?_,
      nofun, nofun⟩
    · refine hm.tried.congr ⟨rfl, rfl⟩ ?_ ?_
      · intro k
        rcases released_helpers m w.helper k with ⟨q, hk⟩
        rw [hk]
      · exact (Function.forall_update_iff _ (fun r (rt : HelperRecord) =>
          rt.invocation = (m.records r).invocation ∧
            rt.stopHelperAttempt = (m.records r).stopHelperAttempt)).mpr
          ⟨⟨rfl, rfl⟩, fun _ _ => ⟨rfl, rfl⟩⟩
    · exact ⟨p, by simp [HelperManager.released, hp]⟩

theorem Sound.cleanupStep
    {i : Nat}
    (hi : m.cleanups[i]? = some w)
    (hStep : m.cleanupStep i w l = some n) :
    n.Sound := by
  have hw := hm.cleaned.working w (List.mem_of_getElem? hi)
  unfold HelperManager.cleanupStep at hStep
  split at hStep
  · -- the process is stopped
    rename_i err
    split at hStep
    · cases hStep
      refine hm.set i ?_ (fun _ hh => hh)
        ⟨hw.known, hw.launched, ?_, nofun⟩
      · intro q hq
        split
        · exact List.mem_append_right _ hq
        · exact hq
      · intro hStage q hq
        cases hStage
        dsimp only at hq ⊢
        rw [hq]
        simp
    · cases hStep
  · -- its output is stored
    rename_i err
    split at hStep
    · cases hStep
      exact hm.set i (fun _ hq => hq) (fun _ hh => hh)
        ⟨hw.known, hw.launched, nofun, nofun⟩
    · rename_i hStopped
      cases hStep
      refine hm.set i (fun _ hq => hq) ?_
        ⟨hw.known, hw.launched, nofun, ?_⟩
      · intro h hh
        split
        · exact List.mem_cons_of_mem _ hh
        · exact hh
      · intro hStage q hq
        cases hStage
        exact ⟨hw.stopped hStopped q hq, List.mem_cons_self⟩
    · cases hStep
  · -- the helper is given up, or its error noted
    split at hStep
    · rename_i err hStage
      cases hStep
      have hReleased := hm.release hw hStage
      exact hReleased.1.set i (fun _ hq => hq) (fun _ hh => hh)
        hReleased.2
    · cases hStep
  · split at hStep
    · have hSet : (m.withCleanup i { w with stage := .over }).Sound :=
        hm.set i (fun _ hq => hq) (fun _ hh => hh)
          ⟨hw.known, hw.launched, nofun, nofun⟩
      cases hStep
      split
      · exact hSet.withHelper ⟨rfl, rfl⟩ (fun _ _ hp => hp)
          (hm.cleaned.live w.helper) (fun _ _ => hw.launched)
      · exact hSet
    · cases hStep
  · cases hStep

theorem Sound.step
    (hStep : m.step l = some n) :
    n.Sound := by
  cases l with
  | accept owner execStop eligible ctxErr =>
      cases hStep
      exact hm.accept owner execStop eligible ctxErr
  | start h p =>
      simp only [HelperManager.step] at hStep
      split at hStep
      · rename_i hPending
        cases hStep
        refine hm.withHelper ⟨rfl, rfl⟩ ?_ nofun ?_
        · intro _ q hq
          rw [hPending.2] at hq
          cases hq
        · intro hLt hDone
          rcases hm.cleaned.finished h hLt hDone with ⟨q, hq⟩
          rw [hPending.2] at hq
          cases hq
      · cases hStep
  | publish h =>
      simp only [HelperManager.step] at hStep
      split at hStep
      · rename_i p hReturned
        split at hStep
        · rename_i hLt
          cases hStep
          have hPublished : (m.publishStopHelperProcess h p).Sound := by
            refine hm.withHelper ⟨rfl, rfl⟩ ?_ ?_ (fun _ _ => ⟨p, rfl⟩)
            · intro _ q hq
              rw [hReturned] at hq
              cases hq
            · intro _ q hq
              cases hq
              rfl
          refine hPublished.append ⟨hLt, ⟨p, ?_⟩, nofun, nofun⟩
          simp [publishStopHelperProcess, HelperManager.withHelper]
        · cases hStep
      · cases hStep
  | retry h =>
      simp only [HelperManager.step] at hStep
      split at hStep
      · rename_i hDone
        cases hStep
        exact hm.append ⟨hDone.1, hm.cleaned.finished h hDone.1 hDone.2,
          nofun, nofun⟩
      · cases hStep
  | stop i err | capture i err =>
      rcases Option.bind_eq_some_iff.mp hStep with ⟨w, hi, hNext⟩
      exact hm.cleanupStep hi hNext
  | release i | finish i =>
      rcases Option.bind_eq_some_iff.mp hStep with ⟨w, hi, hNext⟩
      exact hm.cleanupStep hi hNext
  | recordInvocation r invocation =>
      simp only [HelperManager.step] at hStep
      split at hStep
      · cases hStep
      · rename_i hNew
        simp only [not_or] at hNew
        cases hStep
        refine ⟨?_, hm.tried.recordInvocation r hNew.2, ?_⟩
        · exact hm.registered.congr ⟨rfl, rfl⟩ (fun _ => rfl)
            ((Function.forall_update_iff _ (fun r (rt : HelperRecord) =>
              rt.stopHelper = (m.records r).stopHelper)).mpr
              ⟨rfl, fun _ _ => rfl⟩)
            ((Function.forall_update_iff _ (fun r (rt : HelperRecord) =>
              Counted (m.records r) → Counted rt)).mpr
              ⟨id, fun _ _ => id⟩)
        · exact { hm.cleaned with
            working := fun w hw => { hm.cleaned.working w hw with } }
  | hold r =>
      cases hStep
      refine hm.withRecord r ⟨rfl, fun hr => ⟨hr.1, ?_⟩, rfl, rfl⟩
      have hOld := hr.2
      dsimp only
      omega
  | unhold r =>
      simp only [HelperManager.step] at hStep
      split at hStep
      · cases hStep
      · cases hStep
        refine hm.withRecord r ⟨rfl, fun hr => ⟨hr.1, ?_⟩, rfl, rfl⟩
        have hOld := hr.2
        dsimp only
        omega
  | rest units gens closed =>
      cases hStep
      exact hm.records rfl (fun _ => ⟨rfl, id, rfl, rfl⟩)

end

theorem sound_of_reachable
    (h : (stopHelperRuns N).Reachable m) :
    m.Sound := by
  apply System.reachable_invariant (I := Sound) ?_ ?_ h
  · rintro n ⟨hRecords, hNext, hSet, hCleanups, hIssued⟩
    refine ⟨⟨?_, ?_, ?_, ?_, ?_⟩, ⟨?_, ?_, ?_, ?_⟩,
      ⟨?_, ?_, ?_, ?_⟩⟩ <;>
      simp [Counted, hRecords, hNext, hSet, hCleanups]
  · intro n l n' _ hm hStep
    exact hm.step hStep

/-
  Each invocation has at most one helper, and at most 32 are
  registered.  The record of a registered helper keeps its bit
  and its operation; a helper is given up only when its process
  is gone and its output stored, and until then a stop joins it.
-/
theorem helper_once
    (h : (stopHelperRuns N).Reachable m) :
    (∀ j k, j < m.nextHelper → k < m.nextHelper →
        (m.helpers j).invocation = (m.helpers k).invocation → j = k) ∧
      (m.stopHelpers.Nodup ∧ m.stopHelpers.length ≤ maxStopHelpers) ∧
      (∀ j ∈ m.stopHelpers,
        let rt := m.records (m.helpers j).record
        rt.stopHelper = some j ∧ rt.cleanupHelper = true ∧
          rt.operations = rt.others + 1) ∧
      (∀ j, j < m.nextHelper → j ∉ m.stopHelpers →
        ∃ p, (m.helpers j).launch = .published p ∧
          ∀ q, p = some q → q ∈ m.gone ∧ j ∈ m.stored) ∧
      ∀ j ∈ m.stopHelpers, ∀ owner execStop eligible ctxErr,
        owner.record = (m.helpers j).record →
        m.currentLocked owner = true →
          m.acceptStopHelper owner execStop eligible ctxErr =
            ((some j, false, none), m) := by
  have hm := sound_of_reachable h
  have hPoint : ∀ j ∈ m.stopHelpers,
      (m.records (m.helpers j).record).stopHelper = some j :=
    fun j hj => (hm.registered.known j hj).2
  refine ⟨hm.tried.once, ⟨hm.registered.distinct, hm.registered.bound⟩,
    ?_, hm.cleaned.ended, ?_⟩
  · intro j hj
    have hCounted := hm.registered.counted (m.helpers j).record
    rw [Counted, hPoint j hj] at hCounted
    exact ⟨hPoint j hj, hCounted⟩
  · intro j hj owner execStop eligible ctxErr hOwner hCurrent
    unfold acceptStopHelper
    dsimp only
    rw [if_neg (by simp [hCurrent]), hOwner, hPoint j hj,
      Option.isSome_some, if_pos rfl]

/- A helper whose first cleanup fails is joined and cleaned up. -/
def stubbornHelper : List (HelperLabel Unit) :=
  [.recordInvocation 0 "a1", .rest (fun _ => some 0) (fun _ => 1) false,
    .accept ⟨(), 0, 1⟩ (some ["stop.exe"]) true none,
    .start 0 (some 7), .publish 0, .stop 0 (some "timeout"),
    .capture 0 none, .release 0, .finish 0]

def noHelpers : HelperManager Unit where
  units := fun _ => none
  closed := false
  records := fun _ => {}
  helpers := fun _ => ⟨0, "", none, .pending, false⟩
  nextHelper := 0
  stopHelpers := []
  cleanups := []
  issued := []
  gone := []
  stored := []

theorem helper_once_stubborn :
    ∃ m : HelperManager Unit,
      (stopHelperRuns Unit).run noHelpers stubbornHelper = some m ∧
        m.stopHelpers = [0] ∧
        m.acceptStopHelper ⟨(), 0, 1⟩ (some ["stop.exe"]) true none =
          ((some 0, false, none), m) := by
  refine ⟨_, rfl, rfl, ?_⟩
  exact (helper_once
    (System.reachable_of_run (s := noHelpers) stubbornHelper
      ⟨fun _ => rfl, rfl, rfl, rfl, rfl⟩ rfl)).2.2.2.2
    0 List.mem_cons_self ⟨(), 0, 1⟩ _ true none rfl rfl

end HelperManager

end Manager

end Winunitd
