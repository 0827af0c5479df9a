import Winunitd.UserHost.Workers

/-
  What the programs of the user host may do.

  `Harmless` actions read, wait, call outside, or decide about
  native work and linger records.  The programs of the first
  part take no others, so that a protocol for launches or for
  the ownership of processes treats them all by one rule.  The
  programs of the second part launch at most one user, for one
  reason, and record no session event.

  Key definitions include:
    * `HostWorkers.Harmless`
    * `HostWorkers.Quiet`, `HostWorkers.Serves`
    * `HostWorkers.Allows`

  Key theorems include:
    * `HostWorkers.stopsWait_harmless`
    * `HostWorkers.cleanupNativeUserWork_harmless`
    * `HostWorkers.dispatchReconcileRequests_harmless`
    * `HostWorkers.shutdownPass_harmless`
    * `HostWorkers.stopUser_serves`
    * `HostWorkers.ensureRunning_serves`
-/

------------------------------------------------------------
-- Harmless Actions
------------------------------------------------------------

namespace Winunitd

open Lib

namespace HostWorkers

variable {S : Type}

def Harmless : HostAction S → Prop
| .unlock _ => False
| .beginReconcile => False
| .acceptUserSessions _ _ _ => False
| .acceptAdmissionPolicy _ => False
| .beginLinger _ _ => False
| .acceptUserLaunch _ _ _ _ _ => False
| .applyUserLaunch _ _ _ _ _ _ => False
| .recordLingerTokenFailure _ _ _ _ => False
| .applyUserCleanup _ _ _ _ => False
| .closeAttempt _ _ => False
| .probeUserUnits _ => False
| .start _ _ _ => False
| _ => True

------------------------------------------------------------
-- Waits And Native Work
------------------------------------------------------------

theorem stopsWait_harmless (key : UserStopKey) :
    (stopsWait (S := S) key).Forall Harmless := by
  refine ⟨trivial, fun r => ?_⟩
  cases r with
  | error err => trivial
  | ok a => exact ⟨trivial, fun _ => trivial⟩

theorem finishNativeUserWork_harmless
    (work : WorkId)
    (token : Option (UserToken S)) :
    (finishNativeUserWork work token).Forall Harmless := by
  cases token with
  | none => exact ⟨trivial, fun _ => trivial⟩
  | some token =>
      exact ⟨trivial, fun _ => ⟨trivial, fun _ => trivial⟩⟩

/- One turn of the loop, once it is known whether to wait. -/
theorem cleanupTurn_harmless
    {drain : Bool}
    {works : List WorkId}
    (hRest : (cleanupNativeUserWork (S := S) drain works).Forall Harmless)
    (work : WorkId)
    (ready : Bool) :
    (if ready then do
        match ← call (.awaitWork work) with
        | some err => pure (some err)
        | none =>
            let err ← stopsWait (.userWork work)
            let rest ← cleanupNativeUserWork drain works
            pure (joinErrors err rest)
      else
        cleanupNativeUserWork (S := S) drain works).Forall Harmless := by
  cases ready with
  | false => exact hRest
  | true =>
      refine ⟨trivial, fun r => ?_⟩
      cases r with
      | some err => trivial
      | none =>
          refine Prog.forall_bind
            (p := stopsWait (.userWork work))
            (stopsWait_harmless _) (fun err => ?_)
          exact Prog.forall_bind hRest (fun _ => trivial)

theorem cleanupNativeUserWork_harmless
    (drain : Bool)
    (works : List WorkId) :
    (cleanupNativeUserWork (S := S) drain works).Forall Harmless := by
  induction works with
  | nil => trivial
  | cons work works ih =>
      cases drain with
      | true => exact cleanupTurn_harmless ih work true
      | false => exact ⟨trivial, cleanupTurn_harmless ih work⟩

------------------------------------------------------------
-- Lingering
------------------------------------------------------------

theorem observeRunning_harmless (sid : S) :
    (observeRunning sid).Forall Harmless := by
  refine ⟨trivial, fun r => ?_⟩
  cases r with
  | none => trivial
  | some owner =>
      refine ⟨trivial, fun sampled => ⟨trivial, fun alive => ?_⟩⟩
      cases alive with
      | true => exact ⟨trivial, fun _ => trivial⟩
      | false => trivial

theorem isAlive_harmless (sid : S) :
    (isAlive sid).Forall Harmless := by
  refine ⟨trivial, fun r => ?_⟩
  cases r with
  | none => trivial
  | some owner => exact ⟨trivial, fun _ => trivial⟩

theorem queueIdle_harmless (sids : List S) :
    (queueIdle sids).Forall Harmless := by
  induction sids with
  | nil => trivial
  | cons sid sids ih => exact ⟨trivial, fun _ => ih⟩

section Records

variable [SIDs S]

theorem refreshLingerRecords_harmless :
    (refreshLingerRecords (S := S)).Forall Harmless := by
  refine ⟨trivial, fun _ => ⟨trivial, fun found => ?_⟩⟩
  refine ⟨trivial, fun removed => ⟨trivial, fun _ => ?_⟩⟩
  exact Prog.forall_bind (p := queueIdle removed)
    (queueIdle_harmless removed) (fun _ => trivial)

end Records

/- The account is resolved and the change is published. -/
theorem mutateLingerRecord_harmless
    (work : WorkId)
    (enable : Bool) :
    (mutateLingerRecord (S := S) work enable).Forall Harmless := by
  have hEnd :
      ∀ result : Except String (LingerRecord S),
        (do
          call .lingerIOUnlock
          let _ ← finishNativeUserWork work none
          pure result :
          HostCode S (Except String (LingerRecord S))).Forall
          Harmless := by
    intro result
    exact ⟨trivial, fun _ => ⟨trivial, fun _ => trivial⟩⟩
  refine ⟨trivial, fun _ => ⟨trivial, fun r => ?_⟩⟩
  cases r with
  | error err => exact hEnd _
  | ok record =>
      refine ⟨trivial, fun err => ?_⟩
      cases err with
      | some err => exact hEnd _
      | none => exact ⟨trivial, fun _ => hEnd _⟩

------------------------------------------------------------
-- Queries Of A Reconciliation
------------------------------------------------------------

theorem dropRequests_harmless (requests : List (Nat × Nat)) :
    (dropRequests (S := S) requests).Forall Harmless := by
  induction requests with
  | nil => trivial
  | cons request requests ih => exact ⟨trivial, fun _ => ih⟩

theorem joinQueries_harmless
    (requests : List (Nat × Nat))
    (active : Nat)
    {next : Nat → HostCode S Unit}
    (hNext : ∀ n, (next n).Forall Harmless) :
    (joinQueries requests active next).Forall Harmless := by
  cases active with
  | zero => exact dropRequests_harmless requests
  | succ active => exact ⟨trivial, fun _ => hNext active⟩

theorem dispatchLoop_harmless
    (fuel : Nat)
    (requests : List (Nat × Nat))
    (active : Nat) :
    (dispatchLoop (S := S) fuel requests active).Forall Harmless := by
  induction fuel generalizing requests active with
  | zero => trivial
  | succ fuel ih =>
      cases requests with
      | nil =>
          cases active with
          | zero => trivial
          | succ active =>
              exact joinQueries_harmless [] (active + 1) (ih [])
      | cons request requests =>
          have hWait :=
            joinQueries_harmless (request :: requests) active
              (ih (request :: requests))
          unfold dispatchLoop
          dsimp only
          split
          · refine ⟨trivial, fun r => ?_⟩
            cases r with
            | error err => exact hWait
            | ok work =>
                exact ⟨trivial, fun _ => ih requests (active + 1)⟩
          · exact hWait

theorem dispatchReconcileRequests_harmless
    (requests : List (Nat × Nat)) :
    (dispatchReconcileRequests (S := S) requests).Forall Harmless :=
  ⟨trivial, fun _ => dispatchLoop_harmless _ _ _⟩

------------------------------------------------------------
-- Shutdown
------------------------------------------------------------

theorem shutdownPass_harmless (pass : AttemptId) :
    (shutdownPass (S := S) pass).Forall Harmless := by
  refine ⟨trivial, fun _ => ⟨trivial, fun works => ?_⟩⟩
  refine Prog.forall_bind (p := cleanupNativeUserWork true works)
    (cleanupNativeUserWork_harmless true works) (fun _ => ?_)
  exact ⟨trivial, fun _ => trivial⟩

theorem attemptStop_harmless
    (a : AttemptId)
    (key : UserStopKey) :
    (attemptStop (S := S) a key).Forall Harmless := by
  cases key with
  | user proc =>
      refine ⟨trivial, fun err => ?_⟩
      cases err with
      | some err => trivial
      | none =>
          refine ⟨trivial, fun alive => ?_⟩
          cases alive <;> trivial
  | userWork work =>
      refine ⟨trivial, fun token => ?_⟩
      cases token with
      | none => trivial
      | some token =>
          refine ⟨trivial, fun err => ?_⟩
          cases err with
          | some err => trivial
          | none => exact ⟨trivial, fun _ => trivial⟩
  | userShutdown => exact shutdownPass_harmless a

theorem shutdown_harmless :
    (shutdown (S := S)).Forall Harmless := by
  have hEnd :
      ∀ (err : Option String) (retry : Bool),
        (if retry then pure (some .shutdown)
          else do
            call (.shutdownReturned err)
            pure none :
          HostCode S (Option (HostTask S))).Forall Harmless := by
    intro err retry
    cases retry with
    | true => trivial
    | false => exact ⟨trivial, fun _ => trivial⟩
  refine Prog.forall_bind (p := stopsWait .userShutdown)
    (stopsWait_harmless _) (fun err => ?_)
  cases err with
  | none => exact hEnd none false
  | some err => exact ⟨trivial, hEnd (some err)⟩

------------------------------------------------------------
-- Programs With At Most One Launch
------------------------------------------------------------

/- Actions that record nothing. -/
def Quiet : HostAction S → Prop
| .acceptUserSessions _ _ _ => False
| .acceptAdmissionPolicy _ => False
| .beginLinger _ _ => False
| .beginReconcile => False
| .probeUserUnits _ => False
| _ => True

/- Quiet actions, and launches of the given kind. -/
def Serves (launch : Option (S × Wanted S)) : HostAction S → Prop
| .acceptUserLaunch sid _ _ wanted _ => launch = some (sid, wanted)
| a => Quiet a

section Programs

variable {launch : Option (S × Wanted S)}

theorem serves_of_harmless
    {α : Type}
    {p : HostCode S α}
    (h : p.Forall Harmless) :
    p.Forall (Serves launch) := by
  induction p with
  | pure x => trivial
  | act a k ih =>
      refine ⟨?_, fun r => ih r (h.2 r)⟩
      have hHarmless := h.1
      cases a <;> first | exact hHarmless.elim | trivial

theorem cleanupUserInstance_serves
    (sid : S)
    (i : InstanceId)
    (retainRecovery : Bool) :
    (cleanupUserInstance sid i retainRecovery).Forall
      (Serves launch) := by
  refine ⟨trivial, fun r => ?_⟩
  cases r with
  | none => exact ⟨trivial, fun _ => trivial⟩
  | some _ =>
      refine ⟨trivial, fun r => ?_⟩
      cases r with
      | none => trivial
      | some proc =>
          refine Prog.forall_bind (p := stopsWait (.user proc))
            (serves_of_harmless (stopsWait_harmless _)) (fun err => ?_)
          exact ⟨trivial, fun _ => trivial⟩

theorem killUserInstance_serves
    (sid : S)
    (i : Option InstanceId) :
    (killUserInstance sid i).Forall (Serves launch) := by
  cases i with
  | none => trivial
  | some i => exact cleanupUserInstance_serves sid i false

theorem stopUserLocked_serves
    (sid : S)
    (onlyIdle : Bool) :
    (stopUserLocked sid onlyIdle).Forall (Serves launch) :=
  ⟨trivial, fun i => killUserInstance_serves sid i⟩

theorem stopUser_serves
    (sid : S)
    (onlyIdle : Bool) :
    (stopUser sid onlyIdle).Forall (Serves launch) := by
  refine ⟨trivial, fun err => ?_⟩
  cases err with
  | some err => trivial
  | none =>
      refine Prog.forall_bind (p := stopUserLocked sid onlyIdle)
        (stopUserLocked_serves sid onlyIdle) (fun err => ?_)
      exact ⟨trivial, fun _ => trivial⟩

theorem stopIdle_serves (sids : List S) :
    (stopIdle sids).Forall (Serves launch) := by
  induction sids with
  | nil => trivial
  | cons sid sids ih =>
      exact Prog.forall_bind (stopUser_serves sid true) (fun _ => ih)

theorem idleCleanup_serves (sid : S) :
    (idleCleanup sid).Forall (Serves launch) := by
  refine ⟨trivial, fun locked => ?_⟩
  cases locked with
  | false => trivial
  | true =>
      refine ⟨trivial, fun gone => ?_⟩
      cases gone with
      | true => exact ⟨trivial, fun _ => trivial⟩
      | false =>
          refine Prog.forall_bind (p := stopUserLocked sid true)
            (stopUserLocked_serves sid true) (fun err => ?_)
          exact ⟨trivial, fun _ => ⟨trivial, fun _ => trivial⟩⟩

theorem revoke_serves (sids : List S) :
    (revoke sids).Forall (Serves launch) := by
  induction sids with
  | nil => trivial
  | cons sid sids ih =>
      refine ⟨trivial, fun err => ?_⟩
      cases err with
      | some err => exact ih
      | none =>
          refine ⟨trivial, fun r => ?_⟩
          rcases r with ⟨i, denied⟩
          cases denied with
          | false => exact ⟨trivial, fun _ => ih⟩
          | true =>
              refine Prog.forall_bind (p := killUserInstance sid i)
                (killUserInstance_serves sid i) (fun _ => ?_)
              exact ⟨trivial, fun _ => ih⟩

section

variable (sid : S)
variable (token : Option (UserToken S))
variable (wanted : Wanted S)

theorem clearExited_serves
    (i : Option InstanceId) :
    (clearExited sid i).Forall (Serves launch) := by
  cases i with
  | none => trivial
  | some i =>
      refine ⟨trivial, fun r => ?_⟩
      cases r with
      | none => trivial
      | some proc =>
          refine ⟨trivial, fun sampled => ⟨trivial, fun alive => ?_⟩⟩
          cases alive with
          | true => exact ⟨trivial, fun _ => trivial⟩
          | false =>
              refine Prog.forall_bind
                (p := cleanupUserInstance sid i true)
                (cleanupUserInstance_serves sid i true) (fun err => ?_)
              cases err <;> trivial

theorem startAccepted_serves
    (i : InstanceId) :
    (startAccepted sid token wanted i).Forall (Serves launch) := by
  refine ⟨trivial, fun r => ⟨trivial, fun now => ?_⟩⟩
  refine ⟨trivial, fun superseded => ?_⟩
  rcases r with ⟨proc, err⟩
  cases err with
  | some err => trivial
  | none =>
      cases proc with
      | none => trivial
      | some proc =>
          cases superseded with
          | false => trivial
          | true =>
              exact Prog.forall_bind
                (p := killUserInstance sid (some i))
                (killUserInstance_serves sid (some i))
                (fun _ => trivial)

theorem launchUser_serves :
    (launchUser sid token wanted).Forall
      (Serves (some (sid, wanted))) := by
  refine ⟨trivial, fun r => ?_⟩
  cases r with
  | error err => trivial
  | ok i =>
      refine Prog.forall_bind (p := clearExited sid i)
        (clearExited_serves sid i) (fun result => ?_)
      cases result with
      | some result => trivial
      | none =>
          refine ⟨trivial, fun now => ⟨rfl, fun r => ?_⟩⟩
          cases r with
          | error err => trivial
          | ok i => exact startAccepted_serves sid token wanted i

theorem ensureRunning_serves :
    (ensureRunning sid token wanted).Forall
      (Serves (some (sid, wanted))) := by
  refine ⟨trivial, fun locked => ?_⟩
  cases locked with
  | false => trivial
  | true =>
      refine Prog.forall_bind (p := launchUser sid token wanted)
        (launchUser_serves sid token wanted) (fun err => ?_)
      exact ⟨trivial, fun _ => trivial⟩

theorem recordLingerTokenFailure_serves
    (revision : Nat)
    (message : String) :
    (recordLingerTokenFailure sid revision message).Forall
      (Serves launch) := by
  refine ⟨trivial, fun locked => ?_⟩
  cases locked with
  | false => trivial
  | true =>
      exact
        ⟨trivial, fun _ => ⟨trivial, fun _ =>
          ⟨trivial, fun _ => trivial⟩⟩⟩

end

theorem attempt_serves
    (a : AttemptId)
    (key : UserStopKey) :
    (attempt (S := S) a key).Forall (Serves launch) := by
  refine Prog.forall_bind (p := attemptStop a key)
    (serves_of_harmless (attemptStop_harmless a key)) (fun err => ?_)
  exact ⟨trivial, fun _ => ⟨trivial, fun _ => trivial⟩⟩

end Programs

------------------------------------------------------------
-- Programs Built Of Others
------------------------------------------------------------

open UserHost (threads)

variable [SIDs S]

/- What the workers may do at any time. -/
structure Allows
    (P :
      Protocol (UserHost S) (HostAction S) (HostInput S)
        (HostOutcome S) (HostTask S) HostAction.Result) : Prop where
  harmless :
    ∀ {α : Type} {p : HostCode S α}, p.Forall Harmless →
      P.Safe threads p
  policy : ∀ p w h, P.contract w (.acceptAdmissionPolicy p) h
  revoke : ∀ sids, P.Safe threads (revoke sids)
  stopUser :
    ∀ sid onlyIdle, P.Safe threads (stopUser sid onlyIdle)
  startLinger : ∀ record, P.Safe threads (startLinger record)
  query :
    ∀ session request work,
      P.Safe threads (queryAcceptedUserLogon session request work)

section Allowed

variable
  {P :
    Protocol (UserHost S) (HostAction S) (HostInput S)
      (HostOutcome S) (HostTask S) HostAction.Result}
variable (hP : Allows P)
include hP

theorem finish_safe
    {α : Type}
    (work : WorkId)
    (token : Option (UserToken S))
    {k : Option String → HostCode S α}
    (hk : ∀ err, P.Safe threads (k err)) :
    P.Safe threads (finishNativeUserWork work token >>= k) :=
  (hP.harmless (finishNativeUserWork_harmless work token)).bind hk

theorem startLingerers_safe (records : List (LingerRecord S)) :
    P.Safe threads (startLingerers records) := by
  induction records with
  | nil => exact fun _ _ => trivial
  | cons record records ih =>
      refine (hP.harmless (observeRunning_harmless record.sid)).bind
        (fun running => ?_)
      cases running with
      | true => exact ih
      | false => exact (hP.startLinger record).bind (fun _ => ih)

theorem startLingering_safe (work : WorkId) :
    P.Safe threads (startLingering work) := by
  refine (hP.harmless refreshLingerRecords_harmless).bind
    (fun records => ?_)
  refine (startLingerers_safe hP records).bind (fun _ => ?_)
  exact finish_safe hP work none (fun _ _ _ => trivial)

theorem enableLinger_safe (work : WorkId) :
    P.Safe threads (enableLinger work) := by
  refine (hP.harmless (mutateLingerRecord_harmless work true)).bind
    (fun r => ?_)
  cases r with
  | error err => exact fun _ _ => trivial
  | ok record =>
      refine (hP.harmless (isAlive_harmless record.sid)).bind
        (fun alive => ?_)
      cases alive with
      | true => exact fun _ _ => trivial
      | false =>
          exact (hP.startLinger record).bind (fun _ _ _ => trivial)

theorem disableLinger_safe (work : WorkId) :
    P.Safe threads (disableLinger work) := by
  refine (hP.harmless (mutateLingerRecord_harmless work false)).bind
    (fun r => ?_)
  cases r with
  | error err => exact fun _ _ => trivial
  | ok record =>
      exact (hP.stopUser record.sid true).bind (fun _ _ _ => trivial)

/- The loaded policy is put in force. -/
theorem acceptPolicy_safe
    (work : WorkId)
    (policy : UserAdmission S) :
    P.Safe threads (do
      match ← call (.acceptAdmissionPolicy policy) with
      | .error _ =>
          let _ ← finishNativeUserWork work none
          pure ()
      | .ok revoked =>
          revoke revoked
          let _ ← finishNativeUserWork work none
          pure ()) := by
  refine Protocol.Safe.call (hP.policy policy) (fun r => ?_)
  cases r with
  | error err => exact finish_safe hP work none (fun _ _ _ => trivial)
  | ok revoked =>
      refine (hP.revoke revoked).bind (fun _ => ?_)
      exact finish_safe hP work none (fun _ _ _ => trivial)

theorem refreshAdmission_safe (work : WorkId) :
    P.Safe threads (refreshAdmission work) := by
  refine (hP.harmless (p := call .loadUserAdmission)
    ⟨trivial, fun _ => trivial⟩).bind (fun r => ?_)
  cases r with
  | ok policy => exact acceptPolicy_safe hP work policy
  | error err =>
      exact (hP.harmless (p := call .admission)
        ⟨trivial, fun _ => trivial⟩).bind (acceptPolicy_safe hP work)

theorem logon_safe
    (session request : Nat)
    (work : WorkId)
    (joins : Option HostWorkerId) :
    P.Safe threads (logon session request work joins) := by
  refine (hP.query session request work).bind (fun _ => ?_)
  cases joins with
  | none => exact fun _ _ => trivial
  | some r => exact hP.harmless ⟨trivial, fun _ => trivial⟩

theorem shutdownStop_safe
    (pass : AttemptId)
    (sid : S) :
    P.Safe threads (shutdownStop pass sid) :=
  (hP.stopUser sid false).bind
    (fun _ => hP.harmless ⟨trivial, fun _ => trivial⟩)

end Allowed

end HostWorkers

------------------------------------------------------------
-- Requests And Notifications
------------------------------------------------------------

/- Each of them is a decision and starts at most one goroutine,
   which is no attempt. -/
theorem UserHost.accept_rule
    {S : Type}
    [SIDs S]
    {h : UserHost S}
    {P : UserHost S → Prop}
    (hLogon : ∀ session, P (h.acceptSessionRequest session).2)
    (hLogoff : ∀ session, P (h.recordLogoff session).2)
    (hPolicy : ∀ policy, P (h.acceptAdmissionPolicy policy).2)
    (hWork : ∀ cls, P (h.acceptUserWorkClassLocked cls).2)
    (hSeal : P h.sealShutdownLocked)
    (hSpawn :
      ∀ h₁ t, (∀ a key, t ≠ .attempt a key) → P h₁ → P (h₁.spawn t))
    (e : HostInput S) :
    P (h.accept e) := by
  have hBegin :
      ∀ cls (task : WorkId → HostTask S),
        (∀ work a key, task work ≠ .attempt a key) →
          P (h.beginWork cls task) := by
    intro cls task hTask
    have hClass := hWork cls
    unfold beginWork
    split <;> rename_i hEq <;> rw [hEq] at hClass
    · exact hSpawn _ _ (hTask _) hClass
    · exact hClass
  cases e with
  | logon session =>
      have hStep := hLogon session
      unfold accept
      dsimp only
      split <;> rename_i hEq <;> rw [hEq] at hStep
      · exact hSpawn _ _ (fun _ _ => nofun) hStep
      · exact hStep
  | sessionEnded session =>
      have hStep := hLogoff session
      unfold accept
      dsimp only
      split <;> rename_i hEq <;> rw [hEq] at hStep
      · unfold queueIdleCleanup
        split
        · exact hStep
        · exact hSpawn _ _ (fun _ _ => nofun) hStep
      · exact hStep
  | logoff session =>
      have hStep := hLogoff session
      unfold accept
      dsimp only
      split <;> rename_i hEq <;> rw [hEq] at hStep
      · exact hSpawn _ _ (fun _ _ => nofun) hStep
      · exact hStep
  | setUserAdmission policy =>
      have hStep := hPolicy policy
      unfold accept
      dsimp only
      split <;> rename_i hEq <;> rw [hEq] at hStep
      · exact hSpawn _ _ (fun _ _ => nofun) hStep
      · exact hStep
  | reconcile lingering | startLingering | enableLinger
  | disableLinger | refreshAdmission =>
      exact hBegin _ _ (fun _ _ _ => nofun)
  | shutdown => exact hSpawn _ _ (fun _ _ => nofun) hSeal

end Winunitd
