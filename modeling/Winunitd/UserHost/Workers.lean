import Winunitd.Lib.Threads
import Winunitd.UserHost.Host
import Mathlib.Data.List.Sort

/-
  The goroutines of the user host as programs over its
  atomic actions.

  An action is a critical section of the host mutex, an
  operation on a gate, or a native call.  The outcome of a
  native call is chosen outside, and so are the clock, the
  enumerated sessions, the tokens and the linger records on
  disk.  A bounded wait may give up at any time.

  Key definitions include:
    * `HostAction`, `UserHost.perform`
    * `HostWorkers.queryAcceptedUserLogon`
    * `HostWorkers.ensureRunning`
    * `HostWorkers.cleanupUserInstance`
    * `HostWorkers.shutdownPass`
    * `UserHost.threads`
-/

------------------------------------------------------------
-- Actions
------------------------------------------------------------

namespace Winunitd

open Lib

inductive HostAction (S : Type) where
-- gates, the clock and goroutines
| tryLock (sid : S)
| lockContext (sid : S)
| unlock (sid : S)
| lingerIOLock
| lingerIOUnlock
| clock
| queueIdleCleanup (sid : S)
-- native work
| acceptUserWorkClass (cls : UserWorkClass)
| finishNativeUserWork
    (w : WorkId)
    (token : Option (UserToken S))
    (err : Option String)
| nativeWork
| workDone (w : WorkId)
| awaitWork (w : WorkId)
| retainedToken (w : WorkId)
| dropNativeUserWork (w : WorkId)
-- sessions
| beginLogon (session request : Nat) (now : Int)
| finishSessionRequest (session request : Nat)
| acceptSessionIdentity (origin : UserSessionOrigin) (sid : S)
| beginReconcile
| acceptUserSessions (ids : List Nat) (epoch revision : Nat)
| reconcileCursor
| spawnLogon (session request : Nat) (work : WorkId)
| joinLogon
| logonDone (reconciler : HostWorkerId)
-- policies
| admission
| acceptAdmissionPolicy (p : UserAdmission S)
| acceptAdmissionRevocation (sid : S)
| acceptLingerMutation (record : LingerRecord S) (enable : Bool)
| acceptLingerSnapshot
    (accepted : Table S (LingerRecord S))
    (scanError : String)
-- launches
| beginLinger (record : LingerRecord S) (now : Int)
| inspectUserLaunch (sid : S) (wanted : Wanted S)
| instanceProc (i : InstanceId)
| runningProc (sid : S)
| acceptUserLaunch
    (sid : S)
    (mode : String)
    (session : Nat)
    (wanted : Wanted S)
    (now : Int)
| applyUserLaunch
    (sid : S)
    (i : InstanceId)
    (proc : Option UserProcId)
    (err : Option String)
    (wanted : Wanted S)
    (now : Int)
| observeUserAlive
    (sid : S)
    (i : InstanceId)
    (proc : UserProcId)
    (sampled : Int)
| recordLingerTokenFailure
    (sid : S)
    (revision : Nat)
    (message : String)
    (now : Int)
-- cleanup
| stopTarget (sid : S) (onlyIdle : Bool)
| acceptUserCleanup (i : InstanceId)
| applyUserCleanup
    (sid : S)
    (i : InstanceId)
    (err : Option String)
    (retainRecovery : Bool)
| closedOrGone (sid : S)
| joinStop (key : UserStopKey)
| awaitStop (a : AttemptId)
| dropAttempt (a : AttemptId)
| closeAttempt (a : AttemptId) (err : Option String)
-- shutdown
| acceptUserShutdown (pass : AttemptId)
| shutdownStopped (pass : AttemptId) (err : Option String)
| joinPass (pass : AttemptId)
| joinedCutOff
| shutdownReturned (err : Option String)
-- native calls
| queryToken (session : Nat)
| lingerToken (record : LingerRecord S)
| closeToken (token : UserToken S)
| probeUserUnits (token : UserToken S)
| enumerateSessions
| listLinger
| resolve
| storeLinger (record : LingerRecord S) (enable : Bool)
| loadUserAdmission
| start (sid : S) (i : InstanceId) (token : Option (UserToken S))
| alive (p : UserProcId)
| kill (p : UserProcId)

/- What an action answers. -/
@[reducible]
def HostAction.Result {S : Type} : HostAction S → Type
| .tryLock _ => Bool
| .lockContext _ => Option String
| .clock => Int
| .acceptUserWorkClass _ => Except String WorkId
| .nativeWork => List WorkId
| .workDone _ => Bool
| .awaitWork _ => Option String
| .retainedToken _ => Option (UserToken S)
| .beginLogon _ _ _ => Option (Nat × UserAdmission S)
| .acceptSessionIdentity _ _ => Except String Bool
| .beginReconcile => Option (Nat × Nat)
| .acceptUserSessions _ _ _ =>
    Option (List (Nat × Nat) × List S)
| .reconcileCursor => Nat
| .admission => UserAdmission S
| .acceptAdmissionPolicy _ => Except String (List S)
| .acceptAdmissionRevocation _ => Option InstanceId × Bool
| .acceptLingerSnapshot _ _ => List S
| .beginLinger _ _ => Except String Nat
| .inspectUserLaunch _ _ => Except String (Option InstanceId)
| .instanceProc _ => Option UserProcId
| .runningProc _ => Option (InstanceId × UserProcId)
| .acceptUserLaunch _ _ _ _ _ => Except String InstanceId
| .applyUserLaunch _ _ _ _ _ _ => Bool
| .stopTarget _ _ => Option InstanceId
| .acceptUserCleanup _ => Option UserProcId
| .closedOrGone _ => Bool
| .joinStop _ => Except String AttemptId
| .awaitStop _ => Option String
| .acceptUserShutdown _ => List S
| .joinPass _ => Option String
| .joinedCutOff => Bool
| .queryToken _ => Option (UserToken S) × Option String
| .lingerToken _ => Option (UserToken S) × Option String
| .closeToken _ => Option String
| .probeUserUnits _ => Except String Bool
| .enumerateSessions => Except String (List Nat)
| .listLinger => List (LingerRecord S) × Option String
| .resolve => Except String (LingerRecord S)
| .storeLinger _ _ => Option String
| .loadUserAdmission => Except String (UserAdmission S)
| .start _ _ _ => Option UserProcId × Option String
| .alive _ => Bool
| .kill _ => Option String
| _ => Unit

/- What the outside world answers to an action. -/
structure HostOutcome (S : Type) where
  err : Option String := none
  yes : Bool := true
  now : Int := 0
  token : Option (UserToken S) := none
  record : Option (LingerRecord S) := none
  records : List (LingerRecord S) := []
  ids : List Nat := []
  policy : UserAdmission S := {}

variable {S : Type}
variable [SIDs S]

namespace UserHost

------------------------------------------------------------
-- Gates And Attempts
------------------------------------------------------------

/- Take a free gate. -/
def takeGate
    (h : UserHost S)
    (w : HostWorkerId)
    (sid : S) :
    UserHost S :=
  { h with gates := Function.update h.gates sid (some w) }

def unlock (h : UserHost S) (sid : S) : UserHost S :=
  { h with gates := Function.update h.gates sid none }

/- Join the pending attempt, or begin one. -/
def joinStop
    (h : UserHost S)
    (key : UserStopKey) :
    AttemptId × UserHost S :=
  match h.pendingStops.lookup key with
  | some a => (a, h)
  | none =>
      (h.nextAttempt,
        { h with
          attempts :=
            Function.update h.attempts h.nextAttempt { key := key }
          pendingStops := (key, h.nextAttempt) :: h.pendingStops
          nextAttempt := h.nextAttempt + 1 }.spawn
          (.attempt h.nextAttempt key))

/- The attempt is no longer joined. -/
def dropAttempt (h : UserHost S) (a : AttemptId) : UserHost S :=
  { h with
    pendingStops := h.pendingStops.filter (fun e => e.2 ≠ a) }

/- The attempt has its result. -/
def closeAttempt
    (h : UserHost S)
    (a : AttemptId)
    (err : Option String) :
    UserHost S :=
  { h with
    attempts :=
      Function.update h.attempts a
        { h.attempts a with done := some err } }

/- The kill of a process has returned. -/
def killProcess
    (h : UserHost S)
    (w : HostWorkerId)
    (p : UserProcId)
    (o : HostOutcome S) :
    Option String × UserHost S :=
  match o.err with
  | some err => (some err, h)
  | none =>
      (none,
        { h with
          hist := { h.hist with killed := (w, p) :: h.hist.killed } })

/- The process has been asked whether it is alive. -/
def processAlive
    (h : UserHost S)
    (w : HostWorkerId)
    (p : UserProcId)
    (o : HostOutcome S) :
    Bool × UserHost S :=
  if o.yes = false ∧ (w, p) ∈ h.hist.killed then
    (false, { h with hist := { h.hist with dead := p :: h.hist.dead } })
  else
    (o.yes, h)

/-
  A kill of the process is confirmed: one worker has killed
  it without an error and then found it not to be alive.
-/
def Confirmed (h : UserHost S) (p : UserProcId) : Prop :=
  p ∈ h.hist.dead

instance (h : UserHost S) (p : UserProcId) :
    Decidable (h.Confirmed p) :=
  inferInstanceAs (Decidable (_ ∈ _))

/- One worker for each user that has to be stopped. -/
def beginPass
    (h : UserHost S)
    (pass : AttemptId) :
    List S × UserHost S :=
  let (sids, h) := h.acceptUserShutdown
  (sids,
    { h with
      passes :=
        Function.update h.passes pass { pending := sids.length }
      spawned :=
        h.spawned ++ sids.map (fun sid => .shutdownStop pass sid) })

/- A worker of the pass has returned. -/
def shutdownStopped
    (h : UserHost S)
    (pass : AttemptId)
    (err : Option String) :
    UserHost S :=
  { h with
    passes :=
      Function.update h.passes pass
        { pending := (h.passes pass).pending - 1
          err := joinErrors (h.passes pass).err err } }

/- Cleanup of an idle user is queued while they are tracked. -/
def queueIdleCleanup (h : UserHost S) (sid : S) : UserHost S :=
  if h.closed ∨ sid ∉ h.bySID then h
  else h.spawn (.idleCleanup sid)

/- The launcher returns a new process. -/
def startProcess
    (h : UserHost S)
    (sid : S)
    (o : HostOutcome S) :
    (Option UserProcId × Option String) × UserHost S :=
  if o.yes then
    ((some h.nextProc, o.err),
      { h with
        procs := Function.update h.procs h.nextProc sid
        nextProc := h.nextProc + 1
        hist :=
          { h.hist with
            inHand :=
              Function.update h.hist.inHand sid (some h.nextProc) } })
  else
    ((none, o.err), h)

/- The probe is recorded with the policy it is made under. -/
def probeUserUnits
    (h : UserHost S)
    (w : HostWorkerId)
    (token : UserToken S)
    (o : HostOutcome S) :
    Except String Bool × UserHost S :=
  match o.err with
  | some err => (.error err, h)
  | none =>
      (.ok o.yes,
        { h with
          hist :=
            { h.hist with
              probes :=
                { worker := w
                  revision := h.admissionRevision
                  sid := token.sid
                  present := o.yes } :: h.hist.probes } })

/- What a reconciliation reads before it enumerates. -/
def beginReconcile
    (h : UserHost S)
    (w : HostWorkerId) :
    Option (Nat × Nat) × UserHost S :=
  if h.closed then (none, h)
  else
    (some (h.nextSessionRequest, h.admissionRevision),
      { h with
        hist :=
          { h.hist with
            began :=
              Function.update h.hist.began w
                h.hist.events.length } })

------------------------------------------------------------
-- Execution
------------------------------------------------------------

/- An outside answer that may be an error instead. -/
def answer {α : Type} (o : HostOutcome S) (x : α) : Except String α :=
  match o.err with
  | some err => .error err
  | none => .ok x

/- Worker `w` takes an action; undefined while it has to wait. -/
def perform
    (h : UserHost S)
    (w : HostWorkerId)
    (o : HostOutcome S) :
    (a : HostAction S) → Option (a.Result × UserHost S)
| .tryLock sid =>
    if h.gates sid = none then some (true, h.takeGate w sid)
    else some (false, h)
| .lockContext sid =>
    match o.err with
    | some err => some (some err, h)
    | none =>
        if h.gates sid = none then some (none, h.takeGate w sid)
        else none
| .unlock sid => some ((), h.unlock sid)
| .lingerIOLock =>
    if h.lingerIO = none then some ((), { h with lingerIO := some w })
    else none
| .lingerIOUnlock => some ((), { h with lingerIO := none })
| .clock => some (o.now, h)
| .queueIdleCleanup sid => some ((), h.queueIdleCleanup sid)
| .acceptUserWorkClass cls => some (h.acceptUserWorkClassLocked cls)
| .finishNativeUserWork work token err =>
    some ((), h.finishNativeUserWork work token err)
| .nativeWork => some (h.nativeWork, h)
| .workDone work => some ((h.works work).done, h)
| .awaitWork work =>
    match o.err with
    | some err => some (some err, h)
    | none => if (h.works work).done then some (none, h) else none
| .retainedToken work => some (h.retainedToken work, h)
| .dropNativeUserWork work => some ((), h.dropNativeUserWork work)
| .beginLogon session request now =>
    some (h.beginLogon session request now, h)
| .finishSessionRequest session request =>
    some ((), h.finishSessionRequest session request)
| .acceptSessionIdentity origin sid =>
    some (h.acceptSessionIdentity origin sid)
| .beginReconcile => some (h.beginReconcile w)
| .acceptUserSessions ids epoch revision =>
    some (h.acceptUserSessions w ids epoch revision)
| .reconcileCursor => some (h.lastReconcileSession, h)
| .spawnLogon session request work =>
    some ((),
      { h with lastReconcileSession := session }.spawn
        (.logon session request work (some w)))
| .joinLogon =>
    if 0 < h.answered w then
      some ((),
        { h with
          answered := Function.update h.answered w (h.answered w - 1) })
    else
      none
| .logonDone r =>
    some ((),
      { h with
        answered := Function.update h.answered r (h.answered r + 1) })
| .admission => some (h.admission, h)
| .acceptAdmissionPolicy p => some (h.acceptAdmissionPolicy p)
| .acceptAdmissionRevocation sid =>
    some (h.acceptAdmissionRevocation sid)
| .acceptLingerMutation record enable =>
    some ((), h.acceptLingerMutation record enable)
| .acceptLingerSnapshot accepted scanError =>
    some (h.acceptLingerSnapshot accepted scanError)
| .beginLinger record now => some (h.beginLinger w record now)
| .inspectUserLaunch sid wanted =>
    some (h.inspectUserLaunch sid wanted, h)
| .instanceProc i => some ((h.instances i).proc, h)
| .runningProc sid =>
    some
      ((h.bySID.lookup sid).bind
        (fun i => (h.instances i).proc.map (fun p => (i, p))), h)
| .acceptUserLaunch sid mode session wanted now =>
    some (h.acceptUserLaunch sid mode session wanted now)
| .applyUserLaunch sid i proc err wanted now =>
    some (h.applyUserLaunch sid i proc err wanted now)
| .observeUserAlive sid i proc sampled =>
    some ((), h.observeUserAlive sid i proc sampled)
| .recordLingerTokenFailure sid revision message now =>
    some ((), h.recordLingerTokenFailure sid revision message now)
| .stopTarget sid onlyIdle => some (h.stopTarget sid onlyIdle, h)
| .acceptUserCleanup i => some (h.acceptUserCleanup i)
| .applyUserCleanup sid i err retainRecovery =>
    some ((), h.applyUserCleanup sid i err retainRecovery)
| .closedOrGone sid => some (h.closed || sid ∉ h.bySID, h)
| .joinStop key =>
    match o.err with
    | some err => some (.error err, h)
    | none =>
        let (a, h) := h.joinStop key
        some (.ok a, h)
| .awaitStop a =>
    match o.err with
    | some err => some (some err, h)
    | none => (h.attempts a).done.map (fun err => (err, h))
| .dropAttempt a => some ((), h.dropAttempt a)
| .closeAttempt a err => some ((), h.closeAttempt a err)
| .acceptUserShutdown pass => some (h.beginPass pass)
| .shutdownStopped pass err => some ((), h.shutdownStopped pass err)
| .joinPass pass =>
    if (h.passes pass).pending = 0 then some ((h.passes pass).err, h)
    else none
| .joinedCutOff => some (o.yes, h)
| .shutdownReturned err =>
    some ((),
      { h with
        hist :=
          { h.hist with shutdowns := err :: h.hist.shutdowns } })
| .queryToken _ => some ((o.token, o.err), h)
| .lingerToken _ => some ((o.token, o.err), h)
| .closeToken _ => some (o.err, h)
| .probeUserUnits token => some (h.probeUserUnits w token o)
| .enumerateSessions => some (answer o o.ids, h)
| .listLinger => some ((o.records, o.err), h)
| .resolve =>
    match o.record with
    | some record => some (answer o record, h)
    | none => some (.error (o.err.getD "cannot resolve user"), h)
| .storeLinger _ _ => some (o.err, h)
| .loadUserAdmission => some (answer o o.policy, h)
| .start sid _ _ => some (h.startProcess sid o)
| .alive p => some (h.processAlive w p o)
| .kill p => some (h.killProcess w p o)

/- An action together with the goroutines it starts. -/
def exec
    (w : HostWorkerId)
    (a : HostAction S)
    (o : HostOutcome S)
    (h : UserHost S) :
    Option (a.Result × UserHost S × List (HostTask S)) :=
  (h.perform w o a).map
    (fun x => (x.1, { x.2 with spawned := [] }, x.2.spawned))

end UserHost

------------------------------------------------------------
-- Programs
------------------------------------------------------------

/- A program of the user host. -/
abbrev HostCode (S : Type) (α : Type) :=
  Prog (HostAction S) HostAction.Result α

namespace HostWorkers

/- Take one action. -/
def call (a : HostAction S) : HostCode S a.Result :=
  Prog.call a

/- `stopSet.wait`. -/
def stopsWait (key : UserStopKey) : HostCode S (Option String) := do
  match ← call (.joinStop key) with
  | .error err => pure (some err)
  | .ok a => call (.awaitStop a)

/- Close the token and end the work. -/
def finishNativeUserWork
    (work : WorkId)
    (token : Option (UserToken S)) :
    HostCode S (Option String) := do
  let err ←
    match token with
    | none => pure none
    | some token => call (.closeToken token)
  call (.finishNativeUserWork work token err)
  pure err

------------------------------------------------------------
-- Stops
------------------------------------------------------------

def cleanupUserInstance
    (sid : S)
    (i : InstanceId)
    (retainRecovery : Bool) :
    HostCode S (Option String) := do
  match ← call (.instanceProc i) with
  | none =>
      call (.applyUserCleanup sid i none retainRecovery)
      pure none
  | some _ =>
      match ← call (.acceptUserCleanup i) with
      | none => pure none
      | some proc =>
          let err ← stopsWait (.user proc)
          call (.applyUserCleanup sid i err retainRecovery)
          pure err

def killUserInstance
    (sid : S)
    (i : Option InstanceId) :
    HostCode S (Option String) :=
  match i with
  | none => pure none
  | some i => cleanupUserInstance sid i false

/- The caller owns the gate of the user. -/
def stopUserLocked
    (sid : S)
    (onlyIdle : Bool) :
    HostCode S (Option String) := do
  let i ← call (.stopTarget sid onlyIdle)
  killUserInstance sid i

def stopUser
    (sid : S)
    (onlyIdle : Bool) :
    HostCode S (Option String) := do
  match ← call (.lockContext sid) with
  | some err => pure (some err)
  | none =>
      let err ← stopUserLocked sid onlyIdle
      call (.unlock sid)
      pure err

/- Try until the user is gone or the host is closed. -/
def idleCleanup (sid : S) : HostCode S (Option (HostTask S)) := do
  if ← call (.tryLock sid) then
    if ← call (.closedOrGone sid) then
      call (.unlock sid)
      pure none
    else
      let err ← stopUserLocked sid true
      call (.unlock sid)
      let gone ← call (.closedOrGone sid)
      pure (if err.isNone || gone then none else some (.idleCleanup sid))
  else
    pure (some (.idleCleanup sid))

/- Revoke the users that the latest policy still denies. -/
def revoke : List S → HostCode S Unit
| [] => pure ()
| sid :: sids => do
    match ← call (.lockContext sid) with
    | some _ => revoke sids
    | none =>
        let (i, denied) ← call (.acceptAdmissionRevocation sid)
        if denied then
          let _ ← killUserInstance sid i
          call (.unlock sid)
          revoke sids
        else
          call (.unlock sid)
          revoke sids

def refreshAdmission (work : WorkId) : HostCode S Unit := do
  let policy ←
    match ← call .loadUserAdmission with
    | .ok policy => pure policy
    | .error _ => call .admission
  match ← call (.acceptAdmissionPolicy policy) with
  | .error _ =>
      let _ ← finishNativeUserWork work none
      pure ()
  | .ok revoked =>
      revoke revoked
      let _ ← finishNativeUserWork work none
      pure ()

------------------------------------------------------------
-- Launches
------------------------------------------------------------

/-
  See to the process that the user already has.  Answers the
  result of the launch, if there is nothing left to start.
-/
def clearExited
    (sid : S)
    (i : Option InstanceId) :
    HostCode S (Option (Option String)) :=
  match i with
  | none => pure none
  | some i => do
      match ← call (.instanceProc i) with
      | none => pure none
      | some proc =>
          let sampled ← call .clock
          if ← call (.alive proc) then
            call (.observeUserAlive sid i proc sampled)
            pure (some none)
          else
            match ← cleanupUserInstance sid i true with
            | some err => pure (some (some err))
            | none => pure none

/- Start the process of an accepted launch. -/
def startAccepted
    (sid : S)
    (token : Option (UserToken S))
    (wanted : Wanted S)
    (i : InstanceId) :
    HostCode S (Option String) := do
  let (proc, err) ← call (.start sid i token)
  let now ← call .clock
  let superseded ←
    call (.applyUserLaunch sid i proc err wanted now)
  match err, proc with
  | some err, _ => pure (some err)
  | none, none =>
      pure (some "user manager launcher returned no process")
  | none, some _ =>
      if superseded then
        let killErr ← killUserInstance sid (some i)
        pure
          (joinErrors (some "user manager launch superseded") killErr)
      else
        pure none

def launchUser
    (sid : S)
    (token : Option (UserToken S))
    (wanted : Wanted S) :
    HostCode S (Option String) := do
  match ← call (.inspectUserLaunch sid wanted) with
  | .error err => pure (some err)
  | .ok i =>
      match ← clearExited sid i with
      | some result => pure result
      | none =>
          let now ← call .clock
          match ← call
              (.acceptUserLaunch sid (userLaunchMode token).1
                (userLaunchMode token).2 wanted now) with
          | .error err => pure (some err)
          | .ok i => startAccepted sid token wanted i

def ensureRunning
    (sid : S)
    (token : Option (UserToken S))
    (wanted : Wanted S) :
    HostCode S (Option String) := do
  if ← call (.tryLock sid) then
    let err ← launchUser sid token wanted
    call (.unlock sid)
    pure err
  else
    pure (some errBusy)

------------------------------------------------------------
-- Logons
------------------------------------------------------------

/- The policy that was read first, or a probe, decides. -/
def admitted
    (policy : UserAdmission S)
    (token : UserToken S) :
    HostCode S Bool :=
  let (allow, probe) := policy.decision token.sid
  if probe then do
    match ← call (.probeUserUnits token) with
    | .error _ => pure false
    | .ok present => pure present
  else
    pure allow

/- A token has been obtained for the session. -/
def admitToken
    (origin : UserSessionOrigin)
    (policy : UserAdmission S)
    (token : UserToken S) :
    HostCode S Unit := do
  if SIDs.validSID token.sid then
    if ← admitted policy token then
      match ← call (.acceptSessionIdentity origin token.sid) with
      | .ok true =>
          let _ ←
            ensureRunning token.sid (some token) (.session origin)
          pure ()
      | _ => pure ()
    else
      pure ()
  else
    pure ()

def queryAcceptedUserLogon
    (session request : Nat)
    (work : WorkId) :
    HostCode S Unit := do
  let now ← call .clock
  match ← call (.beginLogon session request now) with
  | none =>
      let _ ← finishNativeUserWork work none
      call (.finishSessionRequest session request)
  | some (revision, policy) =>
      let (token, err) ← call (.queryToken session)
      match err, token with
      | none, some token =>
          admitToken ⟨session, request, revision⟩ policy token
      | _, _ => pure ()
      let _ ← finishNativeUserWork work token
      call (.finishSessionRequest session request)

------------------------------------------------------------
-- Lingering
------------------------------------------------------------

def recordLingerTokenFailure
    (sid : S)
    (revision : Nat)
    (message : String) :
    HostCode S Unit := do
  if ← call (.tryLock sid) then
    let now ← call .clock
    call (.recordLingerTokenFailure sid revision message now)
    call (.unlock sid)
  else
    pure ()

def startLinger
    (record : LingerRecord S) :
    HostCode S (Option String) := do
  let now ← call .clock
  match ← call (.beginLinger record now) with
  | .error err => pure (some err)
  | .ok revision =>
      match ← call (.acceptUserWorkClass .admission) with
      | .error err => pure (some err)
      | .ok work =>
          let (token, err) ← call (.lingerToken record)
          let startErr ←
            match err with
            | some err => do
                recordLingerTokenFailure record.sid revision err
                pure (some err)
            | none =>
                ensureRunning record.sid token
                  (.linger record revision)
          let closeErr ← finishNativeUserWork work token
          pure (joinErrors startErr closeErr)

/- `Alive` that also records the observation. -/
def observeRunning (sid : S) : HostCode S Bool := do
  match ← call (.runningProc sid) with
  | none => pure false
  | some (i, proc) =>
      let sampled ← call .clock
      if ← call (.alive proc) then
        call (.observeUserAlive sid i proc sampled)
        pure true
      else
        pure false

def isAlive (sid : S) : HostCode S Bool := do
  match ← call (.runningProc sid) with
  | none => pure false
  | some (_, proc) => call (.alive proc)

/-
  The records of a scan that can be relied on.  A duplicate
  discards them all.
-/
def validRecords :
    List (LingerRecord S) →
    Table S (LingerRecord S) →
    List (LingerRecord S) →
    Option String →
    Table S (LingerRecord S) × List (LingerRecord S) × Option String
| [], accepted, valid, err => (accepted, valid, err)
| record :: records, accepted, valid, err =>
    if SIDs.validSID record.sid = false then
      validRecords records accepted valid
        (joinErrors err (some "invalid linger record SID"))
    else if record.sid ∈ accepted then
      (∅, [], joinErrors err (some "duplicate linger record SID"))
    else
      validRecords records (accepted.insert record.sid record)
        (valid ++ [record]) err

def scanRecords
    (records : List (LingerRecord S))
    (err : Option String) :
    Table S (LingerRecord S) × List (LingerRecord S) × Option String :=
  if maxTrackedUserManagers < records.length then
    (∅, [],
      some
        ("linger record limit " ++ toString maxTrackedUserManagers ++
          " exceeded"))
  else
    validRecords records ∅ [] err

def queueIdle : List S → HostCode S Unit
| [] => pure ()
| sid :: sids => do
    call (.queueIdleCleanup sid)
    queueIdle sids

def refreshLingerRecords : HostCode S (List (LingerRecord S)) := do
  call .lingerIOLock
  let (records, err) ← call .listLinger
  let (accepted, valid, err) := scanRecords records err
  let removed ← call (.acceptLingerSnapshot accepted (err.getD ""))
  call .lingerIOUnlock
  queueIdle removed
  pure valid

def startLingerers : List (LingerRecord S) → HostCode S Unit
| [] => pure ()
| record :: records => do
    if ← observeRunning record.sid then startLingerers records
    else
      let _ ← startLinger record
      startLingerers records

def startLingering (work : WorkId) : HostCode S Unit := do
  let records ← refreshLingerRecords
  startLingerers records
  let _ ← finishNativeUserWork work none
  pure ()

/- Resolve the account, store the change and publish it. -/
def mutateLingerRecord
    (work : WorkId)
    (enable : Bool) :
    HostCode S (Except String (LingerRecord S)) := do
  call .lingerIOLock
  let result ←
    match ← call .resolve with
    | .error err => pure (.error err)
    | .ok record => do
        match ← call (.storeLinger record enable) with
        | some err => pure (.error err)
        | none => do
            call (.acceptLingerMutation record enable)
            pure (.ok record)
  call .lingerIOUnlock
  let _ ← finishNativeUserWork work none
  pure result

def enableLinger (work : WorkId) : HostCode S Unit := do
  match ← mutateLingerRecord work true with
  | .error _ => pure ()
  | .ok record =>
      if ← isAlive record.sid then pure ()
      else
        let _ ← startLinger record
        pure ()

def disableLinger (work : WorkId) : HostCode S Unit := do
  match ← mutateLingerRecord work false with
  | .error _ => pure ()
  | .ok record =>
      let _ ← stopUser record.sid true
      pure ()

------------------------------------------------------------
-- Reconciliation
------------------------------------------------------------

/- Close the tokens that finished work has left open. -/
def cleanupNativeUserWork
    (drain : Bool) :
    List WorkId → HostCode S (Option String)
| [] => pure none
| work :: works => do
    let ready ← if drain then pure true else call (.workDone work)
    if ready then
      match ← call (.awaitWork work) with
      | some err => pure (some err)
      | none =>
          let err ← stopsWait (.userWork work)
          let rest ← cleanupNativeUserWork drain works
          pure (joinErrors err rest)
    else
      cleanupNativeUserWork drain works

/- Requests that found no capacity are given up. -/
def dropRequests : List (Nat × Nat) → HostCode S Unit
| [] => pure ()
| (session, request) :: requests => do
    call (.finishSessionRequest session request)
    dropRequests requests

/- Wait for a query, or give up where none is running. -/
def joinQueries
    (requests : List (Nat × Nat))
    (active : Nat)
    (next : Nat → HostCode S Unit) :
    HostCode S Unit :=
  match active with
  | 0 => dropRequests requests
  | active + 1 => do
      call .joinLogon
      next active

/- Query the sessions, at most four at a time. -/
def dispatchLoop :
    Nat → List (Nat × Nat) → Nat → HostCode S Unit
| 0, _, _ => pure ()
| _ + 1, [], 0 => pure ()
| fuel + 1, [], active =>
    joinQueries [] active (dispatchLoop fuel [])
| fuel + 1, (session, request) :: requests, active =>
    let wait :=
      joinQueries ((session, request) :: requests) active
        (dispatchLoop fuel ((session, request) :: requests))
    if active < maxNativeUserWork then do
      match ← call (.acceptUserWorkClass .admission) with
      | .error _ => wait
      | .ok work => do
          call (.spawnLogon session request work)
          dispatchLoop fuel requests (active + 1)
    else
      wait

/- The sessions after the cursor come first. -/
def dispatchOrder
    (cursor : Nat)
    (requests : List (Nat × Nat)) :
    List (Nat × Nat) :=
  let sorted := requests.insertionSort (fun a b => a.1 ≤ b.1)
  sorted.dropWhile (fun e => e.1 ≤ cursor) ++
    sorted.takeWhile (fun e => e.1 ≤ cursor)

/- Every query is started and joined once. -/
def dispatchReconcileRequests
    (requests : List (Nat × Nat)) :
    HostCode S Unit := do
  let cursor ← call .reconcileCursor
  let ordered := dispatchOrder cursor requests
  dispatchLoop (2 * ordered.length + 1) ordered 0

def stopIdle : List S → HostCode S Unit
| [] => pure ()
| sid :: sids => do
    let _ ← stopUser sid true
    stopIdle sids

def enumerateAccepted
    (epoch revision : Nat) :
    HostCode S Unit := do
  match ← call .enumerateSessions with
  | .error _ => pure ()
  | .ok ids =>
      if maxInteractiveSessions < ids.length then pure ()
      else
        match ← call (.acceptUserSessions ids epoch revision) with
        | none => pure ()
        | some (requests, sids) =>
            dispatchReconcileRequests requests
            stopIdle sids

def reconcileAccepted (work : WorkId) : HostCode S Unit := do
  let works ← call .nativeWork
  let _ ← cleanupNativeUserWork false works
  match ← call .beginReconcile with
  | none => pure ()
  | some (epoch, revision) => enumerateAccepted epoch revision
  let _ ← finishNativeUserWork work none
  pure ()

/- A scheduled pass goes on with the lingering users. -/
def reconcile
    (work : WorkId)
    (lingering : Bool) :
    HostCode S (Option (HostTask S)) := do
  reconcileAccepted work
  if lingering then
    match ← call (.acceptUserWorkClass .lingerScan) with
    | .error _ => pure none
    | .ok scan => pure (some (.lingerScan scan))
  else
    pure none

------------------------------------------------------------
-- Shutdown
------------------------------------------------------------

def shutdownPass (pass : AttemptId) : HostCode S (Option String) := do
  let _ ← call (.acceptUserShutdown pass)
  let works ← call .nativeWork
  let drainErr ← cleanupNativeUserWork true works
  let stopErr ← call (.joinPass pass)
  pure (joinErrors stopErr drainErr)

/- What an attempt does, by what it is about. -/
def attemptStop
    (a : AttemptId) :
    UserStopKey → HostCode S (Option String)
| .user proc => do
    match ← call (.kill proc) with
    | some err => pure (some err)
    | none =>
        if ← call (.alive proc) then
          pure (some "user manager remains alive after termination")
        else
          pure none
| .userWork work => do
    match ← call (.retainedToken work) with
    | none => pure none
    | some token =>
        match ← call (.closeToken token) with
        | some err =>
            pure (some ("retained user token cleanup: " ++ err))
        | none => do
            call (.dropNativeUserWork work)
            pure none
| .userShutdown => shutdownPass a

def attempt
    (a : AttemptId)
    (key : UserStopKey) :
    HostCode S Unit := do
  let err ← attemptStop a key
  call (.dropAttempt a)
  call (.closeAttempt a err)

def shutdownStop
    (pass : AttemptId)
    (sid : S) :
    HostCode S Unit := do
  let err ← stopUser sid false
  call (.shutdownStopped pass err)

/- A caller that joined another's cut-off pass tries again. -/
def shutdown : HostCode S (Option (HostTask S)) := do
  let err ← stopsWait .userShutdown
  let retry ← if err.isSome then call .joinedCutOff else pure false
  if retry then pure (some .shutdown)
  else
    call (.shutdownReturned err)
    pure none

------------------------------------------------------------
-- Tasks
------------------------------------------------------------

/- A task without a successor. -/
def ends
    {α : Type}
    (p : HostCode S α) :
    HostCode S (Option (HostTask S)) := do
  let _ ← p
  pure none

/- The logon worker tells the pass that waits for it. -/
def logon
    (session request : Nat)
    (work : WorkId)
    (joins : Option HostWorkerId) :
    HostCode S Unit := do
  queryAcceptedUserLogon session request work
  match joins with
  | none => pure ()
  | some r => call (.logonDone r)

end HostWorkers

/- The program of a goroutine. -/
def HostTask.code : HostTask S → HostCode S (Option (HostTask S))
| .logon session request work joins =>
    HostWorkers.ends
      (HostWorkers.logon session request work joins)
| .reconcile work lingering => HostWorkers.reconcile work lingering
| .lingerScan work => HostWorkers.ends (HostWorkers.startLingering work)
| .enableLinger work => HostWorkers.ends (HostWorkers.enableLinger work)
| .disableLinger work => HostWorkers.ends (HostWorkers.disableLinger work)
| .stopUser sid onlyIdle => HostWorkers.ends (HostWorkers.stopUser sid onlyIdle)
| .idleCleanup sid => HostWorkers.idleCleanup sid
| .revoke sids => HostWorkers.ends (HostWorkers.revoke sids)
| .refreshAdmission work => HostWorkers.ends (HostWorkers.refreshAdmission work)
| .attempt a key => HostWorkers.ends (HostWorkers.attempt a key)
| .shutdownStop pass sid => HostWorkers.ends (HostWorkers.shutdownStop pass sid)
| .shutdown => HostWorkers.shutdown

------------------------------------------------------------
-- The System
------------------------------------------------------------

/- Requests and session notifications. -/
inductive HostInput (S : Type) where
| logon (session : Nat)
| sessionEnded (session : Nat)
| logoff (session : Nat)
| reconcile (lingering : Bool)
| startLingering
| enableLinger
| disableLinger
| setUserAdmission (policy : UserAdmission S)
| refreshAdmission
| shutdown

namespace UserHost

/- Reserve work of a class and start its goroutine. -/
def beginWork
    (h : UserHost S)
    (cls : UserWorkClass)
    (task : WorkId → HostTask S) :
    UserHost S :=
  match h.acceptUserWorkClassLocked cls with
  | (.ok work, h) => h.spawn (task work)
  | (.error _, h) => h

def accept (h : UserHost S) : HostInput S → UserHost S
| .logon session =>
    match h.acceptSessionRequest session with
    | (.ok (some (request, work)), h) =>
        h.spawn (.logon session request work none)
    | (_, h) => h
| .sessionEnded session =>
    match h.recordLogoff session with
    | (some sid, h) => h.queueIdleCleanup sid
    | (none, h) => h
| .logoff session =>
    match h.recordLogoff session with
    | (some sid, h) => h.spawn (.stopUser sid true)
    | (none, h) => h
| .reconcile lingering =>
    h.beginWork .reconcile (fun work => .reconcile work lingering)
| .startLingering => h.beginWork .lingerScan .lingerScan
| .enableLinger => h.beginWork .admission .enableLinger
| .disableLinger => h.beginWork .revocation .disableLinger
| .setUserAdmission policy =>
    match h.acceptAdmissionPolicy policy with
    | (.ok revoked, h) => h.spawn (.revoke revoked)
    | (.error _, h) => h
| .refreshAdmission => h.beginWork .policy .refreshAdmission
| .shutdown => h.sealShutdownLocked.spawn .shutdown

/- An input together with the goroutines it starts. -/
def event
    (e : HostInput S)
    (h : UserHost S) :
    Option (UserHost S × List (HostTask S)) :=
  let h := h.accept e
  some ({ h with spawned := [] }, h.spawned)

/- A host with a policy and no users. -/
def initial
    (cfg : UserHostConfig)
    (policy : UserAdmission S)
    (nobody : S) :
    UserHost S where
  cfg := cfg
  closed := false
  admission := policy
  admissionRevision := 0
  lingerRecords := ∅
  lingerRevision := 0
  lingerKnown := false
  lingerError := ""
  sessions := ∅
  sessionRequests := ∅
  sessionObservations := ∅
  nextSessionRequest := 0
  lastReconcileSession := 0
  bySID := ∅
  instances := fun _ =>
    { sid := nobody
      mode := ""
      session := 0
      admissionRevision := 0
      lingerRevision := 0
      restartDelay := 0
      nextStart := 0 }
  instanceSequence := 0
  nativeWork := []
  works := fun _ => { workClass := .admission }
  nextWork := 0
  gates := fun _ => none
  lingerIO := none
  procs := fun _ => nobody
  nextProc := 0
  attempts := fun _ => { key := .userShutdown }
  nextAttempt := 0
  pendingStops := []
  passes := fun _ => {}
  answered := fun _ => 0
  spawned := []
  hist := {}

/- The user host as a concurrent program. -/
def threads :
    Threads (UserHost S) (HostAction S) (HostInput S)
      (HostOutcome S) (HostTask S) HostAction.Result where
  init h := ∃ cfg policy nobody, h = initial cfg policy nobody
  exec := exec
  event := event
  code := HostTask.code

end UserHost

end Winunitd
