import Winunitd.Lib.Table
import Mathlib.Data.Finset.Card
import Mathlib.Data.Finset.Insert

/-
  The state of the user host and its decisions.

  The user host runs one manager process for each user.
  Its mutex guards the decisions of this module; tokens,
  probes, launches and kills happen between them.  Go
  objects that are compared by identity (instances, native
  work, processes, stop attempts) are numbers.

  The fields in `HostHistory` are read by no decision.  They
  record which session events have been accepted so far, and
  facts that the code keeps in the local variables of its
  goroutines.

  Key definitions include:
    * `UserAdmission.decision`
    * `UserHost`
    * `UserSessionOrigin.currentLocked`, `Wanted.holds`
    * `UserHost.acceptUserSessions`
    * `UserHost.acceptUserLaunch`, `UserHost.applyUserLaunch`
    * `UserHost.applyUserCleanup`
-/

------------------------------------------------------------
-- Admission
------------------------------------------------------------

namespace Winunitd

open Lib

/- Carriers of security identifiers. -/
class SIDs (S : Type) extends LinearOrder S where
  validSID : S → Bool

inductive AdmissionMode where
| explicit
| unitFiles
deriving DecidableEq, Repr

/- Overrides for single users. -/
inductive AdmissionRule where
| enabled
| disabled
| inherit
deriving DecidableEq, Repr

/- A validated admission policy. -/
structure UserAdmission (S : Type) where
  mode : AdmissionMode := .explicit
  users : Table S AdmissionRule := ∅

namespace UserAdmission

variable {S : Type}
variable [SIDs S]

/- Whether admission is granted or requires a file probe. -/
def decision (p : UserAdmission S) (sid : S) : Bool × Bool :=
  if SIDs.validSID sid then
    match p.users.lookup sid with
    | some .enabled => (true, false)
    | some .disabled => (false, false)
    | _ => (false, p.mode = .unitFiles)
  else
    (false, false)

/- `reflect.DeepEqual` of two policies. -/
def deepEqual (p q : UserAdmission S) : Bool :=
  p.mode = q.mode && Table.agrees p.users q.users

end UserAdmission

------------------------------------------------------------
-- Tokens, Instances And Work
------------------------------------------------------------

abbrev InstanceId := Nat

abbrev WorkId := Nat

abbrev UserProcId := Nat

abbrev AttemptId := Nat

abbrev HostWorkerId := Nat

structure LingerRecord (S : Type) where
  sid : S
  name : String := ""
  credentialURI : String := ""
deriving DecidableEq, Repr

/- How a token was obtained. -/
inductive TokenSource where
| interactive
| s4u
| storeURI
| other
deriving DecidableEq, Repr

structure UserToken (S : Type) where
  sid : S
  sessionID : Nat := 0
  source : TokenSource := .interactive
deriving DecidableEq, Repr

/- The reported mode and session of a launch. -/
def userLaunchMode {S : Type} :
    Option (UserToken S) → String × Nat
| none => ("", 0)
| some token =>
    match token.source with
    | .s4u => ("headless-s4u", 0)
    | .storeURI => ("headless-store-uri", 0)
    | .interactive => ("interactive", token.sessionID)
    | .other => ("unknown", token.sessionID)

/- A user manager; times are in nanoseconds. -/
structure UserInstance (S : Type) where
  sid : S
  mode : String
  session : Nat
  admissionRevision : Nat
  lingerRevision : Nat
  uncertain : Bool := false
  err : String := ""
  proc : Option UserProcId := none
  restartDelay : Int
  nextStart : Int
  startedAt : Option Int := none
  aliveAt : Option Int := none

def userRecoveryMinDelay : Int := 1000000000

def userRecoveryMaxDelay : Int := 60000000000

def userRecoveryStableTime : Int := 60000000000

/- The instance was seen running for long enough. -/
def UserInstance.stable {S : Type} (inst : UserInstance S) : Bool :=
  match inst.startedAt, inst.aliveAt with
  | some started, some alive => userRecoveryStableTime ≤ alive - started
  | _, _ => false

def userRecoveryDelay {S : Type} : Option (UserInstance S) → Int
| none => userRecoveryMinDelay
| some previous =>
    if previous.stable then userRecoveryMinDelay
    else
      let delay := previous.restartDelay * 2
      if delay < userRecoveryMinDelay then userRecoveryMinDelay
      else if userRecoveryMaxDelay < delay then userRecoveryMaxDelay
      else delay

inductive UserWorkClass where
| admission
| reconcile
| policy
| lingerScan
| revocation
deriving DecidableEq, Repr

def maxNativeUserWork : Nat := 4

/- At most this many pieces of work of the class at a time. -/
def UserWorkClass.limit : UserWorkClass → Nat
| .admission => maxNativeUserWork
| _ => 1

/- The class is stopped by a hold on admission. -/
def UserWorkClass.held : UserWorkClass → Bool
| .admission | .reconcile | .lingerScan => true
| .policy | .revocation => false

/- The token is set once its close has failed. -/
structure UserNativeWork (S : Type) where
  workClass : UserWorkClass
  done : Bool := false
  token : Option (UserToken S) := none

/- What a stop attempt is about. -/
inductive UserStopKey where
| user (proc : UserProcId)
| userWork (work : WorkId)
| userShutdown
deriving DecidableEq, Repr

/- `done` is the result, once there is one. -/
structure UserStopAttempt where
  key : UserStopKey
  done : Option (Option String) := none
deriving DecidableEq, Repr

------------------------------------------------------------
-- Why A Launch Is Wanted
------------------------------------------------------------

structure UserSessionOrigin where
  session : Nat
  request : Nat
  revision : Nat
deriving DecidableEq, Repr

/- The reason that a launch has to keep. -/
inductive Wanted (S : Type) where
| session (origin : UserSessionOrigin)
| linger (record : LingerRecord S) (revision : Nat)
deriving DecidableEq, Repr

------------------------------------------------------------
-- History
------------------------------------------------------------

/-
  Accepted session events.  A request keeps the number of
  events before the observation that it stems from.
-/
inductive SessionEvent where
| requested (session request since : Nat)
| refused (session : Nat)
| loggedOff (session : Nat)
| enumerated
| policyChanged
deriving DecidableEq, Repr

/- A probe of a user's unit files. -/
structure AdmissionProbe (S : Type) where
  worker : HostWorkerId
  revision : Nat
  sid : S
  present : Bool
deriving DecidableEq, Repr

/-
  History of a run.  `began` is the number of events before a
  worker's enumeration of the sessions, `started` the linger
  record and revision that a worker has found current,
  `inHand` the process that the launcher has returned for a
  user and that is not stored yet, `killed` the processes that
  a worker has killed without an error, `dead` those that the
  same worker has then found not to be alive, and `shutdowns`
  the results of the shutdown calls.
-/
structure HostHistory (S : Type) where
  events : List SessionEvent := []
  began : HostWorkerId → Nat := fun _ => 0
  started : HostWorkerId → Option (LingerRecord S × Nat) :=
    fun _ => none
  probes : List (AdmissionProbe S) := []
  inHand : S → Option UserProcId := fun _ => none
  killed : List (HostWorkerId × UserProcId) := []
  dead : List UserProcId := []
  shutdowns : List (Option String) := []

------------------------------------------------------------
-- The User Host
------------------------------------------------------------

/- The goroutines of the user host. -/
inductive HostTask (S : Type) where
| logon (session request : Nat) (work : WorkId) (joins : Option HostWorkerId)
| reconcile (work : WorkId) (lingering : Bool)
| lingerScan (work : WorkId)
| enableLinger (work : WorkId)
| disableLinger (work : WorkId)
| stopUser (sid : S) (onlyIdle : Bool)
| idleCleanup (sid : S)
| revoke (sids : List S)
| refreshAdmission (work : WorkId)
| attempt (a : AttemptId) (key : UserStopKey)
| shutdownStop (pass : AttemptId) (sid : S)
| shutdown

structure UserHostConfig where
  admissionHold : String := ""

/- How many workers a shutdown pass waits for, and its errors. -/
structure ShutdownPass where
  pending : Nat := 0
  err : Option String := none

structure UserHost (S : Type) [SIDs S] where
  cfg : UserHostConfig
  closed : Bool
  admission : UserAdmission S
  admissionRevision : Nat
  lingerRecords : Table S (LingerRecord S)
  lingerRevision : Nat
  lingerKnown : Bool
  lingerError : String
  sessions : Table Nat S
  sessionRequests : Table Nat Nat
  sessionObservations : Finset Nat
  nextSessionRequest : Nat
  lastReconcileSession : Nat
  bySID : Table S InstanceId
  instances : InstanceId → UserInstance S
  instanceSequence : InstanceId
  nativeWork : List WorkId
  works : WorkId → UserNativeWork S
  nextWork : WorkId
  gates : S → Option HostWorkerId
  lingerIO : Option HostWorkerId
  procs : UserProcId → S
  nextProc : UserProcId
  attempts : AttemptId → UserStopAttempt
  nextAttempt : AttemptId
  pendingStops : List (UserStopKey × AttemptId)
  passes : AttemptId → ShutdownPass
  answered : HostWorkerId → Nat
  spawned : List (HostTask S)
  hist : HostHistory S

def maxInteractiveSessions : Nat := 4096

def maxTrackedUserManagers : Nat := 128

def errBusy : String :=
  "busy: control request capacity exhausted; retry later"

def errClosed : String :=
  "user host is shutting down or closed"

def errNotRequested : String :=
  "user manager launch is no longer requested"

def errTracked : String :=
  "tracked user manager limit " ++
    toString maxTrackedUserManagers ++ ": " ++ errBusy

/- `errors.Join` of two results. -/
def joinErrors : Option String → Option String → Option String
| none, b => b
| a, none => a
| some a, some b => some (a ++ "\n" ++ b)

variable {S : Type}
variable [SIDs S]

namespace UserHost

/- The instance recorded for a user. -/
def instanceOf
    (h : UserHost S)
    (sid : S) : Option (UserInstance S) :=
  (h.bySID.lookup sid).map h.instances

/- Change an instance. -/
def withInstance
    (h : UserHost S)
    (i : InstanceId)
    (f : UserInstance S → UserInstance S) :
    UserHost S :=
  { h with
    instances := Function.update h.instances i (f (h.instances i)) }

/- Change a piece of native work. -/
def withWork
    (h : UserHost S)
    (w : WorkId)
    (f : UserNativeWork S → UserNativeWork S) :
    UserHost S :=
  { h with works := Function.update h.works w (f (h.works w)) }

/- Start a goroutine. -/
def spawn (h : UserHost S) (t : HostTask S) : UserHost S :=
  { h with spawned := h.spawned ++ [t] }

/- Record an accepted session event. -/
def note (h : UserHost S) (e : SessionEvent) : UserHost S :=
  { h with hist := { h.hist with events := h.hist.events ++ [e] } }

/- The user has a linger record. -/
def lingeringLocked (h : UserHost S) (sid : S) : Bool :=
  (h.lingerRecords.lookup sid).isSome

end UserHost

/- The request and the policy that it was made under stand. -/
def UserSessionOrigin.currentLocked
    (o : UserSessionOrigin)
    (h : UserHost S) : Bool :=
  h.sessionRequests.lookup o.session = some o.request &&
    h.admissionRevision = o.revision

/- The reason of a launch still stands. -/
def Wanted.holds (h : UserHost S) : Wanted S → Bool
| .session origin => origin.currentLocked h
| .linger record revision =>
    h.lingerRevision = revision &&
      h.lingerRecords.lookup record.sid = some record

------------------------------------------------------------
-- Native Work
------------------------------------------------------------

namespace UserHost

def acceptUserWorkClassLocked
    (h : UserHost S)
    (cls : UserWorkClass) :
    Except String WorkId × UserHost S :=
  if h.closed then
    (.error errClosed, h)
  else if h.cfg.admissionHold ≠ "" ∧ cls.held then
    (.error
      ("user-manager admission is held: " ++ h.cfg.admissionHold), h)
  else if
      cls.limit ≤
        (h.nativeWork.filter
          (fun w => (h.works w).workClass = cls)).length then
    (.error errBusy, h)
  else
    (.ok h.nextWork,
      { h with
        works :=
          Function.update h.works h.nextWork { workClass := cls }
        nativeWork := h.nativeWork ++ [h.nextWork]
        nextWork := h.nextWork + 1 })

/- The token has been closed, or its close has failed. -/
def finishNativeUserWork
    (h : UserHost S)
    (w : WorkId)
    (token : Option (UserToken S))
    (err : Option String) :
    UserHost S :=
  match err with
  | none =>
      { h with nativeWork := h.nativeWork.erase w }.withWork w
        (fun work => { work with done := true })
  | some _ =>
      h.withWork w
        (fun work => { work with done := true, token := token })

/- The token that a finished piece of work has left open. -/
def retainedToken
    (h : UserHost S)
    (w : WorkId) : Option (UserToken S) :=
  if w ∈ h.nativeWork then (h.works w).token else none

/- A retained token has been closed. -/
def dropNativeUserWork (h : UserHost S) (w : WorkId) : UserHost S :=
  { h with nativeWork := h.nativeWork.erase w }

------------------------------------------------------------
-- Sessions
------------------------------------------------------------

def acceptSessionRequest
    (h : UserHost S)
    (session : Nat) :
    Except String (Option (Nat × WorkId)) × UserHost S :=
  if h.closed then
    (.ok none, h)
  else if
      session ∉ h.sessionObservations ∧
        maxInteractiveSessions ≤ h.sessionObservations.card then
    (.error
      ("observed session admission exceeds limit " ++
        toString maxInteractiveSessions), h)
  else if
      session ∉ h.sessions ∧
        maxInteractiveSessions ≤ Table.size h.sessions then
    (.error
      ("session admission exceeds limit " ++
        toString maxInteractiveSessions), h)
  else if
      session ∉ h.sessionRequests ∧
        maxInteractiveSessions ≤ Table.size h.sessionRequests then
    (.error
      ("pending session admission exceeds limit " ++
        toString maxInteractiveSessions), h)
  else
    let request := h.nextSessionRequest + 1
    match h.acceptUserWorkClassLocked .admission with
    | (.error err, h) =>
        (.error
          ("session " ++ toString session ++ " admission: " ++ err),
          { h with
            nextSessionRequest := request
            sessionRequests := h.sessionRequests.erase session }.note
            (.refused session))
    | (.ok work, h) =>
        (.ok (some (request, work)),
          { h with
            nextSessionRequest := request
            sessionRequests := h.sessionRequests.insert session request
            sessionObservations :=
              insert session h.sessionObservations }.note
            (.requested session request h.hist.events.length))

def finishSessionRequest
    (h : UserHost S)
    (session request : Nat) :
    UserHost S :=
  if h.sessionRequests.lookup session = some request then
    { h with sessionRequests := h.sessionRequests.erase session }
  else
    h

def acceptSessionIdentity
    (h : UserHost S)
    (origin : UserSessionOrigin)
    (sid : S) :
    Except String Bool × UserHost S :=
  if h.closed ∨ origin.currentLocked h = false then
    (.ok false, h)
  else if
      origin.session ∉ h.sessions ∧
        maxInteractiveSessions ≤ Table.size h.sessions then
    (.error
      ("session admission exceeds limit " ++
        toString maxInteractiveSessions), h)
  else
    (.ok true,
      { h with sessions := h.sessions.insert origin.session sid })

def recordLogoff
    (h : UserHost S)
    (session : Nat) :
    Option S × UserHost S :=
  (h.sessions.lookup session,
    { h with
      nextSessionRequest := h.nextSessionRequest + 1
      sessionRequests := h.sessionRequests.erase session
      sessions := h.sessions.erase session
      sessionObservations :=
        h.sessionObservations.erase session }.note
      (.loggedOff session))

/- Reserve a logon request for one enumerated session. -/
def reserveSession
    (since : Nat)
    (acc : List (Nat × Nat) × UserHost S)
    (session : Nat) :
    List (Nat × Nat) × UserHost S :=
  if (acc.1.lookup session).isSome then acc
  else
    let request := acc.2.nextSessionRequest + 1
    (acc.1 ++ [(session, request)],
      { acc.2 with
        nextSessionRequest := request
        sessionRequests :=
          acc.2.sessionRequests.insert session request }.note
        (.requested session request since))

/- Publish one authoritative enumeration of the sessions. -/
def acceptUserSessions
    (h : UserHost S)
    (w : HostWorkerId)
    (ids : List Nat)
    (epoch revision : Nat) :
    Option (List (Nat × Nat) × List S) × UserHost S :=
  if maxInteractiveSessions < ids.length then
    (none, h)
  else if
      h.closed ∨ h.nextSessionRequest ≠ epoch ∨
        h.admissionRevision ≠ revision then
    (none, h)
  else
    let since := h.hist.began w
    -- even an empty snapshot supersedes older enumerations
    let h :=
      { h with
        nextSessionRequest := h.nextSessionRequest + 1 }.note .enumerated
    let (requests, h) := ids.foldl (reserveSession since) ([], h)
    let present := fun id => (requests.lookup id).isSome
    (some (requests, h.bySID.keys),
      { h with
        sessions := Table.keep (fun id _ => present id) h.sessions
        sessionRequests :=
          Table.keep (fun id _ => present id) h.sessionRequests
        sessionObservations :=
          h.sessionObservations.filter (fun id => present id) ∪
            (requests.map Prod.fst).toFinset })

------------------------------------------------------------
-- Policies
------------------------------------------------------------

/- The policy denies the user and nothing else keeps them. -/
def revokes (h : UserHost S) (p : UserAdmission S) (sid : S) : Bool :=
  let (allow, probe) := p.decision sid
  !allow && !probe && !h.lingeringLocked sid

def acceptAdmissionPolicy
    (h : UserHost S)
    (p : UserAdmission S) :
    Except String (List S) × UserHost S :=
  if h.closed then
    (.error "user host is closed", h)
  else
    let h :=
      if p.deepEqual h.admission then h
      else
        { h with
          admission := p
          admissionRevision := h.admissionRevision + 1 }.note
          .policyChanged
    (.ok (h.bySID.keys.filter (h.revokes p)), h)

def acceptAdmissionRevocation
    (h : UserHost S)
    (sid : S) :
    (Option InstanceId × Bool) × UserHost S :=
  let revoke := h.revokes h.admission sid
  ((h.bySID.lookup sid, revoke),
    if revoke then
      { h with
        sessions := Table.keep (fun _ mapped => mapped ≠ sid) h.sessions }
    else
      h)

def acceptLingerMutation
    (h : UserHost S)
    (record : LingerRecord S)
    (enable : Bool) :
    UserHost S :=
  { h with
    lingerRevision := h.lingerRevision + 1
    lingerRecords :=
      if enable then h.lingerRecords.insert record.sid record
      else h.lingerRecords.erase record.sid }

/- Answers the users that no longer have a record. -/
def acceptLingerSnapshot
    (h : UserHost S)
    (accepted : Table S (LingerRecord S))
    (scanError : String) :
    List S × UserHost S :=
  if h.closed then ([], h)
  else
    (h.lingerRecords.keys.filter (fun sid => sid ∉ accepted),
      { h with
        lingerRevision :=
          if Table.agrees h.lingerRecords accepted then
            h.lingerRevision
          else
            h.lingerRevision + 1
        lingerRecords := accepted
        lingerKnown := true
        lingerError := scanError })

------------------------------------------------------------
-- Launches
------------------------------------------------------------

/- The user manager waits for its next start. -/
def recoveryDelayed
    (h : UserHost S)
    (now : Int)
    (sid : S) : Bool :=
  match h.instanceOf sid with
  | some inst => inst.proc.isNone && now < inst.nextStart
  | none => false

/- What a logon worker reads before it asks for the token. -/
def beginLogon
    (h : UserHost S)
    (session request : Nat)
    (now : Int) :
    Option (Nat × UserAdmission S) :=
  if h.closed ∨ h.sessionRequests.lookup session ≠ some request then
    none
  else if
      (h.sessions.lookup session).any (h.recoveryDelayed now) then
    none
  else
    some (h.admissionRevision, h.admission)

/- What the start of a lingering user reads first. -/
def beginLinger
    (h : UserHost S)
    (w : HostWorkerId)
    (record : LingerRecord S)
    (now : Int) :
    Except String Nat × UserHost S :=
  if h.lingerRecords.lookup record.sid ≠ some record then
    (.error "linger record is no longer current", h)
  else if h.recoveryDelayed now record.sid then
    (.error "user manager recovery is delayed", h)
  else
    (.ok h.lingerRevision,
      { h with
        hist :=
          { h.hist with
            started :=
              Function.update h.hist.started w
                (some (record, h.lingerRevision)) } })

def newUserInstanceLocked
    (h : UserHost S)
    (sid : S)
    (mode : String)
    (session : Nat)
    (delay now : Int) :
    UserInstance S where
  sid := sid
  mode := mode
  session := session
  admissionRevision := h.admissionRevision
  lingerRevision := h.lingerRevision
  restartDelay := delay
  nextStart := now + delay

/- Allocate an instance and record it for its user. -/
def track
    (h : UserHost S)
    (inst : UserInstance S) :
    InstanceId × UserHost S :=
  (h.instanceSequence,
    { h with
      instances := Function.update h.instances h.instanceSequence inst
      instanceSequence := h.instanceSequence + 1
      bySID := h.bySID.insert inst.sid h.instanceSequence })

def inspectUserLaunch
    (h : UserHost S)
    (sid : S)
    (wanted : Wanted S) :
    Except String (Option InstanceId) :=
  if h.closed ∨ wanted.holds h = false then
    .error errNotRequested
  else
    match h.bySID.lookup sid with
    | none =>
        if maxTrackedUserManagers ≤ Table.size h.bySID then
          .error errTracked
        else
          .ok none
    | some i =>
        if (h.instances i).uncertain then
          .error
            ("user manager termination is unconfirmed; " ++
              "retry cleanup")
        else
          .ok (some i)

def acceptUserLaunch
    (h : UserHost S)
    (sid : S)
    (mode : String)
    (session : Nat)
    (wanted : Wanted S)
    (now : Int) :
    Except String InstanceId × UserHost S :=
  if h.closed ∨ wanted.holds h = false then
    (.error errNotRequested, h)
  else if h.cfg.admissionHold ≠ "" then
    (.error
      ("user-manager admission is held: " ++ h.cfg.admissionHold), h)
  else if
      sid ∉ h.bySID ∧
        maxTrackedUserManagers ≤ Table.size h.bySID then
    (.error errTracked, h)
  else if
      (h.instanceOf sid).any (fun inst => now < inst.nextStart) then
    (.error "user manager recovery delayed", h)
  else
    let delay := userRecoveryDelay (h.instanceOf sid)
    let (i, h) :=
      h.track (h.newUserInstanceLocked sid mode session delay now)
    (.ok i, h)

/- Answers whether the launch has been superseded. -/
def applyUserLaunch
    (h : UserHost S)
    (sid : S)
    (i : InstanceId)
    (proc : Option UserProcId)
    (err : Option String)
    (wanted : Wanted S)
    (now : Int) :
    Bool × UserHost S :=
  let recorded := h.bySID.lookup sid = some i
  let superseded :=
    h.closed || !recorded || !wanted.holds h
  let h' :=
    h.withInstance i (fun inst =>
      { inst with
        -- even a failed or superseded creation remains owned
        proc := proc
        nextStart := now + inst.restartDelay
        err :=
          match proc, err with
          | none, none => "user manager launcher returned no process"
          | _, some message => message
          | _, none => inst.err
        uncertain :=
          inst.uncertain || (proc.isSome && err.isSome)
        startedAt :=
          if proc.isSome && err.isNone then some now
          else inst.startedAt })
  (superseded,
    { h' with
      bySID :=
        if proc.isNone && recorded && superseded then
          h'.bySID.erase sid
        else
          h'.bySID
      hist :=
        { h'.hist with
          inHand := Function.update h'.hist.inHand sid none } })

def observeUserAlive
    (h : UserHost S)
    (sid : S)
    (i : InstanceId)
    (proc : UserProcId)
    (sampled : Int) :
    UserHost S :=
  match (h.instances i).startedAt with
  | none => h
  | some started =>
      if h.bySID.lookup sid ≠ some i ∨
          (h.instances i).proc ≠ some proc ∨ sampled < started then
        h
      else
        h.withInstance i (fun inst =>
          { inst with
            aliveAt :=
              match inst.aliveAt with
              | none => some sampled
              | some alive => some (max alive sampled) })

------------------------------------------------------------
-- Cleanup
------------------------------------------------------------

def acceptUserCleanup
    (h : UserHost S)
    (i : InstanceId) :
    Option UserProcId × UserHost S :=
  ((h.instances i).proc,
    h.withInstance i (fun inst => { inst with uncertain := true }))

def applyUserCleanup
    (h : UserHost S)
    (sid : S)
    (i : InstanceId)
    (err : Option String)
    (retainRecovery : Bool) :
    UserHost S :=
  if h.bySID.lookup sid ≠ some i then h
  else
    match err with
    | some message =>
        h.withInstance i (fun inst => { inst with err := message })
    | none =>
        if retainRecovery && !h.closed then
          h.withInstance i (fun inst =>
            { inst with
              proc := none
              uncertain := false
              err := "user manager exited; awaiting recovery" })
        else
          { h with bySID := h.bySID.erase sid }

/- What a stop finds: nothing, or the instance to be killed. -/
def stopTarget
    (h : UserHost S)
    (sid : S)
    (onlyIdle : Bool) :
    Option InstanceId :=
  let i := h.bySID.lookup sid
  let uncertain := i.any (fun i => (h.instances i).uncertain)
  if onlyIdle && !h.closed && !uncertain then
    let (allow, probe) := h.admission.decision sid
    let inSession :=
      h.sessions.keys.any (fun id => h.sessions.lookup id = some sid)
    if (inSession && (allow || probe)) || h.lingeringLocked sid then
      none
    else
      i
  else
    i

def recordLingerTokenFailure
    (h : UserHost S)
    (sid : S)
    (revision : Nat)
    (message : String)
    (now : Int) :
    UserHost S :=
  if h.closed ∨ h.lingerRevision ≠ revision ∨
      h.lingeringLocked sid = false then
    h
  else if
      sid ∉ h.bySID ∧
        maxTrackedUserManagers ≤ Table.size h.bySID then
    h
  else if
      (h.instanceOf sid).any
        (fun previous => previous.proc.isSome || previous.err = "") then
    h
  else
    let delay := userRecoveryDelay (h.instanceOf sid)
    let inst := h.newUserInstanceLocked sid "" 0 delay now
    (h.track { inst with err := message }).2

/- Close admission for good. -/
def sealShutdownLocked (h : UserHost S) : UserHost S :=
  { h with
    closed := true
    sessions := ∅
    sessionRequests := ∅
    sessionObservations := ∅ }

def acceptUserShutdown (h : UserHost S) : List S × UserHost S :=
  (h.bySID.keys, h.sealShutdownLocked)

end UserHost

end Winunitd
