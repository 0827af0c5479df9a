import Winunitd.Core.Errors
import Winunitd.Core.Transaction
import Winunitd.Lib.Transition

/-
  Execution of start transactions.

  One goroutine owns the executor: it launches the jobs that
  wait for nothing more, receives results, and propagates
  failures along `Requires=` and `BindsTo=`.  Every launched
  job runs in a goroutine of its own, which calls the
  starter and sends its result to a buffered channel.  The
  transition system interleaves these goroutines with the
  cancellation of the context.

  Key definitions include:
    * `State`, `Executor`
    * `markFailed`, `tryLaunch`, `onFinish`
    * `Exec`, `Exec.step`
    * `executor`
-/

------------------------------------------------------------
-- The Executor
------------------------------------------------------------

namespace Winunitd

namespace Core

/- Lifecycle states of a unit. -/
inductive State where
| inactive
| activating
| active
| deactivating
| failed
deriving DecidableEq, Repr

variable {N : Type}
variable [UnitNames N]

/-
  The state of one execution.  `states`, `errors` and
  `started` are the run it reports; `rejected` is what the
  rejection observer was told; `spawned` holds the start
  goroutines that have not called the starter yet.
-/
structure Executor (N : Type) where
  states : N → State
  errors : N → Option (Err N)
  started : List N
  launched : N → Bool
  released : N → Bool
  remaining : N → Nat
  inflight : Nat
  rejected : List (N × Err N)
  spawned : List N

namespace Transaction

/- The jobs that wait for `dep`. -/
def unblock (tx : Transaction N) (dep : N) : List N :=
  tx.jobNames.flatMap (fun name =>
    ((tx.waitsFor name).filter (fun d => d = dep)).map
      (fun _ => name))

end Transaction

namespace Executor

/- The executor of a plan before its first launch. -/
def start (tx : Transaction N) : Executor N where
  states := fun _ => .inactive
  errors := fun _ => none
  started := []
  launched := fun _ => false
  released := fun _ => false
  remaining := fun n => (tx.waitsFor n).length
  inflight := 0
  rejected := []
  spawned := []

def setState (ex : Executor N) (n : N) (s : State) : Executor N :=
  { ex with states := Function.update ex.states n s }

/- Count one predecessor less for each listed job. -/
def countDown (remaining : N → Nat) (succs : List N) : N → Nat :=
  succs.foldl
    (fun rem succ => Function.update rem succ (rem succ - 1))
    remaining

/- Let go of the jobs that wait for `name`, once. -/
def releaseAfter
    (tx : Transaction N)
    (ex : Executor N)
    (name : N) :
    Executor N :=
  if ex.released name then ex
  else
    { ex with
      released := Function.update ex.released name true
      remaining := countDown ex.remaining (tx.unblock name) }

/- The error of the first failed requirement in the plan. -/
def requiresFailed
    (tx : Transaction N)
    (ex : Executor N)
    (name : N) :
    Option (Err N) :=
  match tx.g.nodeAt name with
  | none => none
  | some n =>
      n.startRequireNames.findSome? (fun req =>
        if req ∈ tx.jobNames then
          (ex.errors req).map (Err.dependency name req)
        else
          none)

/- The job is queued or starting. -/
def jobNotYetStarted (ex : Executor N) (name : N) : Bool :=
  match ex.states name with
  | .inactive | .activating => true
  | _ => false

/- Record the first error of a job. -/
def recordError
    (ex : Executor N)
    (name : N)
    (err : Err N) :
    Executor N :=
  { ex with
    errors := Function.update ex.errors name (some err)
    states := Function.update ex.states name .failed }

/- Tell the observer about a job that was never launched. -/
def reject
    (tx : Transaction N)
    (ex : Executor N)
    (name : N)
    (err : Err N) :
    Executor N :=
  if ex.launched name then ex
  else
    releaseAfter tx
      { ex with rejected := ex.rejected ++ [(name, err)] } name

/- `other` is a job that requires `name` to start. -/
def dependsOn (tx : Transaction N) (other name : N) : Bool :=
  match tx.g.nodeAt other with
  | none => false
  | some n => n.startRequiresName name

/-
  Fail a job and the jobs not yet started that require it.
  Each level records one more error, so the number of jobs
  bounds the depth.
-/
def markFailed (tx : Transaction N) :
    Nat → Executor N → N → Err N → Executor N
| 0, ex, _, _ => ex
| fuel + 1, ex, name, err =>
    if ¬ ex.jobNotYetStarted name ∧ ex.states name ≠ .failed then
      -- Already active: a running unit is not failed here.
      ex
    else if (ex.errors name).isSome then
      ex.setState name .failed
    else
      tx.jobNames.foldl
        (fun ex other =>
          if other = name then ex
          else if ¬ dependsOn tx other name then ex
          else if ¬ ex.jobNotYetStarted other then ex
          else
            markFailed tx fuel ex other (.dependency other name err))
        (reject tx (ex.recordError name err) name err)

/- Fuel for a failure: a level for each job and one more. -/
def failFuel (tx : Transaction N) : Nat :=
  tx.jobNames.length + 1

def fail
    (tx : Transaction N)
    (ex : Executor N)
    (name : N)
    (err : Err N) :
    Executor N :=
  markFailed tx (failFuel tx) ex name err

/- Launch a job that waits for nothing and may start. -/
def tryLaunch
    (tx : Transaction N)
    (ex : Executor N)
    (name : N) :
    Executor N :=
  if ex.launched name then ex
  else if ex.states name = .failed then ex
  else if 0 < ex.remaining name then ex
  else
    match requiresFailed tx ex name with
    | some err => fail tx ex name err
    | none =>
        { ex with
          launched := Function.update ex.launched name true
          states := Function.update ex.states name .activating
          started := ex.started ++ [name]
          inflight := ex.inflight + 1
          spawned := ex.spawned ++ [name] }

/- Process the result of a start. -/
def onFinish
    (tx : Transaction N)
    (ex : Executor N)
    (name : N)
    (res : Option (Err N)) :
    Executor N :=
  let ex := releaseAfter tx ex name
  match res with
  | some err =>
      if err.isSkipped then ex.setState name .inactive
      else fail tx ex name err
  | none =>
      if ex.states name = .failed then ex
      else
        match requiresFailed tx ex name with
        | some err => fail tx ex name err
        | none => ex.setState name .active

/- Fail the listed jobs that are queued and not launched. -/
def failQueued
    (tx : Transaction N)
    (err : N → Err N)
    (ex : Executor N)
    (names : List N) :
    Executor N :=
  names.foldl
    (fun ex name =>
      if ex.states name = .inactive ∧ ex.launched name = false then
        fail tx ex name (err name)
      else
        ex)
    ex

/- The error of the first root that has one. -/
def rootError
    (tx : Transaction N)
    (ex : Executor N) :
    Option (Err N) :=
  tx.roots.findSome? ex.errors

end Executor

------------------------------------------------------------
-- Interleavings
------------------------------------------------------------

/- Where the executor's own goroutine is. -/
inductive Phase (N : Type) where
| head
| launching (rest : List N)
| awaiting
| draining
| done
deriving DecidableEq, Repr

/-
  A running execution.  `outstanding` holds the starter
  calls in progress and `finished` the channel.  The last two
  fields record the run: `processed` what the executor took
  from the channel, `invoked` the starter calls ever made.
-/
structure Exec (N : Type) where
  phase : Phase N
  ex : Executor N
  ctxErr : Option (Err N)
  outstanding : List N
  finished : List (N × Option (Err N))
  processed : List (N × Option (Err N))
  invoked : List N

/- What can happen next. -/
inductive ExecLabel (N : Type) where
| cancel (deadline : Bool)
| invoke (name : N)
| finish (name : N) (res : Option (Err N))
| tick
deriving DecidableEq, Repr

namespace Exec

open Executor

/- Results of starter calls that have returned. -/
def results (s : Exec N) : List (N × Option (Err N)) :=
  s.processed ++ s.finished

/- Take the next result from the channel. -/
def receive
    (tx : Transaction N)
    (s : Exec N)
    (next : Phase N) :
    Option (Exec N) :=
  match s.finished with
  | [] => none
  | (name, res) :: rest =>
      some
        { s with
          phase := next
          finished := rest
          processed := s.processed ++ [(name, res)]
          ex :=
            onFinish tx
              { s.ex with inflight := s.ex.inflight - 1 } name res }

/- The error of a job that the loop has never reached. -/
def notStarted (name : N) : Err N :=
  .text ("unit " ++ UnitNames.quote name ++ " was not started")

/- One step of the executor's own goroutine. -/
def tick
    (tx : Transaction N)
    (workers : Nat)
    (s : Exec N) :
    Option (Exec N) :=
  match s.phase with
  | .head =>
      match s.ctxErr with
      | some err =>
          some
            { s with
              phase := .draining
              ex := failQueued tx (fun _ => err) s.ex tx.jobNames }
      | none => some { s with phase := .launching tx.jobNames }
  | .launching [] => some { s with phase := .awaiting }
  | .launching (name :: rest) =>
      if workers ≤ s.ex.inflight then
        some { s with phase := .awaiting }
      else
        some
          { s with
            phase := .launching rest
            ex := tryLaunch tx s.ex name }
  | .awaiting =>
      if s.ex.inflight = 0 then some { s with phase := .draining }
      else s.receive tx .head
  | .draining =>
      if s.ex.inflight = 0 then
        some
          { s with
            phase := .done
            ex := failQueued tx notStarted s.ex tx.jobNames }
      else
        s.receive tx .draining
  | .done => none

/- One step of any goroutine or of the context. -/
def step
    (tx : Transaction N)
    (workers : Nat)
    (s : Exec N) :
    ExecLabel N → Option (Exec N)
| .cancel deadline =>
    if s.ctxErr = none then
      some
        { s with
          ctxErr :=
            some (if deadline then .deadlineExceeded
              else .canceled) }
    else
      none
| .invoke name =>
    if name ∈ s.ex.spawned then
      some
        { s with
          ex := { s.ex with spawned := s.ex.spawned.erase name }
          outstanding := s.outstanding ++ [name]
          invoked := s.invoked ++ [name] }
    else
      none
| .finish name res =>
    if name ∈ s.outstanding then
      some
        { s with
          outstanding := s.outstanding.erase name
          finished := s.finished ++ [(name, res)] }
    else
      none
| .tick => s.tick tx workers

end Exec

/- Why an execution is refused before it begins. -/
inductive ExecuteError (N : Type) where
| noWorkers
| plan (err : PlanError N)

def ExecuteError.error : ExecuteError N → String
| .noWorkers => "transaction worker limit must be positive"
| .plan err => err.error

/- The execution of a plan at its first step. -/
def Transaction.executeWithLimit
    (tx : Transaction N)
    (workers : Nat) :
    Except (ExecuteError N) (Exec N) :=
  if workers < 1 then .error .noWorkers
  else
    match tx.validate with
    | .error err => .error (.plan err)
    | .ok tx =>
        .ok
          { phase := .head
            ex := .start tx
            ctxErr := none
            outstanding := []
            finished := []
            processed := []
            invoked := [] }

/- All executions of a plan with a worker limit. -/
def executor
    (tx : Transaction N)
    (workers : Nat) :
    Lib.System (Exec N) (ExecLabel N) where
  init s := tx.executeWithLimit workers = .ok s
  step := Exec.step tx workers

end Core

end Winunitd
