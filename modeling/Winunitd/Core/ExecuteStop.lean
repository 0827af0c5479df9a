import Winunitd.Core.Execute

/-
  Execution of stop transactions.

  A stop is best effort: a failed stop does not keep the
  units that wait for it from being stopped.  As in a start,
  every launched job runs in a goroutine of its own and
  sends its result to a channel.

  Key definitions include:
    * `StopExecutor`
    * `StopExec`, `StopExec.step`
    * `Transaction.executeStopWithLimit`
-/

------------------------------------------------------------
-- The Stop Executor
------------------------------------------------------------

namespace Winunitd

namespace Core

variable {N : Type}
variable [UnitNames N]

/-
  The state of one stop execution; `spawned` holds the stop
  goroutines that have not called the stopper yet.
-/
structure StopExecutor (N : Type) where
  states : N → State
  errors : N → Option (Err N)
  stopped : List N
  launched : N → Bool
  released : N → Bool
  remaining : N → Nat
  inflight : Nat
  spawned : List N

namespace StopExecutor

def start (tx : Transaction N) : StopExecutor N where
  states := fun _ => .active
  errors := fun _ => none
  stopped := []
  launched := fun _ => false
  released := fun _ => false
  remaining := fun n => (tx.waitsFor n).length
  inflight := 0
  spawned := []

/- Let go of the jobs that wait for `name`, once. -/
def releaseAfter
    (tx : Transaction N)
    (ex : StopExecutor N)
    (name : N) :
    StopExecutor N :=
  if ex.released name then ex
  else
    { ex with
      released := Function.update ex.released name true
      remaining :=
        Executor.countDown ex.remaining (tx.unblock name) }

/- Launch a stop that waits for nothing. -/
def tryLaunch
    (ex : StopExecutor N)
    (name : N) :
    StopExecutor N :=
  if ex.launched name then ex
  else if 0 < ex.remaining name then ex
  else
    { ex with
      launched := Function.update ex.launched name true
      states := Function.update ex.states name .deactivating
      stopped := ex.stopped ++ [name]
      inflight := ex.inflight + 1
      spawned := ex.spawned ++ [name] }

/- Record the first error of a job, which is inactive then. -/
def markDone
    (tx : Transaction N)
    (ex : StopExecutor N)
    (name : N)
    (res : Option (Err N)) :
    StopExecutor N :=
  let errors :=
    match res, ex.errors name with
    | some err, none =>
        Function.update ex.errors name (some err)
    | _, _ => ex.errors
  releaseAfter tx
    { ex with
      errors := errors
      states := Function.update ex.states name .inactive }
    name

def onFinish
    (tx : Transaction N)
    (ex : StopExecutor N)
    (name : N)
    (res : Option (Err N)) :
    StopExecutor N :=
  markDone tx (releaseAfter tx ex name) name res

/- The error of the first root that has one. -/
def rootError
    (tx : Transaction N)
    (ex : StopExecutor N) :
    Option (Err N) :=
  tx.roots.findSome? ex.errors

end StopExecutor

------------------------------------------------------------
-- Interleavings
------------------------------------------------------------

/-
  A running stop execution.  `outstanding` holds the stopper
  calls in progress and `finished` the channel.
-/
structure StopExec (N : Type) where
  phase : Phase N
  ex : StopExecutor N
  outstanding : List N
  finished : List (N × Option (Err N))

/- What can happen next. -/
inductive StopLabel (N : Type) where
| invoke (name : N)
| finish (name : N) (res : Option (Err N))
| tick

namespace StopExec

open StopExecutor

/- Take the next result from the channel. -/
def receive
    (tx : Transaction N)
    (s : StopExec N)
    (next : Phase N) :
    Option (StopExec N) :=
  match s.finished with
  | [] => none
  | (name, res) :: rest =>
      some
        { s with
          phase := next
          finished := rest
          ex :=
            onFinish tx
              { s.ex with inflight := s.ex.inflight - 1 } name res }

def notStopped (name : N) : Err N :=
  .text ("unit " ++ UnitNames.quote name ++ " was not stopped")

/- One step of the executor's own goroutine. -/
def tick
    (tx : Transaction N)
    (workers : Nat)
    (s : StopExec N) :
    Option (StopExec N) :=
  match s.phase with
  | .head => some { s with phase := .launching tx.jobNames }
  | .launching [] => some { s with phase := .awaiting }
  | .launching (name :: rest) =>
      if workers ≤ s.ex.inflight then
        some { s with phase := .awaiting }
      else
        some
          { s with
            phase := .launching rest
            ex := s.ex.tryLaunch name }
  | .awaiting =>
      if s.ex.inflight = 0 then some { s with phase := .draining }
      else s.receive tx .head
  | .draining =>
      if s.ex.inflight = 0 then
        some
          { s with
            phase := .done
            ex :=
              tx.jobNames.foldl
                (fun ex name =>
                  if ex.launched name then ex
                  else markDone tx ex name (some (notStopped name)))
                s.ex }
      else
        s.receive tx .draining
  | .done => none

/- One step of any goroutine. -/
def step
    (tx : Transaction N)
    (workers : Nat)
    (s : StopExec N) :
    StopLabel N → Option (StopExec N)
| .invoke name =>
    if name ∈ s.ex.spawned then
      some
        { s with
          ex := { s.ex with spawned := s.ex.spawned.erase name }
          outstanding := s.outstanding ++ [name] }
    else
      none
| .finish name res =>
    if name ∈ s.outstanding then
      some
        { s with
          outstanding := s.outstanding.erase name
          finished := s.finished ++ [(name, res)] }
    else
      none
| .tick => s.tick tx workers

end StopExec

/- The stop execution of a plan at its first step. -/
def Transaction.executeStopWithLimit
    (tx : Transaction N)
    (workers : Nat) :
    Except (ExecuteError N) (StopExec N) :=
  if workers < 1 then .error .noWorkers
  else
    match tx.validate with
    | .error err => .error (.plan err)
    | .ok tx =>
        .ok
          { phase := .head
            ex := .start tx
            outstanding := []
            finished := [] }

end Core

end Winunitd
