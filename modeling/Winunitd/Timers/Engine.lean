import Winunitd.Lib.Heap
import Winunitd.Lib.Keyed
import Winunitd.Timers.Schedule

/-
  The state of the timer engine, and its decisions.

  Every function here runs under the engine's lock.  The armed
  timers are objects: `ref` is the identity of one, which lasts
  from the arm that creates it to its disarm, while each arm
  gives it a new token.  The heap holds the installed deadlines
  by the identity of their items.

  Key definitions include:
    * `Armed`, `Engine`
    * `Engine.reschedule`
    * `Engine.popDueLocked`, `Engine.consumeLocked`
    * `Engine.arm`, `Engine.unitActive`, `Engine.clockChanged`
-/

------------------------------------------------------------
-- State
------------------------------------------------------------

namespace Winunitd

namespace Timers

open Lib (Keyed.find Keyed.modify Keyed.remove)

def maxTimerCallbacks : Nat := 32

def maxArmedTimers : Nat := 1024

def maxCalendarExpressions : Nat := 64

/- 250 milliseconds. -/
def admissionRetryDelay : Int := 250000000

/- The source arm and the target of a consumed deadline. -/
structure Fire where
  activationID : String
  name : String
  unit : String
  token : Nat
deriving DecidableEq, Repr

structure PendingRetry where
  event : Fire
  after : Int
deriving DecidableEq, Repr

/- An armed timer. -/
structure Armed (K : Type) where
  ref : Nat
  item : Option Nat
  planning : Bool
  loading : Bool
  storageError : String
  firing : Bool
  retry : Option PendingRetry
  token : Nat
  spec : Spec K
  rt : Runtime
  next : Time
  wallNext : Time
  ok : Bool
  gen : Nat
  schedGen : Nat

/- The name under which a timer is armed. -/
abbrev Armed.name {K : Type} (a : Armed K) : String :=
  a.spec.name

/- An installed deadline. -/
structure PqItem where
  name : String
  when : Time
  gen : Nat
deriving DecidableEq, Repr

/- What a fire callback's worker does next. -/
inductive FirePhase where
| check
| save
| settle (err : Option String)
| current
| calling
| finish
| done
deriving DecidableEq, Repr

/- A consumed deadline on its way to the callback. -/
structure FireWork where
  event : Fire
  rt : Runtime
  ref : Nat
  phase : FirePhase
deriving DecidableEq, Repr

/- What a call that records a result does next. -/
inductive ResultPhase where
| check
| save
| settle (err : Option String)
| apply
| done
deriving DecidableEq, Repr

structure ResultWork where
  event : Fire
  rt : Runtime
  ref : Nat
  phase : ResultPhase
deriving DecidableEq, Repr

/- What the calendar planner does next. -/
inductive PlanPhase (K : Type) where
| pick
| search (name : String) (ref gen clockGen : Nat)
    (spec : Spec K) (rt : Runtime)
| publish (name : String) (ref gen clockGen : Nat) (found : Deadline)

/- What the loader of stored records does next. -/
inductive LoadPhase where
| pick
| check (name : String) (ref : Nat)
| read (name : String) (ref : Nat)
| apply (name : String) (ref : Nat) (result : Except String Runtime)

/- A consumed deadline, and the triggers that were pending. -/
structure Consumed where
  ref : Nat
  event : Fire
  retried : Bool
  boot : Bool
  startup : Bool
deriving DecidableEq, Repr

/- What the engine was made with. -/
structure Config where
  namespaceText : String
  callback : Bool
  stored : Bool

/-
  The engine, its workers and the stored records.  A planner
  or a loader that exists is the flag of the same purpose.  The
  last two fields record the run: the records saved, and the
  deadlines consumed.
-/
structure Engine (K : Type) where
  clock : Reading
  armed : List (Armed K)
  pq : Lib.Heap Nat
  items : Nat → PqItem
  nextItem : Nat
  nextRef : Nat
  nextActivation : Nat
  nextArm : Nat
  nextGen : Nat
  clockGen : Nat
  activeFires : Nat
  running : Bool
  scheduleCursor : String
  planner : Option (PlanPhase K)
  loader : Option LoadPhase
  storageIO : Bool
  disk : String → Runtime
  fires : List FireWork
  results : List ResultWork
  saved : List (Fire × Runtime)
  consumed : List Consumed

namespace Engine

variable {K : Type}

/- The armed timer of a name. -/
def find (s : Engine K) (name : String) : Option (Armed K) :=
  Keyed.find Armed.name name s.armed

/- Write an armed timer back. -/
def put (s : Engine K) (a : Armed K) : Engine K :=
  { s with
    armed := Keyed.modify Armed.name a.name (fun _ => a) s.armed }

def names (s : Engine K) : List String :=
  s.armed.map Armed.name

------------------------------------------------------------
-- Deadlines
------------------------------------------------------------

/- The order of the heap. -/
def less (items : Nat → PqItem) (i j : Nat) : Bool :=
  if (items i).when.Same (items j).when then
    decide ((items i).name < (items j).name)
  else
    decide ((items i).when < (items j).when)

def monotonicWait (c : Reading) (spec : Spec K) (rt : Runtime) :
    Option Int :=
  let boot :=
    if spec.onBootSecSet = true ∧ rt.firedBoot = false then
      some (spec.onBootSec - c.sinceBoot)
    else none
  if spec.onStartupSecSet = true ∧ rt.firedStartup = false then
    let rem := spec.onStartupSec - c.sinceStart
    match boot with
    | some d => some (if rem < d then rem else d)
    | none => some rem
  else boot

/- A deadline that has passed on its own clock. -/
def ItemDue (c : Reading) (now : Time) (a : Armed K) : Prop :=
  match a.retry with
  | some r => r.after ≤ c.sinceStart
  | none =>
      BootPending a.spec a.rt c ∨ StartupPending a.spec a.rt c ∨
        (a.wallNext ≠ 0 ∧ a.wallNext ≤ now)

instance (c : Reading) (now : Time) (a : Armed K) :
    Decidable (ItemDue c now a) := by
  unfold ItemDue
  cases a.retry <;> infer_instance

/- The heap without the deadline of a timer. -/
def dequeued (s : Engine K) (a : Armed K) : Lib.Heap Nat :=
  match a.item with
  | none => s.pq
  | some it =>
      let i := s.pq.pos it
      if 0 ≤ i ∧ s.pq.arr[i.toNat]? = some it then
        (s.pq.remove (less s.items) i.toNat).2
      else s.pq

def removeDeadline (s : Engine K) (a : Armed K) :
    Engine K × Armed K :=
  ({ s with pq := s.dequeued a }, { a with item := none })

/- Install a deadline where there is none. -/
def enqueue
    (s : Engine K)
    (a : Armed K)
    (when : Time)
    (gen : Nat) :
    Engine K × Armed K :=
  let items :=
    Function.update s.items s.nextItem
      { name := a.name, when := when, gen := gen }
  ({ s with
      pq := s.pq.push (less items) s.nextItem
      items := items
      nextItem := s.nextItem + 1 },
    { a with item := some s.nextItem })

def installDeadline
    (s : Engine K)
    (a : Armed K)
    (when : Time)
    (gen : Nat) :
    Engine K × Armed K :=
  let (s, a) := s.removeDeadline a
  s.enqueue a when gen

/- Start the planner unless there is one. -/
def startPlanner (s : Engine K) : Engine K :=
  if s.running = true ∧ s.planner.isNone then
    { s with planner := some .pick }
  else s

/-
  Replace the deadline of a timer by a new plan.  Calendars
  are searched by the planner, everything else at once.
-/
def reschedule [Calendar K] (s : Engine K) (a : Armed K) :
    Engine K × Armed K :=
  let (s, a) := s.removeDeadline a
  let s := { s with nextGen := s.nextGen + 1 }
  let a :=
    { a with
      gen := s.nextGen
      planning := false
      ok := false
      next := 0
      wallNext := 0 }
  if a.loading = true ∨ a.storageError ≠ "" then (s, a)
  else
    match a.retry with
    | some r =>
        let next := s.clock.now + max 0 (r.after - s.clock.sinceStart)
        s.installDeadline
          { a with next := next, ok := true, schedGen := s.clockGen }
          next a.gen
    | none =>
        if a.spec.onCalendar ≠ [] then
          (s.startPlanner, { a with planning := true })
        else
          let found := nextDeadline a.spec a.rt s.clock
          let a :=
            { a with
              next := found.next.getD 0
              wallNext := found.wall
              ok := found.next.isSome
              schedGen := s.clockGen }
          match found.next with
          | some next => s.installDeadline a next a.gen
          | none => (s, a)

def rescheduleLocked [Calendar K] (s : Engine K) (a : Armed K) :
    Engine K :=
  let (s, a) := s.reschedule a
  s.put a

------------------------------------------------------------
-- Fires
------------------------------------------------------------

/- An item of a timer that is no longer planned so. -/
def Stale (s : Engine K) (it : Nat) : Prop :=
  match s.find (s.items it).name with
  | some a => (s.items it).gen ≠ a.gen
  | none => True

instance (s : Engine K) (it : Nat) : Decidable (s.Stale it) := by
  unfold Stale
  cases s.find (s.items it).name <;> infer_instance

/- Take stale items off the top of the heap. -/
def dropStaleAux : Nat → Engine K → Engine K
| 0, s => s
| fuel + 1, s =>
    match s.pq.arr.head? with
    | none => s
    | some it =>
        if s.Stale it then
          dropStaleAux fuel
            { s with pq := (s.pq.pop (less s.items)).2 }
        else s

def dropStaleLocked (s : Engine K) : Engine K :=
  dropStaleAux s.pq.arr.length s

/- A due item whose timer can be fired. -/
def Ready (s : Engine K) (now : Time) (it : Nat) : Prop :=
  match s.find (s.items it).name with
  | some a =>
      (s.items it).gen = a.gen ∧ a.firing = false ∧
        s.activeFires < maxTimerCallbacks ∧ ItemDue s.clock now a
  | none => False

instance (s : Engine K) (now : Time) (it : Nat) :
    Decidable (s.Ready now it) := by
  unfold Ready
  cases s.find (s.items it).name <;> infer_instance

/- The position of the first ready item in the heap's order. -/
def bestReady (s : Engine K) (now : Time) : Option Nat :=
  (List.range s.pq.arr.length).foldl
    (fun best i =>
      match s.pq.arr[i]? with
      | none => best
      | some it =>
          if s.Ready now it then
            match best with
            | none => some i
            | some b =>
                if s.pq.lessAt (less s.items) i b = true then some i
                else best
          else best)
    none

structure DueTimer where
  name : String
  ref : Nat
  generation : Nat
  scheduled : Time

/- The time a deadline was scheduled for. -/
def scheduledAt
    (s : Engine K)
    (now : Time)
    (a : Armed K)
    (it : Nat) : Time :=
  match a.retry with
  | some _ => (s.items it).when
  | none =>
      match monotonicWait s.clock a.spec a.rt with
      | some wait =>
          if wait ≤ 0 ∧ (a.wallNext = 0 ∨ now + wait < a.wallNext) then
            now + wait
          else a.wallNext
      | none => a.wallNext

/- Take the first due deadline off the heap. -/
def popDueLocked (s : Engine K) (now : Time) :
    Option (DueTimer × Engine K) :=
  let s := s.dropStaleLocked
  match s.bestReady now with
  | none => none
  | some best =>
      let (it, pq) := s.pq.remove (less s.items) best
      let s := { s with pq := pq }
      match it with
      | none => none
      | some it =>
          match s.find (s.items it).name with
          | none => none
          | some a =>
              let due : DueTimer :=
                { name := a.name
                  ref := a.ref
                  generation := (s.items it).gen
                  scheduled := s.scheduledAt now a it }
              if a.item = some it then
                some (due, s.put { a with item := none })
              else some (due, s)

/- The event of a deadline, and the timer that has fired. -/
def accept
    (cfg : Config)
    (s : Engine K)
    (a : Armed K)
    (due : DueTimer)
    (actual : Time) :
    Fire × Armed K × Nat :=
  match a.retry with
  | some r =>
      let rt :=
        if r.event.activationID ≠ "" then
          { a.rt with
            lastActual := actual
            activation := { a.rt.activation with actual := actual } }
        else a.rt
      (r.event, { a with retry := none, rt := rt }, s.nextActivation)
  | none =>
      let rt := markFired a.spec a.rt s.clock due.scheduled actual
      let event : Fire :=
        { activationID := ""
          name := a.name
          unit := a.spec.unit
          token := a.token }
      if a.spec.persistent = true ∧ a.spec.onCalendar ≠ [] then
        let n := s.nextActivation + 1
        let id := cfg.namespaceText ++ "-" ++ toString n
        let activation : Activation :=
          { id := id
            unit := event.unit
            result := .pending
            scheduled := due.scheduled
            actual := actual }
        ({ event with activationID := id },
          { a with rt := { rt with activation := activation } }, n)
      else (event, { a with rt := rt }, s.nextActivation)

/- What the run records of a consumed deadline. -/
def taken (s : Engine K) (a : Armed K) (event : Fire) : Consumed where
  ref := a.ref
  event := event
  retried := a.retry.isSome
  boot := decide (BootPending a.spec a.rt s.clock)
  startup := decide (StartupPending a.spec a.rt s.clock)

/- Accept a deadline and start its worker. -/
def launch
    [Calendar K]
    (cfg : Config)
    (s : Engine K)
    (a : Armed K)
    (due : DueTimer)
    (actual : Time) :
    Engine K :=
  let (event, a', n) := s.accept cfg a due actual
  let a' := { a' with firing := true }
  let work : FireWork :=
    { event := event
      rt := a'.rt
      ref := a'.ref
      phase := .check }
  let s :=
    { s with
      nextActivation := n
      activeFires := s.activeFires + 1
      fires := s.fires ++ [work]
      consumed := s.consumed ++ [s.taken a event] }
  if a'.token = event.token then s.rescheduleLocked a'
  else s.put a'

/- Consume a popped deadline, if it is still the timer's. -/
def consumeLocked
    [Calendar K]
    (cfg : Config)
    (s : Engine K)
    (due : DueTimer)
    (actual : Time) :
    Engine K :=
  if s.running = false then s
  else
    match s.find due.name with
    | none => s
    | some a =>
        if a.ref ≠ due.ref ∨ a.gen ≠ due.generation then s
        else if a.firing = true ∨ maxTimerCallbacks ≤ s.activeFires then
          let (s, a) :=
            s.installDeadline a due.scheduled due.generation
          s.put a
        else s.launch cfg a due actual

/- Consume every due deadline. -/
def fireDueAux
    [Calendar K]
    (cfg : Config)
    (now : Time) :
    Nat → Engine K → Engine K
| 0, s => s
| fuel + 1, s =>
    match s.popDueLocked now with
    | none => s
    | some (due, s) =>
        fireDueAux cfg now fuel (s.consumeLocked cfg due now)

def fireDueLocked [Calendar K] (cfg : Config) (s : Engine K) :
    Engine K :=
  fireDueAux cfg s.clock.now (s.pq.arr.length + 1) s

------------------------------------------------------------
-- Requests
------------------------------------------------------------

/- Start the loader unless there is one. -/
def startLoader (s : Engine K) : Engine K :=
  if s.loader.isNone then { s with loader := some .pick } else s

/- A timer that is armed for the first time. -/
def newArm (cfg : Config) (s : Engine K) (spec : Spec K) :
    Armed K where
  ref := s.nextRef
  item := none
  planning := false
  loading := cfg.stored
  storageError := ""
  firing := false
  retry := none
  token := s.nextArm + 1
  spec := spec
  rt := .empty
  next := 0
  wallNext := 0
  ok := false
  gen := 0
  schedGen := 0

/- The stored record is to be read again. -/
def NeedsLoad (a : Armed K) : Prop :=
  a.storageError ≠ "" ∨ a.rt.activation.result = .pending

instance (a : Armed K) : Decidable (NeedsLoad a) :=
  inferInstanceAs (Decidable (_ ∨ _))

/- A timer that is armed again. -/
def refreshed (a : Armed K) (token : Nat) (spec : Spec K) : Armed K :=
  let a' :=
    { a with
      token := token
      firing := false
      retry := none
      spec := spec }
  if NeedsLoad a then { a' with storageError := "", loading := true }
  else a'

/- The engine takes up an arm, with the loader if it is needed. -/
def enrol
    (s : Engine K)
    (nextRef : Nat)
    (arms : List (Armed K))
    (load : Prop)
    [Decidable load] :
    Engine K :=
  let s :=
    { s with
      nextArm := s.nextArm + 1
      nextRef := nextRef
      armed := arms }
  if load then s.startLoader else s

/- Start or refresh a timer. -/
def arm
    [Calendar K]
    (cfg : Config)
    (s : Engine K)
    (spec : Spec K) :
    Engine K :=
  if spec.name = "" ∨
      maxCalendarExpressions < spec.onCalendar.length ∨
      s.running = false then
    s
  else
    match s.find spec.name with
    | some a =>
        (s.enrol s.nextRef s.armed (NeedsLoad a)).rescheduleLocked
          (refreshed a (s.nextArm + 1) spec)
    | none =>
        if maxArmedTimers ≤ s.armed.length then s
        else
          (s.enrol (s.nextRef + 1) (s.armed ++ [newArm cfg s spec])
              (cfg.stored = true)).rescheduleLocked
            (newArm cfg s spec)

/- Stop a timer; what is stored stays. -/
def disarm (s : Engine K) (name : String) : Engine K :=
  match s.find name with
  | none => s
  | some a =>
      { s with
        pq := s.dequeued a
        armed := Keyed.remove Armed.name name s.armed }

/- Disarm every timer that is not to be kept. -/
def retain
    (s : Engine K)
    (keep : List String)
    (order : List String) :
    Engine K :=
  order.foldl
    (fun s name => if name ∈ keep then s else s.disarm name) s

/- The unit of a timer became active. -/
def noteActive
    [Calendar K]
    (unit : String)
    (when : Time)
    (s : Engine K)
    (name : String) :
    Engine K :=
  match s.find name with
  | none => s
  | some a =>
      if a.spec.unit = unit ∧ a.spec.onUnitActiveSecSet = true then
        s.rescheduleLocked
          { a with rt := { a.rt with lastUnitActive := when } }
      else s

def unitActive
    [Calendar K]
    (s : Engine K)
    (unit : String)
    (when : Time)
    (order : List String) :
    Engine K :=
  if unit = "" then s
  else
    let when := if when = 0 then s.clock.now else when
    order.foldl (noteActive unit when) s

def wallSensitive (spec : Spec K) : Prop :=
  spec.onCalendar ≠ [] ∨ spec.onUnitActiveSecSet = true

instance (spec : Spec K) : Decidable (wallSensitive spec) :=
  inferInstanceAs (Decidable (_ ∨ _))

/-
  Plan a timer again after a change of the wall clock.  A
  deadline that is due is retained.
-/
def replan [Calendar K] (s : Engine K) (name : String) : Engine K :=
  match s.find name with
  | none => s
  | some a =>
      if ¬ wallSensitive a.spec then s
      else if a.item.isSome = true ∧ ItemDue s.clock s.clock.now a then
        s.put { a with schedGen := s.clockGen }
      else s.rescheduleLocked a

/- The clocks show `c` when the timers are planned again. -/
def clockChanged
    [Calendar K]
    (cfg : Config)
    (s : Engine K)
    (c : Reading)
    (order : List String) :
    Engine K :=
  if s.running = false then s
  else
    let s := { s with clockGen := s.clockGen + 1 }
    let s := s.fireDueLocked cfg
    order.foldl replan { s with clock := c }

/- Retain an activation that was not admitted. -/
def retry [Calendar K] (s : Engine K) (event : Fire) : Engine K :=
  match s.find event.name with
  | none => s
  | some a =>
      if s.running = false ∨ a.token ≠ event.token then s
      else
        s.rescheduleLocked
          { a with
            retry :=
              some
                { event := event
                  after := s.clock.sinceStart + admissionRetryDelay } }

/- The event still belongs to the current arm. -/
def Current (s : Engine K) (name : String) (token : Nat) : Prop :=
  match s.find name with
  | none => False
  | some a =>
      s.running = true ∧ a.loading = false ∧ a.storageError = "" ∧
        a.token = token

instance (s : Engine K) (name : String) (token : Nat) :
    Decidable (s.Current name token) := by
  unfold Current
  cases s.find name <;> infer_instance

/- Begin to record the result of an activation. -/
def recordResult (s : Engine K) (event : Fire) (success : Bool) :
    Engine K :=
  match s.find event.name with
  | none => s
  | some a =>
      if s.running = false ∨ a.loading = true ∨ a.storageError ≠ "" ∨
          a.token ≠ event.token then
        s
      else
        let rt :=
          if success = true then
            { a.rt with lastSuccess := s.clock.now }
          else a.rt
        if event.activationID ≠ "" then
          if a.rt.activation.id ≠ event.activationID ∨
              a.rt.activation.result ≠ .pending then
            s
          else
            let result := if success then .success else .failed
            { s with
              results :=
                s.results ++
                  [{ event := event
                     rt :=
                       { rt with
                         activation :=
                           { rt.activation with result := result } }
                     ref := a.ref
                     phase := .check }] }
        else if a.rt.activation.result = .pending ∨
            success = false then
          s
        else
          { s with
            results :=
              s.results ++
                [{ event := event
                   rt := rt
                   ref := a.ref
                   phase := .check }] }

end Engine

end Timers

end Winunitd
