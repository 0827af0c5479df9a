import Winunitd.Lib.Transition
import Winunitd.Timers.Engine

/-
  The workers of the timer engine and its runs.

  The planner, the loader, the workers of the callbacks and the
  calls that record results take the engine's lock for single
  steps.  Reading and writing stored records happens outside it
  under the lock of the storage; no decision looks at that lock,
  so taking it and the check that follows are one step.  One
  handler reads the clocks once, except for the change of the
  clock, which reads them again.

  Key definitions include:
    * `Engine.fireStep`, `Engine.persistSettle`
    * `Engine.loadApply`, `Engine.planPublish`
    * `Label`, `Engine.step`
    * `timing`
-/

------------------------------------------------------------
-- Stored Records
------------------------------------------------------------

namespace Winunitd

namespace Timers

/- What of a timer's state is stored; no reading is. -/
def Runtime.persisted (rt : Runtime) : Runtime :=
  { rt with
    activation :=
      { rt.activation with
        scheduled := rt.activation.scheduled.stored
        actual := rt.activation.actual.stored }
    lastScheduled := rt.lastScheduled.stored
    lastActual := rt.lastActual.stored
    lastSuccess := rt.lastSuccess.stored
    lastUnitActive := 0
    firedBoot := false
    firedStartup := false }

/- Characters that the name of a stored unit does not have. -/
def unitForbidden : List Char :=
  ['\\', '/', ':', '\x00', '\r', '\n']

def validateActivation (a : Activation) : Option String :=
  if a.id = "" ∨ 128 < a.id.utf8ByteSize ∨ 255 < a.unit.utf8ByteSize ∨
      a.unit.toList.any (unitForbidden.contains ·) = true ∨
      a.scheduled = 0 ∨ a.actual = 0 then
    some "invalid timer activation intent"
  else if a.result = .none then
    some "invalid timer activation result"
  else none

/- The error that a record has in itself. -/
def Runtime.invalid (rt : Runtime) : Option String :=
  if rt.activation = .empty then none
  else validateActivation rt.activation

/-
  How a call of the store ends: without an error, or with one,
  which has a text; a failed write may have replaced the
  record.
-/
inductive StoreResult where
| done
| failed (text : String) (written : Bool)
deriving DecidableEq, Repr

namespace Engine

variable {K : Type}

/- Write a record. -/
def save
    (cfg : Config)
    (s : Engine K)
    (name : String)
    (rt : Runtime)
    (r : StoreResult) :
    Option (Engine K × Option String) :=
  let written := Function.update s.disk name rt.persisted
  if cfg.stored = false then some (s, none)
  else
    match rt.invalid, r with
    | some text, _ => some (s, some text)
    | none, .done => some ({ s with disk := written }, none)
    | none, .failed text wrote =>
        if text = "" then none
        else if wrote = true then
          some ({ s with disk := written }, some text)
        else some (s, some text)

/- Read a record. -/
def load
    (cfg : Config)
    (s : Engine K)
    (name : String)
    (r : StoreResult) :
    Option (Except String Runtime) :=
  if cfg.stored = false then some (.ok .empty)
  else
    match r with
    | .failed text _ => if text = "" then none else some (.error text)
    | .done =>
        match (s.disk name).invalid with
        | some text => some (.error text)
        | none => some (.ok (s.disk name))

------------------------------------------------------------
-- Persistence
------------------------------------------------------------

/- The event may still be saved. -/
def MaySave (s : Engine K) (event : Fire) : Prop :=
  match s.find event.name with
  | none => False
  | some a =>
      s.running = true ∧ a.token = event.token ∧
        a.storageError = "" ∧
        (event.activationID ≠ "" →
          a.rt.activation.id = event.activationID)

instance (s : Engine K) (event : Fire) :
    Decidable (s.MaySave event) := by
  unfold MaySave
  cases s.find event.name <;> infer_instance

/-
  After a write: an error suspends the timer.  The second
  result is whether the record is saved for the current arm.
-/
def persistSettle
    [Calendar K]
    (s : Engine K)
    (event : Fire)
    (ref : Nat)
    (err : Option String) :
    Engine K × Bool :=
  let s := { s with storageIO := false }
  match s.find event.name with
  | none => (s, false)
  | some a =>
      if s.running = false ∨ a.ref ≠ ref ∨ a.token ≠ event.token then
        (s, false)
      else
        match err with
        | some text =>
            (s.rescheduleLocked { a with storageError := text }, false)
        | none => (s, true)

def setFire (s : Engine K) (i : Nat) (w : FireWork) : Engine K :=
  { s with fires := s.fires.set i w }

def setResult (s : Engine K) (i : Nat) (w : ResultWork) : Engine K :=
  { s with results := s.results.set i w }

/- The text of a timer whose callback reports nothing. -/
def noOutcome : String :=
  "activation callback did not record an outcome; " ++
    "re-arm to recover pending intent"

/-
  A timer whose callback is over.  It is suspended if nothing
  was reported about a pending activation.
-/
def finished (a : Armed K) : Armed K :=
  if a.storageError = "" ∧ a.rt.activation.result = .pending ∧
      a.retry = none then
    { a with firing := false, storageError := noOutcome }
  else { a with firing := false }

/- The callback is over. -/
def fireDone [Calendar K] (s : Engine K) (w : FireWork) : Engine K :=
  let s := { s with activeFires := s.activeFires - 1 }
  match s.find w.event.name with
  | none => s
  | some a =>
      if a.ref ≠ w.ref ∨ a.token ≠ w.event.token then s
      else if s.running = true then s.rescheduleLocked (finished a)
      else s.put (finished a)

/- The next step of a callback's worker. -/
def fireStep
    [Calendar K]
    (cfg : Config)
    (s : Engine K)
    (i : Nat)
    (r : StoreResult) :
    Option (Engine K) :=
  match s.fires[i]? with
  | none => none
  | some w =>
      match w.phase with
      | .check =>
          if s.storageIO = true then none
          else if s.MaySave w.event then
            some
              ({ s with storageIO := true }.setFire i
                { w with phase := .save })
          else some (s.setFire i { w with phase := .finish })
      | .save =>
          match s.save cfg w.event.name w.rt r with
          | none => none
          | some (s, err) =>
              let saved :=
                if err = none then s.saved ++ [(w.event, w.rt)]
                else s.saved
              some
                ({ s with saved := saved }.setFire i
                  { w with phase := .settle err })
      | .settle err =>
          let (s, ok) := s.persistSettle w.event w.ref err
          if ok = true ∧ cfg.callback = true then
            some (s.setFire i { w with phase := .current })
          else some (s.setFire i { w with phase := .finish })
      | .current =>
          if s.Current w.event.name w.event.token then
            some (s.setFire i { w with phase := .calling })
          else some (s.setFire i { w with phase := .finish })
      | .calling => some (s.setFire i { w with phase := .finish })
      | .finish =>
          some ((s.fireDone w).setFire i { w with phase := .done })
      | .done => none

/- A saved result is taken over by its arm. -/
def applyResult (s : Engine K) (w : ResultWork) : Engine K :=
  match s.find w.event.name with
  | none => s
  | some a =>
      if s.running = true ∧ a.ref = w.ref ∧
          a.token = w.event.token ∧
          (w.event.activationID = "" ∨
            a.rt.activation.id = w.event.activationID) then
        s.put
          { a with
            rt :=
              { a.rt with
                lastSuccess := w.rt.lastSuccess
                activation := w.rt.activation }
            retry := none }
      else s

/- The next step of a call that records a result. -/
def resultStep
    [Calendar K]
    (cfg : Config)
    (s : Engine K)
    (i : Nat)
    (r : StoreResult) :
    Option (Engine K) :=
  match s.results[i]? with
  | none => none
  | some w =>
      match w.phase with
      | .check =>
          if s.storageIO = true then none
          else if s.MaySave w.event then
            some
              ({ s with storageIO := true }.setResult i
                { w with phase := .save })
          else some (s.setResult i { w with phase := .done })
      | .save =>
          match s.save cfg w.event.name w.rt r with
          | none => none
          | some (s, err) =>
              let saved :=
                if err = none then s.saved ++ [(w.event, w.rt)]
                else s.saved
              some
                ({ s with saved := saved }.setResult i
                  { w with phase := .settle err })
      | .settle err =>
          let (s, ok) := s.persistSettle w.event w.ref err
          if ok = true then
            some (s.setResult i { w with phase := .apply })
          else some (s.setResult i { w with phase := .done })
      | .apply =>
          some ((s.applyResult w).setResult i { w with phase := .done })
      | .done => none

------------------------------------------------------------
-- Loader
------------------------------------------------------------

/- The object is still the armed timer and is to be loaded. -/
def Loading (s : Engine K) (name : String) (ref : Nat) : Prop :=
  match s.find name with
  | none => False
  | some a => s.running = true ∧ a.ref = ref ∧ a.loading = true

instance (s : Engine K) (name : String) (ref : Nat) :
    Decidable (s.Loading name ref) := by
  unfold Loading
  exact match s.find name with
  | none => instDecidableFalse
  | some _ => instDecidableAnd

def retargeted : String :=
  "pending activation does not match the current persistent " ++
    "calendar target"

/- A timer with its stored record. -/
def loaded
    (c : Reading)
    (a : Armed K)
    (result : Except String Runtime) :
    Armed K :=
  let a := { a with loading := false }
  match result with
  | .error text => { a with storageError := text }
  | .ok rt =>
      let a :=
        { a with
          rt := { rt with lastUnitActive := a.rt.lastUnitActive }
          storageError := "" }
      if rt.activation.result = .pending then
        if a.spec.persistent = false ∨ a.spec.onCalendar = [] ∨
            a.spec.unit ≠ rt.activation.unit then
          { a with storageError := retargeted }
        else
          { a with
            retry :=
              some
                { event :=
                    { name := a.name
                      unit := rt.activation.unit
                      token := a.token
                      activationID := rt.activation.id }
                  after := c.sinceStart } }
      else a

def loadApply
    [Calendar K]
    (s : Engine K)
    (name : String)
    (ref : Nat)
    (result : Except String Runtime) :
    Engine K :=
  let s := { s with storageIO := false, loader := some .pick }
  match s.find name with
  | none => s
  | some a =>
      if s.running = true ∧ a.ref = ref ∧ a.loading = true then
        s.rescheduleLocked (loaded s.clock a result)
      else s

/-
  The next step of the loader.  The timer it picks is any that
  is to be loaded.
-/
def loadStep
    [Calendar K]
    (cfg : Config)
    (s : Engine K)
    (name : String)
    (r : StoreResult) :
    Option (Engine K) :=
  match s.loader with
  | none => none
  | some .pick =>
      if s.running = true ∧ ∃ a ∈ s.armed, a.loading = true then
        match s.find name with
        | none => none
        | some a =>
            if a.loading = true then
              some { s with loader := some (.check name a.ref) }
            else none
      else some { s with loader := none }
  | some (.check name ref) =>
      if s.storageIO = true then none
      else if s.Loading name ref then
        some
          { s with
            storageIO := true
            loader := some (.read name ref) }
      else some { s with loader := some .pick }
  | some (.read name ref) =>
      match s.load cfg name r with
      | none => none
      | some result =>
          some { s with loader := some (.apply name ref result) }
  | some (.apply name ref result) => some (s.loadApply name ref result)

------------------------------------------------------------
-- Planner
------------------------------------------------------------

/- The smallest of two names, if any. -/
def minName (best : Option String) (name : String) : Option String :=
  match best with
  | none => some name
  | some b => if name < b then some name else some b

/- The next name to plan, in rotating order. -/
def planNext (s : Engine K) : Option String :=
  let waiting :=
    (s.armed.filter (fun a => a.planning)).map (fun a => a.name)
  let after := waiting.filter (fun name => s.scheduleCursor < name)
  match after.foldl minName none with
  | some name => some name
  | none => waiting.foldl minName none

def planPublish
    (s : Engine K)
    (name : String)
    (ref gen clockGen : Nat)
    (found : Deadline) :
    Engine K :=
  let s := { s with planner := some .pick }
  match s.find name with
  | none => s
  | some a =>
      if s.running = true ∧ a.ref = ref ∧ a.gen = gen ∧
          s.clockGen = clockGen ∧ a.planning = true then
        let a :=
          { a with
            planning := false
            next := found.next.getD 0
            ok := found.next.isSome
            schedGen := clockGen
            wallNext := found.wall }
        match found.next with
        | some when =>
            let (s, a) := s.installDeadline a when gen
            s.put a
        | none => s.put a
      else s

/- The next step of the planner. -/
def planStep [Calendar K] (s : Engine K) : Option (Engine K) :=
  match s.planner with
  | none => none
  | some .pick =>
      let next := if s.running = true then s.planNext else none
      match next.bind s.find with
      | none => some { s with planner := none }
      | some a =>
          some
            { s with
              scheduleCursor := a.name
              planner :=
                some
                  (.search a.name a.ref a.gen s.clockGen a.spec
                    a.rt) }
  | some (.search name ref gen clockGen spec rt) =>
      some
        { s with
          planner :=
            some
              (.publish name ref gen clockGen
                (nextDeadline spec rt s.clock)) }
  | some (.publish name ref gen clockGen found) =>
      some (s.planPublish name ref gen clockGen found)

end Engine

------------------------------------------------------------
-- Runs
------------------------------------------------------------

/- What can happen next. -/
inductive Label (K : Type) where
| clock (c : Reading)
| arm (spec : Spec K)
| disarm (name : String)
| retain (keep order : List String)
| unitActive (unit : String) (when : Time) (order : List String)
| clockChanged (c : Reading) (order : List String)
| fireDue
| wait
| retry (event : Fire)
| recordResult (event : Fire) (success : Bool)
| stop
| plan
| load (name : String) (r : StoreResult)
| fire (i : Nat) (r : StoreResult)
| result (i : Nat) (r : StoreResult)

variable {K : Type}

/-
  One step of the engine.  An order is that of a loop over the
  armed timers.
-/
def Engine.step [Calendar K] (cfg : Config) (s : Engine K) :
    Label K → Option (Engine K)
| .clock c => some { s with clock := c }
| .arm spec => some (s.arm cfg spec)
| .disarm name => some (s.disarm name)
| .retain keep order =>
    if order.isPerm s.names then some (s.retain keep order) else none
| .unitActive unit when order =>
    if order.isPerm s.names then some (s.unitActive unit when order)
    else none
| .clockChanged c order =>
    if order.isPerm s.names then some (s.clockChanged cfg c order)
    else none
| .fireDue => some (s.fireDueLocked cfg)
| .wait => some s.dropStaleLocked
| .retry event => some (s.retry event)
| .recordResult event success => some (s.recordResult event success)
| .stop => some { s with running := false }
| .plan => s.planStep
| .load name r => s.loadStep cfg name r
| .fire i r => s.fireStep cfg i r
| .result i r => s.resultStep cfg i r

/- A new engine on a store with these records. -/
def Engine.start (clock : Reading) (disk : String → Runtime) :
    Engine K where
  clock := clock
  armed := []
  pq := { arr := [], pos := fun _ => -1 }
  items := fun _ => { name := "", when := 0, gen := 0 }
  nextItem := 0
  nextRef := 0
  nextActivation := 0
  nextArm := 0
  nextGen := 0
  clockGen := 0
  activeFires := 0
  running := true
  scheduleCursor := ""
  planner := none
  loader := none
  storageIO := false
  disk := disk
  fires := []
  results := []
  saved := []
  consumed := []

/- A new engine on a store that was written by one. -/
def Engine.Initial (s : Engine K) : Prop :=
  ∃ (clock : Reading) (disk : String → Runtime),
    (∀ name, (disk name).persisted = disk name) ∧
      s = .start clock disk

/- A new engine on an empty store. -/
def Engine.fresh (clock : Reading) : Engine K :=
  .start clock (fun _ => .empty)

theorem Engine.initial_fresh
    (clock : Reading) :
    (Engine.fresh clock : Engine K).Initial :=
  ⟨clock, fun _ => .empty, fun _ => rfl, rfl⟩

/- The runs of an engine on a store with any records. -/
def timing (K : Type) [Calendar K] (cfg : Config) :
    Lib.System (Engine K) (Label K) where
  init := Engine.Initial
  step := Engine.step cfg

end Timers

end Winunitd
