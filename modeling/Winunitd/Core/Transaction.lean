import Winunitd.Core.Cycle

/-
  Planning of start and shutdown transactions.

  A plan is a set of jobs with an ordering among them.  A
  start pulls in what a unit requires or wants; a shutdown
  also pulls in what is ordered after its roots.  A plan is
  returned only if its ordering has no cycle.

  Key definitions include:
    * `Transaction`
    * `Transaction.validate`
    * `Graph.planStart`
    * `Graph.planShutdown`

  Key theorems include:
    * `Transaction.validate_ok_iff`
    * `jobNames_planJobs`
-/

------------------------------------------------------------
-- Transactions
------------------------------------------------------------

namespace Winunitd

namespace Core

open UnitNames (normalizeName)
open Lib.Digraph (Acyclic)

variable {N : Type}
variable [UnitNames N]

/- Planned actions. -/
inductive JobKind where
| start
| stop
deriving DecidableEq, Repr

/- One unit activation or deactivation. -/
structure Job (N : Type) where
  name : N
  kind : JobKind
deriving DecidableEq, Repr

/- Names that may be the jobs of a plan over `g`. -/
structure JobNames (g : Graph N) (names : List N) : Prop where
  nodup : names.Nodup
  loaded : ∀ n ∈ names, g.Loaded n

/-
  A plan: loaded units with one job each, and for each job
  the jobs that it waits for.
-/
structure Transaction (N : Type) [UnitNames N] where
  g : Graph N
  roots : List N
  jobs : List (Job N)
  waitsFor : N → List N
  jobNames_ok : JobNames g (jobs.map Job.name)
  waits_mem :
    ∀ n, ∀ m ∈ waitsFor n, m ∈ jobs.map Job.name

/- Reasons for which no plan is returned. -/
inductive PlanError (N : Type) where
| noUnit (kind : JobKind)
| emptyName
| missing (unit requiredBy : N)
| emptyTransaction
| cycle (path : List N)
deriving DecidableEq, Repr

def PlanError.error : PlanError N → String
| .noUnit .start => "no unit to start"
| .noUnit .stop => "no unit to stop"
| .emptyName => "empty unit name"
| .missing unit requiredBy =>
    if requiredBy = UnitNames.empty then
      "unit " ++ UnitNames.quote unit ++ " is not loaded"
    else
      "unit " ++ UnitNames.quote unit ++ " required by " ++
        UnitNames.quote requiredBy ++ " is not loaded"
| .emptyTransaction => "empty transaction"
| .cycle path =>
    if path.length < 2 then "ordering cycle"
    else " After ".intercalate (path.map UnitNames.text)

namespace Transaction

/- The job names in sorted order. -/
def jobNames (tx : Transaction N) : List N :=
  (tx.jobs.map Job.name).insertionSort (· ≤ ·)

/- A plan needs a job and an ordering without a cycle. -/
def validate (tx : Transaction N) :
    Except (PlanError N) (Transaction N) :=
  if tx.jobs = [] then .error .emptyTransaction
  else
    match findCycle tx.jobNames tx.waitsFor with
    | some path => .error (.cycle path)
    | none => .ok tx

variable {tx : Transaction N}

theorem mem_jobNames
    {n : N} :
    n ∈ tx.jobNames ↔ n ∈ tx.jobs.map Job.name := by
  rw [jobNames, List.mem_insertionSort]

theorem nodup_jobNames
    (tx : Transaction N) :
    tx.jobNames.Nodup :=
  (List.perm_insertionSort _ _).nodup_iff.mpr
    tx.jobNames_ok.nodup

variable {tx' : Transaction N}

/- A plan is accepted if its waits have no cycle. -/
theorem validate_ok_iff :
    tx.validate = .ok tx' ↔
      tx' = tx ∧ tx.jobs ≠ [] ∧
        Acyclic (WaitsIn tx.jobNames tx.waitsFor) := by
  unfold validate
  rw [← findCycle_eq_none_iff]
  by_cases hJobs : tx.jobs = []
  · simp [hJobs]
  · rw [if_neg hJobs]
    cases findCycle tx.jobNames tx.waitsFor with
    | none => simp [hJobs, eq_comm]
    | some path => simp

theorem validate_again
    (h : tx.validate = .ok tx') :
    tx'.validate = .ok tx' := by
  rcases validate_ok_iff.mp h with ⟨rfl, _⟩
  exact h

end Transaction

------------------------------------------------------------
-- Start And Shutdown Plans
------------------------------------------------------------

/- A name that has a job already. -/
def planned (jobs : List (Job N)) (name : N) : Prop :=
  name ∈ jobs.map Job.name

instance (jobs : List (Job N)) (name : N) :
    Decidable (planned jobs name) :=
  inferInstanceAs (Decidable (name ∈ _))

/-
  Plan `name` and, depth first, what it pulls in.  A name
  that was planned before is not entered again, so the
  number of loaded units bounds the depth.
-/
def addJob (g : Graph N) (kind : JobKind) :
    Nat → N → N → Bool → List (Job N) →
      Except (PlanError N) (List (Job N))
| 0, _, _, _, jobs => .ok jobs
| fuel + 1, name, requiredBy, required, jobs =>
    let name := normalizeName name
    if name = UnitNames.empty then
      if required ∧ kind = .start then
        .error (.missing name requiredBy)
      else
        .ok jobs
    else if planned jobs name then .ok jobs
    else
      match g.nodeAt name with
      | none =>
          if required ∧
              (kind = .start ∨ requiredBy = UnitNames.empty) then
            .error (.missing name requiredBy)
          else
            .ok jobs
      | some n => do
          let jobs := jobs ++ [⟨name, kind⟩]
          let jobs ← n.requires.foldlM
            (fun jobs dep => addJob g kind fuel dep name true jobs)
            jobs
          let jobs ← n.bindsTo.foldlM
            (fun jobs dep => addJob g kind fuel dep name true jobs)
            jobs
          n.wants.foldlM
            (fun jobs dep => addJob g kind fuel dep name false jobs)
            jobs

/-
  Fuel for planning: one level for each loaded unit and one
  for a name that is not loaded.
-/
def Graph.planFuel (g : Graph N) : Nat :=
  g.nodes.length + 1

/- The normalized roots and the jobs that they pull in. -/
def addRoots
    (g : Graph N)
    (kind : JobKind)
    (names : List N) :
    Except (PlanError N) (List N × List (Job N)) :=
  names.foldlM
    (fun acc name => do
      let name := normalizeName name
      if name = UnitNames.empty then .error .emptyName
      else if name ∈ acc.1 then .ok acc
      else
        let jobs ←
          addJob g kind g.planFuel name UnitNames.empty true acc.2
        .ok (acc.1 ++ [name], jobs))
    ([], [])

variable {α β ε : Type}

/- A successful sequence has two successful parts. -/
private theorem bind_eq_ok
    {x : Except ε α}
    {f : α → Except ε β}
    {b : β}
    (h : (x >>= f) = .ok b) :
    ∃ a, x = .ok a ∧ f a = .ok b := by
  cases x with
  | error e => cases h
  | ok a => exact ⟨a, rfl, h⟩

/- A successful fold over `Except` keeps what its steps keep. -/
private theorem foldlM_keeps
    {f : β → α → Except ε β}
    {P : β → Prop}
    (hStep : ∀ b a b', P b → f b a = .ok b' → P b')
    {as : List α}
    {b b' : β}
    (hb : P b)
    (h : as.foldlM f b = .ok b') :
    P b' := by
  induction as generalizing b with
  | nil =>
      cases h
      exact hb
  | cons a as ih =>
      rw [List.foldlM_cons] at h
      rcases bind_eq_ok h with ⟨mid, hMid, hRest⟩
      exact ih (hStep b a mid hb hMid) hRest

variable {g : Graph N}
variable {jobs : List (Job N)}

private theorem jobNames_snoc
    (h : JobNames g (jobs.map Job.name))
    {name : N}
    (kind : JobKind)
    (hNew : ¬ planned jobs name)
    (hLoaded : g.Loaded name) :
    JobNames g
      ((jobs ++ [(⟨name, kind⟩ : Job N)]).map Job.name) := by
  rw [List.map_append, List.map_singleton]
  constructor
  · rw [← List.concat_eq_append]
    exact h.nodup.concat hNew
  · intro n hn
    rcases List.mem_append.mp hn with hOld | hLast
    · exact h.loaded n hOld
    · exact List.mem_singleton.mp hLast ▸ hLoaded

variable {kind : JobKind}

/- Planning keeps the jobs distinct and loaded. -/
theorem jobNames_addJob
    {fuel : Nat}
    {name requiredBy : N}
    {required : Bool}
    {jobs jobs' : List (Job N)}
    (hJobs : JobNames g (jobs.map Job.name))
    (h : addJob g kind fuel name requiredBy required jobs =
      .ok jobs') :
    JobNames g (jobs'.map Job.name) := by
  induction fuel generalizing name requiredBy required jobs jobs' with
  | zero =>
      cases h
      exact hJobs
  | succ fuel ih =>
      have hKeeps :
          ∀ {deps : List N} {by_ : N} {req : Bool}
            {js js' : List (Job N)},
            JobNames g (js.map Job.name) →
            deps.foldlM
              (fun js dep => addJob g kind fuel dep by_ req js)
              js = .ok js' →
            JobNames g (js'.map Job.name) := by
        intro deps by_ req js js' hjs hFold
        exact foldlM_keeps
          (P := fun js => JobNames g (js.map Job.name))
          (fun _ _ _ hb hf => ih hb hf) hjs hFold
      simp only [addJob] at h
      split at h
      · split at h
        · cases h
        · cases h
          exact hJobs
      split at h
      · cases h
        exact hJobs
      rename_i hNew
      split at h
      · split at h
        · cases h
        · cases h
          exact hJobs
      · rename_i n hNode
        have hLoaded : g.Loaded (normalizeName name) :=
          Graph.loaded_iff_nodeAt.mpr ⟨n, hNode⟩
        have hFirst := jobNames_snoc hJobs kind hNew hLoaded
        rcases bind_eq_ok h with ⟨jobs₁, hRequires, h⟩
        rcases bind_eq_ok h with ⟨jobs₂, hBindsTo, hWants⟩
        exact hKeeps (hKeeps (hKeeps hFirst hRequires) hBindsTo)
          hWants

theorem jobNames_nil
    (g : Graph N) :
    JobNames g (([] : List (Job N)).map Job.name) :=
  ⟨List.nodup_nil, by simp⟩

theorem jobNames_addRoots
    {names roots : List N}
    (h : addRoots g kind names = .ok (roots, jobs)) :
    JobNames g (jobs.map Job.name) := by
  have hKeep :=
    foldlM_keeps
      (P := fun acc : List N × List (Job N) =>
        JobNames g (acc.2.map Job.name))
      (fun acc name acc' hAcc hStep => by
        simp only at hStep
        split at hStep
        · cases hStep
        split at hStep
        · cases hStep
          exact hAcc
        · rcases bind_eq_ok hStep with ⟨jobs, hAdd, hEq⟩
          cases hEq
          exact jobNames_addJob hAcc hAdd)
      (jobNames_nil g) h
  exact hKeep

/- Units that wait for `name`. -/
def Graph.afterSuccessors (g : Graph N) (name : N) : List N :=
  g.names.filter
    (fun other => normalizeName name ∈ g.waitsAt other)

/- Add what is transitively ordered after `name`. -/
def Graph.walkAfter (g : Graph N) : Nat → N → List N → List N
| 0, _, seen => seen
| fuel + 1, name, seen =>
    (g.afterSuccessors name).foldl
      (fun seen later =>
        if later ∈ seen then seen
        else g.walkAfter fuel later (later :: seen))
      seen

/- What is transitively ordered after a root, sorted. -/
def Graph.afterClosure (g : Graph N) (roots : List N) : List N :=
  (roots.foldl
      (fun seen r => g.walkAfter g.planFuel (normalizeName r) seen)
      []).insertionSort (· ≤ ·)

/-
  Append lists under keys, in order, and keep each list
  normalized and without repetitions.
-/
def collect (pairs : List (N × N)) (key : N) : List N :=
  uniqueStable
    ((pairs.filter (fun p => p.1 = key)).map Prod.snd)

/- A job stops after the jobs that started after it. -/
def reverseWaits
    (jobs : List N)
    (g : Graph N) :
    N → List N :=
  collect
    (jobs.flatMap (fun name =>
      ((g.waitsAt name).filter (fun pred => pred ∈ jobs)).map
        (fun pred => (pred, name))))

/- A job starts after its ordering predecessors in the plan. -/
def startWaits
    (jobs : List N)
    (g : Graph N)
    (name : N) :
    List N :=
  if name ∈ jobs then
    uniqueStable
      ((g.waitsAt name).filter (fun dep => dep ∈ jobs))
  else
    []

theorem mem_collect
    {pairs : List (N × N)}
    (hNormal : ∀ p ∈ pairs, Normal p.2)
    {key x : N} :
    x ∈ collect pairs key ↔ (key, x) ∈ pairs := by
  have hValues :
      ∀ y ∈ (pairs.filter (fun p => p.1 = key)).map Prod.snd,
        Normal y := by
    intro y hy
    rcases List.mem_map.mp hy with ⟨p, hp, rfl⟩
    exact hNormal p (List.mem_of_mem_filter hp)
  rw [collect, mem_uniqueStable_of_normal hValues]
  simp

/- Edges between jobs, collected where they end. -/
theorem mem_collect_reversed
    {jobs : List N}
    (hJobs : JobNames g jobs)
    {next : N → List N}
    {key x : N} :
    x ∈ collect
        (jobs.flatMap (fun name =>
          ((next name).filter (fun pred => pred ∈ jobs)).map
            (fun pred => (pred, name))))
        key ↔
      x ∈ jobs ∧ key ∈ jobs ∧ key ∈ next x := by
  rw [mem_collect]
  · simp only [List.mem_flatMap, List.mem_map, List.mem_filter,
      decide_eq_true_eq, Prod.mk.injEq]
    constructor
    · rintro ⟨c, hc, d, ⟨hWait, hd⟩, rfl, rfl⟩
      exact ⟨hc, hd, hWait⟩
    · rintro ⟨hx, hKey, hWait⟩
      exact ⟨x, hx, key, ⟨hWait, hKey⟩, rfl, rfl⟩
  · intro p hp
    rcases List.mem_flatMap.mp hp with ⟨c, hc, hPair⟩
    rcases List.mem_map.mp hPair with ⟨d, _, rfl⟩
    exact Graph.normal_of_loaded (hJobs.loaded c hc)

/- Reversed ordering edges between jobs. -/
theorem mem_reverseWaits
    {jobs : List N}
    (hJobs : JobNames g jobs)
    {key x : N} :
    x ∈ reverseWaits jobs g key ↔
      x ∈ jobs ∧ key ∈ jobs ∧ key ∈ g.waitsAt x :=
  mem_collect_reversed hJobs

theorem mem_startWaits
    {jobs : List N}
    (hJobs : JobNames g jobs)
    {name dep : N} :
    dep ∈ startWaits jobs g name ↔
      name ∈ jobs ∧ dep ∈ jobs ∧ dep ∈ g.waitsAt name := by
  unfold startWaits
  by_cases hName : name ∈ jobs
  · have hNormal :
        ∀ x ∈ (g.waitsAt name).filter (fun dep => dep ∈ jobs),
          Normal x := by
      intro x hx
      have hMem : x ∈ jobs := by
        simpa using (List.mem_filter.mp hx).2
      exact Graph.normal_of_loaded (hJobs.loaded x hMem)
    rw [if_pos hName, mem_uniqueStable_of_normal hNormal]
    simp [hName, and_comm]
  · simp [hName]

/- A transaction over planned jobs, before validation. -/
def draft
    (g : Graph N)
    (kind : JobKind)
    (roots : List N)
    (jobs : List (Job N))
    (hJobs : JobNames g (jobs.map Job.name)) :
    Transaction N where
  g := g
  roots := roots
  jobs := jobs
  waitsFor :=
    match kind with
    | .stop => reverseWaits (jobs.map Job.name) g
    | .start => startWaits (jobs.map Job.name) g
  jobNames_ok := hJobs
  waits_mem := by
    intro n m hm
    cases kind with
    | stop => exact ((mem_reverseWaits hJobs).mp hm).1
    | start => exact ((mem_startWaits hJobs).mp hm).2.1

/- Units pulled in after the roots: none for a start. -/
def addLater
    (g : Graph N)
    (kind : JobKind)
    (roots : List N)
    (jobs : List (Job N)) :
    Except (PlanError N) (List (Job N)) :=
  match kind with
  | .start => .ok jobs
  | .stop =>
      (g.afterClosure roots).foldlM
        (fun jobs later =>
          addJob g .stop g.planFuel later UnitNames.empty false
            jobs)
        jobs

/- The roots and jobs of a start or shutdown plan. -/
def planJobs
    (g : Graph N)
    (kind : JobKind)
    (names : List N) :
    Except (PlanError N) (List N × List (Job N)) := do
  let acc ← addRoots g kind names
  let jobs ← addLater g kind acc.1 acc.2
  return (acc.1, jobs)

theorem jobNames_planJobs
    {names : List N}
    {res : List N × List (Job N)}
    (h : planJobs g kind names = .ok res) :
    JobNames g (res.2.map Job.name) := by
  rcases bind_eq_ok h with ⟨⟨roots, jobs⟩, hRoots, h⟩
  rcases bind_eq_ok h with ⟨jobs', hLater, hEq⟩
  cases hEq
  have hJobs := jobNames_addRoots hRoots
  cases kind with
  | start =>
      cases hLater
      exact hJobs
  | stop =>
      exact foldlM_keeps
        (P := fun js => JobNames g (js.map Job.name))
        (fun _ _ _ hb hf => jobNames_addJob hb hf) hJobs hLater

namespace Graph

/- A validated start or shutdown plan. -/
def plan
    (g : Graph N)
    (kind : JobKind)
    (names : List N) :
    Except (PlanError N) (Transaction N) :=
  if names = [] then .error (.noUnit kind)
  else
    match h : planJobs g kind names with
    | .error e => .error e
    | .ok res =>
        (draft g kind res.1 res.2
          (jobNames_planJobs h)).validate

def planStart
    (g : Graph N)
    (names : List N) :
    Except (PlanError N) (Transaction N) :=
  g.plan .start names

def planShutdown
    (g : Graph N)
    (names : List N) :
    Except (PlanError N) (Transaction N) :=
  g.plan .stop names

end Graph

end Core

end Winunitd
