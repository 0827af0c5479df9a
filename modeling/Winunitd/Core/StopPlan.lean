import Winunitd.Core.Transaction

/-
  Planning of stop transactions.

  A stop takes down the named units and every loaded unit
  that requires one of them, directly or not.  Dependents
  stop first, and `After=`/`Before=` are reversed, so the
  waits of a stop merge two relations; each may be acyclic
  while their union is not.

  Key definitions include:
    * `Graph.StopRequires`, `Graph.OrderedAfter`
    * `Graph.reverseRequirementClosure`
    * `Graph.planStop`
    * `StopsAfter`

  Key theorems include:
    * `Graph.mem_reverseRequirementClosure`
    * `Graph.planStop_ok_iff`
-/

------------------------------------------------------------
-- The Planner
------------------------------------------------------------

namespace Winunitd

namespace Core

open UnitNames (normalizeName)
open Relation (TransGen ReflTransGen)
open Lib.Digraph (mark markAll Edge Acyclic)

variable {N : Type}
variable [UnitNames N]

namespace Graph

/- Loaded units that require `name` for a stop. -/
def reverseRequirersOf (g : Graph N) (name : N) : List N :=
  g.names.filter (fun other =>
    match g.nodeAt other with
    | some n => n.stopRequiresName (normalizeName name)
    | none => false)

/- Add `name` and, depth first, what requires it. -/
def walkRequirers (g : Graph N) : Nat → N → List N → List N
| 0, _, seen => seen
| fuel + 1, name, seen =>
    let name := normalizeName name
    if name = UnitNames.empty then seen
    else if name ∈ seen then seen
    else if (g.nodeAt name).isNone then seen
    else
      (g.reverseRequirersOf name).foldl
        (fun seen later => g.walkRequirers fuel later seen)
        (name :: seen)

/- The roots and what transitively requires one, sorted. -/
def reverseRequirementClosure
    (g : Graph N)
    (roots : List N) :
    List N :=
  (roots.foldl
      (fun seen r => g.walkRequirers g.nodes.length r seen)
      []).insertionSort (· ≤ ·)

end Graph

/- A job stops after the jobs that require it. -/
def reverseRequirementWaits
    (jobs : List N)
    (g : Graph N) :
    N → List N :=
  collect
    (jobs.flatMap (fun name =>
      match g.nodeAt name with
      | none => []
      | some n =>
          (n.stopDepNames.filter (fun dep => dep ∈ jobs)).map
            (fun dep => (dep, name))))

def mergeWaits (a b : N → List N) (name : N) : List N :=
  uniqueStable (a name ++ b name)

/- The normalized roots of a stop, all of them loaded. -/
def stopRoots
    (g : Graph N)
    (names : List N) :
    Except (PlanError N) (List N) :=
  names.foldlM
    (fun roots name =>
      let name := normalizeName name
      if name = UnitNames.empty then .error .emptyName
      else if name ∈ roots then .ok roots
      else if (g.nodeAt name).isNone then
        .error (.missing name UnitNames.empty)
      else .ok (roots ++ [name]))
    []

------------------------------------------------------------
-- Requirement Closure
------------------------------------------------------------

namespace Graph

variable {g : Graph N}

/- `a` requires `b` for a stop: stopping `b` stops `a`. -/
def StopRequires (g : Graph N) (a b : N) : Prop :=
  ∃ n, g.nodeAt a = some n ∧ n.stopRequiresName b = true

/- `a` is ordered after `b`. -/
def OrderedAfter (g : Graph N) (a b : N) : Prop :=
  b ∈ g.waitsAt a

variable {a b : N}

theorem StopRequires.loaded
    (h : g.StopRequires a b) :
    g.Loaded a := by
  rcases h with ⟨n, hNode, _⟩
  exact loaded_iff_nodeAt.mpr ⟨n, hNode⟩

theorem mem_reverseRequirersOf
    (hb : Normal b) :
    a ∈ g.reverseRequirersOf b ↔ g.StopRequires a b := by
  unfold reverseRequirersOf
  rw [List.mem_filter, mem_names, hb.1]
  constructor
  · rintro ⟨hLoaded, hReq⟩
    rcases loaded_iff_nodeAt.mp hLoaded with ⟨n, hNode⟩
    rw [hNode] at hReq
    exact ⟨n, hNode, hReq⟩
  · intro h
    refine ⟨h.loaded, ?_⟩
    rcases h with ⟨n, hNode, hReq⟩
    rw [hNode]
    exact hReq

theorem loaded_of_mem_requirers
    (h : a ∈ g.reverseRequirersOf b) :
    g.Loaded a :=
  mem_names.mp (List.mem_of_mem_filter h)

/- On loaded names the walk is depth-first marking. -/
theorem walkRequirers_eq_mark
    {fuel : Nat}
    {name : N}
    {seen : List N}
    (h : g.Loaded name) :
    g.walkRequirers fuel name seen =
      mark g.reverseRequirersOf fuel name seen := by
  induction fuel generalizing name seen with
  | zero => rfl
  | succ fuel ih =>
      have hNormal := normal_of_loaded h
      rcases loaded_iff_nodeAt.mp h with ⟨n, hNode⟩
      simp only [walkRequirers, mark, hNormal.1, hNode,
        if_neg hNormal.2, Option.isNone_some]
      by_cases hSeen : name ∈ seen
      · simp [hSeen]
      · simp only [hSeen, if_false, Bool.false_eq_true]
        exact List.foldl_ext _ _ _
          (fun _ _ hl => ih (loaded_of_mem_requirers hl))

/- Reversed marking edges lead along requirements. -/
private theorem reach_requirers
    {root n : N}
    (hRoot : g.Loaded root) :
    ReflTransGen (Edge g.reverseRequirersOf) root n ↔
      ReflTransGen g.StopRequires n root := by
  constructor
  · intro h
    have hBoth :
        g.Loaded n ∧ ReflTransGen g.StopRequires n root := by
      induction h with
      | refl => exact ⟨hRoot, .refl⟩
      | tail _ hEdge ih =>
          refine ⟨loaded_of_mem_requirers hEdge, ?_⟩
          exact ReflTransGen.head
            ((mem_reverseRequirersOf (normal_of_loaded ih.1)).mp
              hEdge)
            ih.2
    exact hBoth.2
  · intro h
    have hBoth :
        g.Loaded n ∧
          ReflTransGen (Edge g.reverseRequirersOf) root n := by
      induction h using ReflTransGen.head_induction_on with
      | refl => exact ⟨hRoot, .refl⟩
      | head hStep _ ih =>
          refine ⟨hStep.loaded, ih.2.tail ?_⟩
          exact
            (mem_reverseRequirersOf (normal_of_loaded ih.1)).mpr
              hStep
    exact hBoth.2

/- The closure holds exactly what reaches a root. -/
theorem mem_reverseRequirementClosure
    {roots : List N}
    (hRoots : ∀ r ∈ roots, g.Loaded r)
    {n : N} :
    n ∈ g.reverseRequirementClosure roots ↔
      ∃ r ∈ roots, ReflTransGen g.StopRequires n r := by
  have hWalk :
      roots.foldl
          (fun seen r => g.walkRequirers g.nodes.length r seen) [] =
        markAll g.reverseRequirersOf g.nodes.length roots [] :=
    List.foldl_ext _ _ _
      (fun _ r hr => walkRequirers_eq_mark (hRoots r hr))
  have hLength : g.names.length = g.nodes.length := by
    simp [names]
  have hMark :
      n ∈ markAll g.reverseRequirersOf g.nodes.length roots [] ↔
        ∃ r ∈ roots,
          ReflTransGen (Edge g.reverseRequirersOf) r n :=
    Lib.Digraph.mem_markAll_iff
      (fun _ _ _ hy => mem_names.mpr (loaded_of_mem_requirers hy))
      (fun r hr => mem_names.mpr (hRoots r hr))
      (Nat.le_of_eq hLength)
  rw [reverseRequirementClosure, List.mem_insertionSort,
    hWalk, hMark]
  constructor
  · rintro ⟨r, hr, hReach⟩
    exact ⟨r, hr, (reach_requirers (hRoots r hr)).mp hReach⟩
  · rintro ⟨r, hr, hReach⟩
    exact ⟨r, hr, (reach_requirers (hRoots r hr)).mpr hReach⟩

/- A walk collects distinct loaded names. -/
theorem jobNames_walkRequirers
    {fuel : Nat}
    {name : N}
    {seen : List N}
    (hSeen : JobNames g seen) :
    JobNames g (g.walkRequirers fuel name seen) := by
  induction fuel generalizing name seen with
  | zero => exact hSeen
  | succ fuel ih =>
      simp only [walkRequirers]
      split
      · exact hSeen
      split
      · exact hSeen
      rename_i hNew
      split
      · exact hSeen
      · rename_i hNode
        have hLoaded : g.Loaded (normalizeName name) := by
          rw [Option.isNone_iff_eq_none] at hNode
          exact loaded_iff_nodeAt.mpr
            (Option.ne_none_iff_exists'.mp hNode)
        have hCons : JobNames g (normalizeName name :: seen) := by
          refine ⟨List.nodup_cons.mpr ⟨hNew, hSeen.nodup⟩, ?_⟩
          intro n hn
          rcases List.mem_cons.mp hn with rfl | hn
          · exact hLoaded
          · exact hSeen.loaded n hn
        exact List.foldlRecOn _ _ hCons (fun _ hb _ _ => ih hb)

theorem jobNames_closure
    (g : Graph N)
    (roots : List N) :
    JobNames g (g.reverseRequirementClosure roots) := by
  have hWalk :
      JobNames g
        (roots.foldl
          (fun seen r => g.walkRequirers g.nodes.length r seen)
          []) :=
    List.foldlRecOn _ _ ⟨List.nodup_nil, by simp⟩
      (fun _ hb _ _ => jobNames_walkRequirers hb)
  unfold reverseRequirementClosure
  constructor
  · exact (List.perm_insertionSort _ _).nodup_iff.mpr hWalk.nodup
  · intro n hn
    exact hWalk.loaded n ((List.mem_insertionSort _).mp hn)

end Graph

------------------------------------------------------------
-- Waits Of A Stop
------------------------------------------------------------

variable {g : Graph N}

/- Reversed requirement edges between jobs. -/
theorem mem_reverseRequirementWaits
    {jobs : List N}
    (hJobs : JobNames g jobs)
    {key x : N} :
    x ∈ reverseRequirementWaits jobs g key ↔
      x ∈ jobs ∧ key ∈ jobs ∧ g.StopRequires x key := by
  have hNext :
      reverseRequirementWaits jobs g =
        collect
          (jobs.flatMap (fun name =>
            (((g.nodeAt name).elim [] Node.stopDepNames).filter
                (fun dep => dep ∈ jobs)).map
              (fun dep => (dep, name)))) := by
    unfold reverseRequirementWaits
    congr 2
    funext name
    cases g.nodeAt name <;> rfl
  rw [hNext, mem_collect_reversed hJobs, Graph.StopRequires]
  cases hNode : g.nodeAt x with
  | none => simp
  | some n =>
      have hWell := g.wellNamed n (Graph.nodeAt_some hNode).1
      simp [hWell.mem_stopDepNames]

/- The waits that a stop of `jobs` merges. -/
def stopWaits (jobs : List N) (g : Graph N) : N → List N :=
  mergeWaits (reverseWaits jobs g) (reverseRequirementWaits jobs g)

/-
  A job of a stop waits exactly for the jobs that are ordered
  after it and for those that require it.
-/
theorem mem_stopWaits
    {jobs : List N}
    (hJobs : JobNames g jobs)
    {key x : N} :
    x ∈ stopWaits jobs g key ↔
      x ∈ jobs ∧ key ∈ jobs ∧
        (g.OrderedAfter x key ∨ g.StopRequires x key) := by
  have hNormal :
      ∀ y ∈ reverseWaits jobs g key ++
          reverseRequirementWaits jobs g key, Normal y := by
    intro y hy
    rcases List.mem_append.mp hy with hy | hy
    · exact normal_of_mem_uniqueStable hy
    · exact normal_of_mem_uniqueStable hy
  rw [stopWaits, mergeWaits, mem_uniqueStable_of_normal hNormal,
    List.mem_append, mem_reverseWaits hJobs,
    mem_reverseRequirementWaits hJobs, Graph.OrderedAfter]
  tauto

/- A stop transaction over a closure, before validation. -/
def stopDraft (g : Graph N) (roots : List N) : Transaction N where
  g := g
  roots := roots
  jobs :=
    (g.reverseRequirementClosure roots).map (fun n => ⟨n, .stop⟩)
  waitsFor := stopWaits (g.reverseRequirementClosure roots) g
  jobNames_ok := by
    simpa [Function.comp_def] using Graph.jobNames_closure g roots
  waits_mem := by
    intro n m hm
    have hMem :=
      (mem_stopWaits (Graph.jobNames_closure g roots)).mp hm
    simpa [Function.comp_def] using hMem.1

theorem mem_jobNames_stopDraft
    {roots : List N}
    {n : N} :
    n ∈ (stopDraft g roots).jobNames ↔
      n ∈ g.reverseRequirementClosure roots := by
  rw [Transaction.mem_jobNames]
  simp [stopDraft]

/- A validated stop plan. -/
def Graph.planStop
    (g : Graph N)
    (names : List N) :
    Except (PlanError N) (Transaction N) :=
  if names = [] then .error (.noUnit .stop)
  else
    match stopRoots g names with
    | .error e => .error e
    | .ok roots => (stopDraft g roots).validate

------------------------------------------------------------
-- When A Stop Can Be Planned
------------------------------------------------------------

namespace Graph

variable {g : Graph N}

/-
  `key` stops after `x` in a stop of `u`: both are in its
  scope, and `x` is ordered after `key` or requires it.
-/
def StopsAfter (g : Graph N) (u key x : N) : Prop :=
  ReflTransGen g.StopRequires key u ∧
    ReflTransGen g.StopRequires x u ∧
      (g.OrderedAfter x key ∨ g.StopRequires x key)

variable {u : N}

/- A loaded unit is the only root of its own stop. -/
theorem stopRoots_single
    (hu : g.Loaded u) :
    stopRoots g [u] = .ok [u] := by
  have hNormal := normal_of_loaded hu
  rcases loaded_iff_nodeAt.mp hu with ⟨n, hNode⟩
  simp [stopRoots, hNormal.1, hNormal.2, hNode, bind, Except.bind,
    pure, Except.pure]

/- The scope of a stop: the unit and what requires it. -/
theorem mem_jobNames_stop
    (hu : g.Loaded u)
    {n : N} :
    n ∈ (stopDraft g [u]).jobNames ↔
      ReflTransGen g.StopRequires n u := by
  have hRoots : ∀ r ∈ [u], g.Loaded r := by
    intro r hr
    rw [List.mem_singleton.mp hr]
    exact hu
  rw [mem_jobNames_stopDraft, mem_reverseRequirementClosure hRoots]
  simp

/- The waits of a stop are its merged relation. -/
theorem waitsIn_stopDraft
    (hu : g.Loaded u) :
    WaitsIn (stopDraft g [u]).jobNames (stopDraft g [u]).waitsFor =
      g.StopsAfter u := by
  funext key x
  apply propext
  have hWaits : (stopDraft g [u]).waitsFor =
      stopWaits (g.reverseRequirementClosure [u]) g := rfl
  rw [WaitsIn, hWaits, mem_stopWaits (jobNames_closure g [u]),
    ← mem_jobNames_stopDraft, ← mem_jobNames_stopDraft,
    mem_jobNames_stop hu, mem_jobNames_stop hu, StopsAfter]
  tauto

/- A stop is planned exactly if its waits have no cycle. -/
theorem planStop_ok_iff
    (hu : g.Loaded u)
    {tx : Transaction N} :
    g.planStop [u] = .ok tx ↔
      tx = stopDraft g [u] ∧ Acyclic (g.StopsAfter u) := by
  have hJobs : (stopDraft g [u]).jobs ≠ [] := by
    intro hNil
    have hMem := (mem_jobNames_stop hu).mpr ReflTransGen.refl
    rw [Transaction.mem_jobNames, hNil] at hMem
    simp at hMem
  unfold planStop
  rw [if_neg (List.cons_ne_nil u []), stopRoots_single hu]
  simp only
  rw [Transaction.validate_ok_iff, waitsIn_stopDraft hu]
  tauto

/-
  A stop of a loaded unit of a graph without ordering cycles
  is planned, with the whole scope of the unit as its jobs
  and every dependent and later job awaited, exactly if the
  requirement and ordering edges inside the scope have no
  cycle between them.
-/
theorem planStop_covers_scope_iff
    {units : List (Option (UnitFile N))}
    {g : Graph N}
    (_hBuild : build units = .ok g)
    (_hOrdering : g.orderingCycle = none)
    {u : N}
    (hu : g.Loaded u) :
    (∃ tx, g.planStop [u] = .ok tx ∧
        (∀ n, n ∈ tx.jobNames ↔
          n = u ∨ g.Loaded n ∧ TransGen g.StopRequires n u) ∧
        (∀ a ∈ tx.jobNames, ∀ b ∈ tx.jobNames,
          g.StopRequires b a ∨ g.OrderedAfter b a →
            b ∈ tx.waitsFor a)) ↔
      Acyclic (g.StopsAfter u) := by
  constructor
  · rintro ⟨tx, hPlan, _⟩
    exact ((planStop_ok_iff hu).mp hPlan).2
  · intro hAcyclic
    refine ⟨stopDraft g [u],
      (planStop_ok_iff hu).mpr ⟨rfl, hAcyclic⟩, ?_, ?_⟩
    · intro n
      rw [mem_jobNames_stop hu,
        Relation.reflTransGen_iff_eq_or_transGen]
      constructor
      · rintro (hEq | hTrans)
        · exact Or.inl hEq.symm
        · rcases TransGen.head'_iff.mp hTrans with ⟨m, hStep, _⟩
          exact Or.inr ⟨hStep.loaded, hTrans⟩
      · rintro (hEq | ⟨_, hTrans⟩)
        · exact Or.inl hEq.symm
        · exact Or.inr hTrans
    · intro a ha b hb hEdge
      apply (mem_stopWaits (jobNames_closure g [u])).mpr
      exact ⟨mem_jobNames_stopDraft.mp hb,
        mem_jobNames_stopDraft.mp ha, hEdge.symm⟩

section Mutual

local instance : UnitNames String := asciiNames

/- Two services that require each other. -/
def mutualRequires : List (Option (UnitFile String)) :=
  [some
      { UnitFile.bare "a.service" .service with
        requires := ["b.service"] },
    some
      { UnitFile.bare "b.service" .service with
        requires := ["a.service"] }]

/- A service and another that requires and follows it. -/
def chainedRequires : List (Option (UnitFile String)) :=
  [some (.bare "a.service" .service),
    some
      { UnitFile.bare "b.service" .service with
        requires := ["a.service"]
        after := ["a.service"] }]

/-
  Mutual requirements load without an ordering cycle, yet
  neither unit can be stopped.
-/
theorem planStop_mutual_requires :
    ∃ g, build mutualRequires = .ok g ∧
      g.orderingCycle = none ∧ g.Loaded "a.service" ∧
        g.planStop ["a.service"] =
          .error (.cycle
            ["a.service", "b.service", "a.service"]) :=
  ⟨_, rfl, by decide, by decide, rfl⟩

/-
  A chain of requirements meets the condition: the stop of
  its first unit has both units as jobs.
-/
theorem planStop_chained_requires :
    ∃ g, build chainedRequires = .ok g ∧
      g.orderingCycle = none ∧ g.Loaded "a.service" ∧
        ((∃ tx, g.planStop ["a.service"] = .ok tx ∧
            (∀ n, n ∈ tx.jobNames ↔
              n = "a.service" ∨ g.Loaded n ∧
                TransGen g.StopRequires n "a.service") ∧
            (∀ a ∈ tx.jobNames, ∀ b ∈ tx.jobNames,
              g.StopRequires b a ∨ g.OrderedAfter b a →
                b ∈ tx.waitsFor a)) ↔
          Acyclic (g.StopsAfter "a.service")) ∧
        ((g.planStop ["a.service"]).map
            Transaction.jobNames).toOption =
          some ["a.service", "b.service"] :=
  ⟨_, rfl, by decide, by decide,
    @planStop_covers_scope_iff _ _ chainedRequires _
      rfl (by decide) _ (by decide), by decide⟩

end Mutual

end Graph

end Core

end Winunitd
