import Winunitd.Core.StartPlan
import Winunitd.Core.StopPlan

/-
  Shutdown plans reverse the boot.

  A shutdown takes in its roots, all that is transitively
  ordered after a root, and, over loaded units, whatever these
  require, bind to or want.  A dependency that is not loaded is
  passed over.  A job waits for the jobs that are ordered after
  it, so a graph without an ordering cycle can always be shut
  down.

  Key definitions include:
    * `TakesDown`

  Key theorems include:
    * `takes_addJob`
    * `mem_afterClosure`
    * `planShutdown_reverses`
-/

------------------------------------------------------------
-- Depth-First Planning
------------------------------------------------------------

namespace Winunitd

namespace Core

open UnitNames (normalizeName)
open Relation (ReflTransGen TransGen)
open Lib.Digraph (Acyclic Edge Marked mark markAll)

variable {N : Type}
variable [UnitNames N]
variable {g : Graph N}

/- Planning succeeds and adds the loaded ones of the names `xs`. -/
def Takes
    (g : Graph N)
    (xs : List N)
    (jobs : List (Job N))
    (res : Except (PlanError N) (List (Job N))) : Prop :=
  ∃ jobs', res = .ok jobs' ∧
    Marked g.pulls (xs.filter (fun x => g.Loaded x))
      (jobs.map Job.name) (jobs'.map Job.name)

variable {jobs : List (Job N)}

theorem Takes.same
    {x : N}
    (h : g.Loaded x → planned jobs x) :
    Takes g [x] jobs (.ok jobs) :=
  ⟨jobs, rfl,
    (Added.same (fun _ hx => List.mem_singleton.mp hx ▸ h)).marked⟩

variable {fuel : Nat}

/- One part of a plan after the other. -/
theorem Takes.bind
    {xs ys : List N}
    {res : Except (PlanError N) (List (Job N))}
    {k : List (Job N) → Except (PlanError N) (List (Job N))}
    (h : Takes g xs jobs res)
    (hFuel : FuelFor g fuel jobs)
    (hRest : ∀ mid, FuelFor g fuel mid → Takes g ys mid (k mid)) :
    Takes g (xs ++ ys) jobs (res >>= k) := by
  rcases h with ⟨mid, rfl, hMid⟩
  rcases hRest mid (hFuel.marked hMid) with ⟨jobs', hEq, hMarked⟩
  refine ⟨jobs', hEq, ?_⟩
  rw [List.filter_append]
  exact hMid.append hMarked

theorem takes_foldlM
    {f : List (Job N) → N → Except (PlanError N) (List (Job N))}
    {xs : List N}
    (hf : ∀ x ∈ xs, ∀ js, FuelFor g fuel js → Takes g [x] js (f js x))
    (hFuel : FuelFor g fuel jobs) :
    Takes g xs jobs (xs.foldlM f jobs) := by
  induction xs generalizing jobs with
  | nil => exact ⟨jobs, rfl, .nil _⟩
  | cons x xs ih =>
      rw [List.foldlM_cons]
      refine (hf x List.mem_cons_self jobs hFuel).bind hFuel ?_
      intro mid hMid
      exact ih (fun y hy => hf y (List.mem_cons_of_mem _ hy)) hMid

/- Only a root has to be loaded. -/
theorem takes_addJob
    {name requiredBy : N}
    {required : Bool}
    (hName : Normal name)
    (hRoot :
      required = true → requiredBy = UnitNames.empty → g.Loaded name)
    (hFuel : FuelFor g fuel jobs) :
    Takes g [name] jobs
      (addJob g .stop fuel name requiredBy required jobs) := by
  induction fuel generalizing name requiredBy required jobs with
  | zero => exact absurd hFuel.fuel (Nat.not_lt_zero _)
  | succ fuel ih =>
      simp only [addJob, hName.1, if_neg hName.2]
      split
      · rename_i hOld
        exact .same (fun _ => hOld)
      rename_i hNew
      split
      · rename_i hNone
        have hNot : ¬ g.Loaded name := by
          simp [Graph.loaded_iff_nodeAt, hNone]
        rw [if_neg]
        · exact .same (fun h => absurd h hNot)
        · rintro ⟨hRequired, hBad | hEmpty⟩
          · cases hBad
          · exact hNot (hRoot hRequired hEmpty)
      · rename_i n hn
        have hLoaded : g.Loaded name :=
          Graph.loaded_iff_nodeAt.mpr ⟨n, hn⟩
        have hWell := g.wellNamed n (Graph.nodeAt_some hn).1
        have hRoom := hFuel.enter hNew hLoaded .stop
        -- a dependency is no root
        have hDeps :
            ∀ (deps : List N) (req : Bool) (js : List (Job N)),
              (∀ x ∈ deps, Normal x) → FuelFor g fuel js →
              Takes g deps js
                (deps.foldlM
                  (fun js dep => addJob g .stop fuel dep name req js)
                  js) := by
          intro deps req js hNormal hjs
          refine takes_foldlM (fun x hx js hjs => ?_) hjs
          exact ih (hNormal x hx) (fun _ h => absurd h hName.2) hjs
        have hAll :=
          (hDeps n.requires true _ hWell.requires hRoom).bind hRoom
            (fun js hjs =>
              (hDeps n.bindsTo true js hWell.bindsTo hjs).bind hjs
                (fun js hjs =>
                  hDeps n.wants false js hWell.wants hjs))
        rw [← List.append_assoc] at hAll
        rcases hAll with ⟨jobs', hEq, hMarked⟩
        exact ⟨jobs', hEq, marked_visit hn hNew hMarked⟩

/- The roots, without repetitions, and what they take in. -/
structure Rooted
    (g : Graph N)
    (names roots : List N)
    (jobs : List (Job N)) : Prop where
  names : ∀ x, x ∈ roots ↔ ∃ n ∈ names, normalizeName n = x
  marked :
    Marked g.pulls (roots.filter (fun x => g.Loaded x)) []
      (jobs.map Job.name)

theorem rooted_addRoot
    {names rs : List N}
    (h : Rooted g names rs jobs)
    {name : N}
    (hLoaded : g.Loaded (normalizeName name)) :
    ∃ rs' jobs', addRoot g .stop (rs, jobs) name = .ok (rs', jobs') ∧
      Rooted g (names ++ [name]) rs' jobs' := by
  have hNormal := Graph.normal_of_loaded hLoaded
  unfold addRoot
  dsimp only
  rw [if_neg hNormal.2]
  split
  · rename_i hOld
    refine ⟨rs, jobs, rfl, ?_, h.marked⟩
    intro x
    simp only [List.mem_append, List.mem_singleton, or_and_right,
      exists_or, exists_eq_left, ← h.names x]
    constructor
    · exact Or.inl
    · rintro (hx | rfl)
      · exact hx
      · exact hOld
  · have hTakes :
        Takes g [normalizeName name] jobs
          (addJob g .stop g.planFuel (normalizeName name)
            UnitNames.empty true jobs) :=
      takes_addJob hNormal (fun _ _ => hLoaded)
        ((fuelFor_start g).marked h.marked)
    rcases hTakes with ⟨jobs', hEq, hMarked⟩
    rw [hEq]
    refine ⟨rs ++ [normalizeName name], jobs', rfl, ?_, ?_⟩
    · intro x
      simp [h.names x, or_and_right, exists_or, eq_comm]
    · rw [List.filter_append]
      exact h.marked.append hMarked

variable {names : List N}

theorem rooted_addRoots
    (hLoaded : ∀ n ∈ names, g.Loaded (normalizeName n)) :
    ∃ roots jobs, addRoots g .stop names = .ok (roots, jobs) ∧
      Rooted g names roots jobs := by
  have hFold :
      ∀ (rest done rs : List N) (jobs : List (Job N)),
        (∀ n ∈ rest, g.Loaded (normalizeName n)) →
        Rooted g done rs jobs →
        ∃ roots jobs',
          rest.foldlM (addRoot g .stop) (rs, jobs) =
            .ok (roots, jobs') ∧
          Rooted g (done ++ rest) roots jobs' := by
    intro rest
    induction rest with
    | nil =>
        intro done rs jobs _ hRooted
        exact ⟨rs, jobs, rfl, by rwa [List.append_nil]⟩
    | cons name rest ih =>
        intro done rs jobs hAll hRooted
        rcases rooted_addRoot hRooted (hAll name List.mem_cons_self) with
          ⟨rs', jobs', hEq, hRooted'⟩
        rw [List.foldlM_cons, hEq, List.append_cons]
        exact ih _ rs' jobs'
          (fun n hn => hAll n (List.mem_cons_of_mem _ hn)) hRooted'
  exact hFold names [] [] [] hLoaded ⟨by simp, .nil _⟩

------------------------------------------------------------
-- What Is Ordered After The Roots
------------------------------------------------------------

namespace Graph

variable {x y : N}

/- Both ends of an ordering edge are loaded. -/
theorem OrderedAfter.loaded
    (h : g.OrderedAfter y x) :
    g.Loaded y ∧ g.Loaded x := by
  unfold OrderedAfter waitsAt at h
  split at h
  · rename_i n hn
    exact ⟨loaded_iff_nodeAt.mpr ⟨n, hn⟩,
      g.waits_loaded n (nodeAt_some hn).1 x h⟩
  · cases h

theorem mem_afterSuccessors
    (hx : Normal x) :
    y ∈ g.afterSuccessors x ↔ g.OrderedAfter y x := by
  unfold afterSuccessors
  rw [List.mem_filter, mem_names, hx.1, decide_eq_true_eq]
  exact ⟨And.right, fun h => ⟨h.loaded.1, h⟩⟩

theorem loaded_of_afterSuccessors
    (h : y ∈ g.afterSuccessors x) :
    g.Loaded y :=
  mem_names.mp (List.mem_of_mem_filter h)

/- The walk is depth-first marking from the successors. -/
theorem walkAfter_eq_markAll
    (g : Graph N)
    (fuel : Nat)
    (name : N)
    (seen : List N) :
    g.walkAfter fuel name seen =
      markAll g.afterSuccessors fuel (g.afterSuccessors name) seen := by
  induction fuel generalizing name seen with
  | zero =>
      unfold markAll
      induction g.afterSuccessors name with
      | nil => rfl
      | cons y ys ih => exact ih
  | succ fuel ih =>
      have hStep :
          (fun (seen : List N) later =>
            if later ∈ seen then seen
            else g.walkAfter fuel later (later :: seen)) =
            fun seen y => mark g.afterSuccessors (fuel + 1) y seen := by
        funext seen later
        rw [ih]
        rfl
      rw [walkAfter, hStep]
      rfl

/- From a loaded unit the walk goes along reversed ordering. -/
theorem transGen_afterSuccessors
    {r x : N}
    (hr : g.Loaded r) :
    TransGen (Edge g.afterSuccessors) r x ↔
      TransGen g.OrderedAfter x r := by
  constructor
  · intro h
    have hBoth : g.Loaded x ∧ TransGen g.OrderedAfter x r := by
      induction h with
      | single hEdge =>
          refine ⟨loaded_of_afterSuccessors hEdge, .single ?_⟩
          exact (mem_afterSuccessors (normal_of_loaded hr)).mp hEdge
      | tail _ hEdge ih =>
          refine ⟨loaded_of_afterSuccessors hEdge, .head ?_ ih.2⟩
          exact (mem_afterSuccessors (normal_of_loaded ih.1)).mp hEdge
    exact hBoth.2
  · intro h
    rw [← Relation.transGen_swap] at h
    refine TransGen.mono (fun a b hAfter => ?_) _ _ h
    exact (mem_afterSuccessors
      (normal_of_loaded (OrderedAfter.loaded hAfter).2)).mpr hAfter

/- The closure is what is transitively ordered after a root. -/
theorem mem_afterClosure
    {roots : List N}
    (hRoots : ∀ r ∈ roots, g.Loaded r) :
    x ∈ g.afterClosure roots ↔
      ∃ r ∈ roots, TransGen g.OrderedAfter x r := by
  have hWalk :
      roots.foldl
          (fun seen r => g.walkAfter g.planFuel (normalizeName r) seen)
          [] =
        markAll g.afterSuccessors g.planFuel
          (roots.flatMap g.afterSuccessors) [] := by
    rw [markAll, List.foldl_flatMap]
    refine List.foldl_ext _ _ _ (fun seen r hr => ?_)
    rw [(normal_of_loaded (hRoots r hr)).1, walkAfter_eq_markAll]
    rfl
  have hLength : g.names.length ≤ g.planFuel := by
    simp [names, planFuel]
  have hMark :
      x ∈ markAll g.afterSuccessors g.planFuel
          (roots.flatMap g.afterSuccessors) [] ↔
        ∃ y ∈ roots.flatMap g.afterSuccessors,
          ReflTransGen (Edge g.afterSuccessors) y x := by
    refine Lib.Digraph.mem_markAll_iff
      (fun _ _ _ hy => mem_names.mpr (loaded_of_afterSuccessors hy))
      ?_ hLength
    intro y hy
    rcases List.mem_flatMap.mp hy with ⟨r, _, hy⟩
    exact mem_names.mpr (loaded_of_afterSuccessors hy)
  rw [afterClosure, List.mem_insertionSort, hWalk, hMark]
  constructor
  · rintro ⟨y, hy, hPath⟩
    rcases List.mem_flatMap.mp hy with ⟨r, hr, hy⟩
    exact ⟨r, hr,
      (transGen_afterSuccessors (hRoots r hr)).mp (.head' hy hPath)⟩
  · rintro ⟨r, hr, hAfter⟩
    rcases TransGen.head'_iff.mp
        ((transGen_afterSuccessors (hRoots r hr)).mpr hAfter) with
      ⟨y, hy, hPath⟩
    exact ⟨y, List.mem_flatMap.mpr ⟨r, hr, hy⟩, hPath⟩

end Graph

------------------------------------------------------------
-- The Plan
------------------------------------------------------------

/-
  A set that a shutdown of the roots has to take down: it has
  the roots and what is ordered after them, and with a unit its
  loaded dependencies.
-/
structure TakesDown
    (g : Graph N)
    (names : List N)
    (S : N → Prop) : Prop where
  roots : ∀ r ∈ names, S (normalizeName r)
  later :
    ∀ r ∈ names, ∀ x,
      TransGen g.OrderedAfter x (normalizeName r) → S x
  deps :
    ∀ x n y, S x → g.nodeAt x = some n →
      y ∈ n.requires ++ n.bindsTo ++ n.wants → g.Loaded y → S y

/- The jobs of a shutdown are the least set to take down. -/
theorem jobs_shutdown
    (hLoaded : ∀ n ∈ names, g.Loaded (normalizeName n)) :
    ∃ roots jobs, planJobs g .stop names = .ok (roots, jobs) ∧
      TakesDown g names (· ∈ jobs.map Job.name) ∧
      ∀ S, TakesDown g names S → ∀ x ∈ jobs.map Job.name, S x := by
  rcases rooted_addRoots hLoaded with ⟨roots, jobs, hEq, hRooted⟩
  have hRoots : ∀ r ∈ roots, g.Loaded r := by
    intro r hr
    rcases (hRooted.names r).mp hr with ⟨n, hn, rfl⟩
    exact hLoaded n hn
  have hClosure : ∀ x ∈ g.afterClosure roots, g.Loaded x := by
    intro x hx
    rcases (Graph.mem_afterClosure hRoots).mp hx with ⟨r, _, hAfter⟩
    rcases TransGen.head'_iff.mp hAfter with ⟨y, hEdge, _⟩
    exact hEdge.loaded.1
  have hLater :
      Takes g (g.afterClosure roots) jobs (addLater g .stop roots jobs) := by
    refine takes_foldlM (fun x hx js hjs => ?_)
      ((fuelFor_start g).marked hRooted.marked)
    exact takes_addJob (Graph.normal_of_loaded (hClosure x hx))
      nofun hjs
  rcases hLater with ⟨jobs', hEq', hMarked⟩
  -- from nothing, the roots and then what is ordered after them
  have hAll := hRooted.marked.append hMarked
  rw [← List.filter_append] at hAll
  refine ⟨roots, jobs', ?_, ⟨?_, ?_, ?_⟩, ?_⟩
  · simp only [planJobs, hEq, bind, Except.bind, hEq', pure,
      Except.pure]
  · intro n hn
    apply hAll.roots
    rw [List.mem_filter, List.mem_append]
    exact ⟨.inl ((hRooted.names _).mpr ⟨n, hn, rfl⟩),
      decide_eq_true (hLoaded n hn)⟩
  · intro n hn x hAfter
    have hx : x ∈ g.afterClosure roots :=
      (Graph.mem_afterClosure hRoots).mpr
        ⟨_, (hRooted.names _).mpr ⟨n, hn, rfl⟩, hAfter⟩
    apply hAll.roots
    rw [List.mem_filter, List.mem_append]
    exact ⟨.inr hx, decide_eq_true (hClosure x hx)⟩
  · intro x n y hx hn hy hyLoaded
    rcases hAll.closed x hx with hNil | hSucc
    · cases hNil
    · exact hSucc y ((mem_pulls hn).mpr ⟨hy, hyLoaded⟩)
  · intro S hS x hx
    rcases hAll.reach x hx with hNil | ⟨r, hr, hReach⟩
    · cases hNil
    · have hStart : S r := by
        rw [List.mem_filter, List.mem_append] at hr
        rcases hr.1 with hRoot | hx'
        · rcases (hRooted.names r).mp hRoot with ⟨n, hn, rfl⟩
          exact hS.roots n hn
        · rcases (Graph.mem_afterClosure hRoots).mp hx' with
            ⟨q, hq, hAfter⟩
          rcases (hRooted.names q).mp hq with ⟨n, hn, rfl⟩
          exact hS.later n hn r hAfter
      refine Lib.Digraph.closed_reach (fun a b ha hEdge => ?_) hReach
        hStart
      rcases hNode : g.nodeAt a with _ | n
      · unfold Edge Graph.pulls at hEdge
        rw [hNode] at hEdge
        cases hEdge
      · have hDep := (mem_pulls hNode).mp hEdge
        exact hS.deps a n b ha hNode hDep.1 hDep.2

/-
  A graph without an ordering cycle can be shut down from any
  loaded roots.  The jobs are the least set to take down, and
  a job waits for exactly those that are ordered after it.
-/
theorem planShutdown_reverses
    (hOrdering : g.orderingCycle = none)
    {names : List N}
    (hNames : names ≠ [])
    (hLoaded : ∀ n ∈ names, g.Loaded (normalizeName n)) :
    ∃ tx, g.planShutdown names = .ok tx ∧
      TakesDown g names (· ∈ tx.jobNames) ∧
      (∀ S, TakesDown g names S → ∀ x ∈ tx.jobNames, S x) ∧
      ∀ a ∈ tx.jobNames, ∀ b ∈ tx.jobNames,
        a ∈ tx.waitsFor b ↔ g.OrderedAfter a b := by
  rcases jobs_shutdown hLoaded with ⟨roots, jobs, hJobs, hTakes, hLeast⟩
  have hNamed := jobNames_planJobs hJobs
  have hPlan :
      g.planShutdown names =
        (draft g .stop roots jobs hNamed).validate := by
    unfold Graph.planShutdown Graph.plan
    rw [if_neg hNames]
    split
    · rename_i e hError
      rw [hJobs] at hError
      cases hError
    · rename_i res hRes
      rw [hJobs] at hRes
      cases hRes
      rfl
  have hMem :
      ∀ x, x ∈ (draft g .stop roots jobs hNamed).jobNames ↔
        x ∈ jobs.map Job.name :=
    fun x => Transaction.mem_jobNames
  have hWaits :
      ∀ a b, a ∈ (draft g .stop roots jobs hNamed).waitsFor b ↔
        a ∈ jobs.map Job.name ∧ b ∈ jobs.map Job.name ∧
          g.OrderedAfter a b :=
    fun a b => mem_reverseWaits hNamed
  refine ⟨draft g .stop roots jobs hNamed, ?_, ?_, ?_, ?_⟩
  · rw [hPlan, Transaction.validate_ok_iff]
    refine ⟨rfl, ?_, ?_⟩
    · rcases List.exists_mem_of_ne_nil names hNames with ⟨n, hn⟩
      rintro rfl
      exact nomatch hTakes.roots n hn
    · -- a cycle of the waits is one of the ordering, reversed
      have hAcyclic := (findCycle_eq_none_iff _ _).mp hOrdering
      intro x hCycle
      apply hAcyclic x
      rw [← Relation.transGen_swap]
      refine TransGen.mono (fun b a hWait => ?_) _ _ hCycle
      have hAfter := ((hWaits a b).mp hWait.1).2.2
      exact ⟨hAfter, Graph.mem_names.mpr hAfter.loaded.2⟩
  · exact ⟨fun n hn => (hMem _).mpr (hTakes.roots n hn),
      fun n hn x hx => (hMem x).mpr (hTakes.later n hn x hx),
      fun x n y hx hn hy hyLoaded =>
        (hMem y).mpr (hTakes.deps x n y ((hMem x).mp hx) hn hy hyLoaded)⟩
  · exact fun S hS x hx => hLeast S hS x ((hMem x).mp hx)
  · intro a ha b hb
    rw [hWaits]
    exact ⟨fun h => h.2.2, fun h => ⟨(hMem a).mp ha, (hMem b).mp hb, h⟩⟩

section Chain

local instance shutdownNames : UnitNames String := asciiNames

/- A web server after its database, which wants a log. -/
def served : List (Option (UnitFile String)) :=
  [some
      { UnitFile.bare "web.service" .service with
        after := ["db.service"] },
    some
      { UnitFile.bare "db.service" .service with
        wants := ["log.service", "gone.service"] },
    some (.bare "log.service" .service)]

/- A shutdown of the database takes the others down with it. -/
theorem planShutdown_reverses_served :
    ∃ g tx, build served = .ok g ∧ g.orderingCycle = none ∧
      g.planShutdown ["db.service"] = .ok tx ∧
      tx.jobNames = ["db.service", "log.service", "web.service"] ∧
      TakesDown g ["db.service"] (· ∈ tx.jobNames) := by
  have hPlan :
      ∃ g tx, build served = .ok g ∧ g.orderingCycle = none ∧
        (∀ n ∈ ["db.service"], g.Loaded (normalizeName n)) ∧
        g.planShutdown ["db.service"] = .ok tx ∧
        tx.jobNames = ["db.service", "log.service", "web.service"] :=
    ⟨_, _, rfl, rfl, by simp; decide, rfl, rfl⟩
  rcases hPlan with ⟨g, tx, hBuild, hOrdering, hLoaded, hTx, hJobs⟩
  rcases planShutdown_reverses hOrdering (List.cons_ne_nil _ _)
    hLoaded with ⟨tx', hTx', hTakes, -⟩
  rw [hTx] at hTx'
  cases hTx'
  exact ⟨g, tx, hBuild, hOrdering, hTx, hJobs, hTakes⟩

end Chain

end Core

end Winunitd
