import Winunitd.Core.Transaction

/-
  Start plans are exact.

  A start takes in its roots and, over loaded units, whatever
  these require, bind to or want.  It is refused if a root or
  a requirement is not loaded, or if the ordering among what
  was taken in has a cycle, and for no other reason.  Neither
  the order of the units nor that of the roots matters.

  Key definitions include:
    * `Graph.pulls`, `Graph.Supplied`
    * `Reached`, `Startable`, `Plans`

  Key theorems include:
    * `outcome_addJob`
    * `planStart_exact`
-/

------------------------------------------------------------
-- Depth-First Planning
------------------------------------------------------------

namespace Winunitd

namespace Core

open UnitNames (normalizeName)
open Relation (ReflTransGen)
open Lib.Digraph (Acyclic Edge Marked unseen)

variable {N : Type}
variable [UnitNames N]

namespace Graph

/- The loaded units that a start of `x` takes in. -/
def pulls (g : Graph N) (x : N) : List N :=
  match g.nodeAt x with
  | none => []
  | some n =>
      (n.requires ++ n.bindsTo ++ n.wants).filter
        (fun y => g.Loaded y)

/- Whatever `x` requires is loaded. -/
def Supplied (g : Graph N) (x : N) : Prop :=
  ∀ n, g.nodeAt x = some n →
    ∀ y ∈ n.requires ++ n.bindsTo, g.Loaded y

end Graph

variable {g : Graph N}

variable {n : Node N}
variable {x y : N}

theorem mem_pulls
    (hn : g.nodeAt x = some n) :
    y ∈ g.pulls x ↔
      y ∈ n.requires ++ n.bindsTo ++ n.wants ∧ g.Loaded y := by
  unfold Graph.pulls
  rw [hn]
  simp only [List.mem_filter, decide_eq_true_eq]

theorem loaded_of_pulls
    (h : y ∈ g.pulls x) :
    g.Loaded y := by
  unfold Graph.pulls at h
  split at h
  · cases h
  · exact of_decide_eq_true (List.mem_filter.mp h).2

/- What a loaded unit takes in is loaded. -/
theorem loaded_of_reach
    (hx : g.Loaded x)
    (h : ReflTransGen (Edge g.pulls) x y) :
    g.Loaded y := by
  cases h with
  | refl => exact hx
  | tail _ hEdge => exact loaded_of_pulls hEdge

/- The jobs after the names `xs` were added. -/
structure Added
    (g : Graph N)
    (xs : List N)
    (jobs jobs' : List (Job N)) : Prop where
  marked :
    Marked g.pulls (xs.filter (fun x => g.Loaded x))
      (jobs.map Job.name) (jobs'.map Job.name)
  supplied :
    ∀ x ∈ jobs'.map Job.name,
      x ∈ jobs.map Job.name ∨ g.Supplied x

theorem Added.append
    {xs ys : List N}
    {jobs mid jobs' : List (Job N)}
    (hx : Added g xs jobs mid)
    (hy : Added g ys mid jobs') :
    Added g (xs ++ ys) jobs jobs' where
  marked := by
    rw [List.filter_append]
    exact hx.marked.append hy.marked
  supplied x hx' := by
    rcases hy.supplied x hx' with hMid | hSupplied
    · exact hx.supplied x hMid
    · exact Or.inr hSupplied

variable {xs : List N}
variable {jobs : List (Job N)}

theorem Added.same
    (h : ∀ x ∈ xs, g.Loaded x → x ∈ jobs.map Job.name) :
    Added g xs jobs jobs where
  marked := by
    refine ⟨fun _ hy => hy, ?_, fun _ hy => Or.inl hy,
      fun _ hy => Or.inl hy, fun hNodup => hNodup⟩
    intro x hx
    rw [List.mem_filter, decide_eq_true_eq] at hx
    exact h x hx.1 hx.2
  supplied x hx := Or.inl hx

/-
  What comes of adding the names `xs`: they are added with
  all they take in, or a needed one or a requirement of what
  they take in is not loaded.
-/
def AddOutcome
    (g : Graph N)
    (needed : Bool)
    (xs : List N)
    (jobs : List (Job N)) :
    Except (PlanError N) (List (Job N)) → Prop
| .ok jobs' =>
    Added g xs jobs jobs' ∧ (needed = true → ∀ x ∈ xs, g.Loaded x)
| .error _ =>
    (needed = true ∧ ∃ x ∈ xs, ¬ g.Loaded x) ∨
      ∃ x ∈ xs, g.Loaded x ∧
        ∃ y, ReflTransGen (Edge g.pulls) x y ∧ ¬ g.Supplied y

/- Jobs are loaded, and there is fuel for the units without. -/
structure FuelFor
    (g : Graph N)
    (fuel : Nat)
    (jobs : List (Job N)) : Prop where
  loaded : ∀ x ∈ jobs.map Job.name, g.Loaded x
  fuel : (unseen g.names (jobs.map Job.name)).length < fuel

variable {fuel : Nat}

theorem FuelFor.marked
    {jobs jobs' : List (Job N)}
    (h : FuelFor g fuel jobs)
    (hMarked :
      Marked g.pulls (xs.filter (fun x => g.Loaded x))
        (jobs.map Job.name) (jobs'.map Job.name)) :
    FuelFor g fuel jobs' where
  loaded x hx := by
    rcases hMarked.reach x hx with hOld | ⟨r, hr, hReach⟩
    · exact h.loaded x hOld
    · rw [List.mem_filter, decide_eq_true_eq] at hr
      exact loaded_of_reach hr.2 hReach
  fuel :=
    lt_of_le_of_lt
      (Lib.Digraph.unseen_length_mono hMarked.mono) h.fuel

theorem FuelFor.added
    {jobs jobs' : List (Job N)}
    (h : FuelFor g fuel jobs)
    (hAdded : Added g xs jobs jobs') :
    FuelFor g fuel jobs' :=
  h.marked hAdded.marked

variable {name : N}

theorem FuelFor.enter
    (h : FuelFor g (fuel + 1) jobs)
    (hNew : ¬ planned jobs name)
    (hLoaded : g.Loaded name)
    (kind : JobKind) :
    FuelFor g fuel (jobs ++ [⟨name, kind⟩]) := by
  have hNames :
      ∀ x, x ∈ (jobs ++ [(⟨name, kind⟩ : Job N)]).map Job.name ↔
        x ∈ name :: jobs.map Job.name := by
    intro x
    simp [or_comm]
  constructor
  · intro x hx
    rcases List.mem_cons.mp ((hNames x).mp hx) with rfl | hOld
    · exact hLoaded
    · exact h.loaded x hOld
  · have hLess :=
      Lib.Digraph.unseen_length_visit (Graph.mem_names.mpr hLoaded)
        hNew
    have hSame :
        (unseen g.names
            ((jobs ++ [(⟨name, kind⟩ : Job N)]).map Job.name)).length ≤
          (unseen g.names (name :: jobs.map Job.name)).length :=
      Lib.Digraph.unseen_length_mono (fun x hx => (hNames x).mpr hx)
    have hFuel := h.fuel
    omega

/- Names are added one after the other. -/
theorem outcome_foldlM
    {needed : Bool}
    {f : List (Job N) → N → Except (PlanError N) (List (Job N))}
    (hf :
      ∀ x ∈ xs, ∀ js, FuelFor g fuel js →
        AddOutcome g needed [x] js (f js x))
    (hFuel : FuelFor g fuel jobs) :
    AddOutcome g needed xs jobs (xs.foldlM f jobs) := by
  induction xs generalizing jobs with
  | nil =>
      exact
        ⟨Added.same (fun x hx => nomatch hx), fun _ x hx => nomatch hx⟩
  | cons x xs ih =>
      rw [List.foldlM_cons]
      have hHead := hf x List.mem_cons_self jobs hFuel
      cases hRes : f jobs x with
      | error e =>
          rw [hRes] at hHead
          rcases hHead with ⟨hNeeded, y, hy, hNot⟩ | ⟨y, hy, hBad⟩
          · rw [List.mem_singleton.mp hy] at hNot
            exact Or.inl ⟨hNeeded, x, List.mem_cons_self, hNot⟩
          · rw [List.mem_singleton.mp hy] at hBad
            exact Or.inr ⟨x, List.mem_cons_self, hBad⟩
      | ok mid =>
          rw [hRes] at hHead
          rcases hHead with ⟨hAdded, hLoaded⟩
          have hRest :=
            ih (fun y hy => hf y (List.mem_cons_of_mem _ hy))
              (hFuel.added hAdded)
          show AddOutcome g needed (x :: xs) jobs (xs.foldlM f mid)
          cases hLoop : xs.foldlM f mid with
          | error e =>
              rw [hLoop] at hRest
              rcases hRest with ⟨hNeeded, y, hy, hNot⟩ | ⟨y, hy, hBad⟩
              · exact Or.inl
                  ⟨hNeeded, y, List.mem_cons_of_mem _ hy, hNot⟩
              · exact Or.inr ⟨y, List.mem_cons_of_mem _ hy, hBad⟩
          | ok jobs' =>
              rw [hLoop] at hRest
              refine ⟨hAdded.append hRest.1, ?_⟩
              intro hNeeded y hy
              rcases List.mem_cons.mp hy with rfl | hy
              · exact hLoaded hNeeded y List.mem_cons_self
              · exact hRest.2 hNeeded y hy

section

variable (hn : g.nodeAt name = some n)

include hn

section

variable {jobs jobs' : List (Job N)}
variable {needed needed' : Bool}

/- A failure below a unit is a failure of the unit. -/
theorem AddOutcome.below
    {e e' : PlanError N}
    (h : AddOutcome g needed xs jobs (.error e))
    (hNeeds : needed = true → ∀ x ∈ xs, x ∈ n.requires ++ n.bindsTo)
    (hPulls : ∀ x ∈ xs, x ∈ n.requires ++ n.bindsTo ++ n.wants) :
    AddOutcome g needed' [name] jobs' (.error e') := by
  have hLoaded : g.Loaded name :=
    Graph.loaded_iff_nodeAt.mpr ⟨n, hn⟩
  refine Or.inr ⟨name, List.mem_cons_self, hLoaded, ?_⟩
  rcases h with ⟨hNeeded, x, hx, hNot⟩ | ⟨x, hx, hx', y, hReach, hBad⟩
  · refine ⟨name, .refl, ?_⟩
    intro hSupplied
    exact hNot (hSupplied n hn x (hNeeds hNeeded x hx))
  · refine ⟨y, .head ?_ hReach, hBad⟩
    exact (mem_pulls hn).mpr ⟨hPulls x hx, hx'⟩

/- A unit goes on when what it takes in has been added. -/
theorem AddOutcome.andThen
    {res : Except (PlanError N) (List (Job N))}
    {f : List (Job N) → Except (PlanError N) (List (Job N))}
    (h : AddOutcome g needed xs jobs res)
    (hNeeds : needed = true → ∀ x ∈ xs, x ∈ n.requires ++ n.bindsTo)
    (hPulls : ∀ x ∈ xs, x ∈ n.requires ++ n.bindsTo ++ n.wants)
    (hNext :
      ∀ mid, Added g xs jobs mid →
        (needed = true → ∀ x ∈ xs, g.Loaded x) →
        AddOutcome g needed' [name] jobs' (f mid)) :
    AddOutcome g needed' [name] jobs' (res >>= f) := by
  cases res with
  | error e => exact h.below hn hNeeds hPulls
  | ok mid => exact hNext mid h.1 h.2

/- A new job, once all that it takes in has been marked. -/
theorem marked_visit
    {kind : JobKind}
    (hNew : ¬ planned jobs name)
    (h :
      Marked g.pulls
        ((n.requires ++ n.bindsTo ++ n.wants).filter
          (fun x => g.Loaded x))
        ((jobs ++ [(⟨name, kind⟩ : Job N)]).map Job.name)
        (jobs'.map Job.name)) :
    Marked g.pulls ([name].filter (fun x => g.Loaded x))
      (jobs.map Job.name) (jobs'.map Job.name) := by
  have hLoaded : g.Loaded name :=
    Graph.loaded_iff_nodeAt.mpr ⟨n, hn⟩
  have hOne : [name].filter (fun x => g.Loaded x) = [name] := by
    simp [hLoaded]
  have hPulls :
      g.pulls name =
        (n.requires ++ n.bindsTo ++ n.wants).filter
          (fun y => g.Loaded y) := by
    unfold Graph.pulls
    rw [hn]
  rw [hOne]
  apply Marked.visit hNew
  rw [hPulls]
  refine h.perm ?_
  rw [List.map_append]
  exact List.perm_append_singleton name (jobs.map Job.name)

theorem Added.visit
    (hNew : ¬ planned jobs name)
    (hNeeds : ∀ x ∈ n.requires ++ n.bindsTo, g.Loaded x)
    (h :
      Added g (n.requires ++ n.bindsTo ++ n.wants)
        (jobs ++ [⟨name, .start⟩]) jobs') :
    Added g [name] jobs jobs' := by
  constructor
  · exact marked_visit hn hNew h.marked
  · intro x hx
    rcases h.supplied x hx with hOld | hSupplied
    · rw [List.map_append] at hOld
      rcases List.mem_append.mp hOld with hOld | hSelf
      · exact Or.inl hOld
      · have hEq : x = name := by simpa using hSelf
        subst hEq
        refine Or.inr (fun m hm => ?_)
        rw [hn] at hm
        cases hm
        exact hNeeds
    · exact Or.inr hSupplied

end

/- What a unit takes in, in the order of the source. -/
theorem outcome_deps
    {requiredBy : N}
    {required : Bool}
    {jobs jobs₀ : List (Job N)}
    (hOne :
      ∀ dep req js, Normal dep → FuelFor g fuel js →
        AddOutcome g req [dep] js
          (addJob g .start fuel dep requiredBy req js))
    (hFuel : FuelFor g fuel jobs₀)
    (hDone :
      ∀ jobs', (∀ x ∈ n.requires ++ n.bindsTo, g.Loaded x) →
        Added g (n.requires ++ n.bindsTo ++ n.wants) jobs₀ jobs' →
        AddOutcome g required [name] jobs (.ok jobs')) :
    AddOutcome g required [name] jobs
      (do
        let jobs ← n.requires.foldlM
          (fun jobs dep =>
            addJob g .start fuel dep requiredBy true jobs) jobs₀
        let jobs ← n.bindsTo.foldlM
          (fun jobs dep =>
            addJob g .start fuel dep requiredBy true jobs) jobs
        n.wants.foldlM
          (fun jobs dep =>
            addJob g .start fuel dep requiredBy false jobs) jobs) := by
  have hWell := g.wellNamed n (Graph.nodeAt_some hn).1
  refine (outcome_foldlM
    (fun x hx js => hOne x true js (hWell.requires x hx)) hFuel).andThen
    hn (fun _ x hx => List.mem_append_left _ hx)
    (fun x hx => List.mem_append_left _ (List.mem_append_left _ hx)) ?_
  intro jobs₁ hRequires hFirst
  have hFuel₁ := hFuel.added hRequires
  refine (outcome_foldlM
    (fun x hx js => hOne x true js (hWell.bindsTo x hx)) hFuel₁).andThen
    hn (fun _ x hx => List.mem_append_right _ hx)
    (fun x hx => List.mem_append_left _ (List.mem_append_right _ hx)) ?_
  intro jobs₂ hBindsTo hSecond
  have hWants := outcome_foldlM
    (fun x hx js => hOne x false js (hWell.wants x hx))
    (hFuel₁.added hBindsTo)
  rw [← bind_pure (n.wants.foldlM _ jobs₂)]
  refine hWants.andThen hn nofun
    (fun x hx => List.mem_append_right _ hx) ?_
  intro jobs₃ hLast _
  refine hDone jobs₃ ?_ ((hRequires.append hBindsTo).append hLast)
  intro x hx
  rcases List.mem_append.mp hx with hx | hx
  · exact hFirst rfl x hx
  · exact hSecond rfl x hx

end

/- Planning one name. -/
theorem outcome_addJob
    {name requiredBy : N}
    {required : Bool}
    (hName : Normal name)
    (hFuel : FuelFor g fuel jobs) :
    AddOutcome g required [name] jobs
      (addJob g .start fuel name requiredBy required jobs) := by
  induction fuel generalizing name requiredBy required jobs with
  | zero => exact absurd hFuel.fuel (Nat.not_lt_zero _)
  | succ fuel ih =>
      simp only [addJob, hName.1, if_neg hName.2]
      split
      · rename_i hOld
        refine ⟨Added.same ?_, ?_⟩
        · intro x hx _
          rw [List.mem_singleton.mp hx]
          exact hOld
        · intro _ x hx
          rw [List.mem_singleton.mp hx]
          exact hFuel.loaded name hOld
      · rename_i hNew
        split
        · rename_i hNone
          have hNot : ¬ g.Loaded name := by
            simp [Graph.loaded_iff_nodeAt, hNone]
          split
          · rename_i hNeeded
            exact Or.inl ⟨hNeeded.1, name, List.mem_cons_self, hNot⟩
          · rename_i hNotNeeded
            refine ⟨Added.same ?_, ?_⟩
            · intro x hx hLoaded
              rw [List.mem_singleton.mp hx] at hLoaded
              exact absurd hLoaded hNot
            · intro hNeeded
              exact absurd ⟨hNeeded, Or.inl trivial⟩ hNotNeeded
        · rename_i n hn
          have hLoaded : g.Loaded name :=
            Graph.loaded_iff_nodeAt.mpr ⟨n, hn⟩
          refine outcome_deps hn
            (fun dep req js hDep hRoom => ih hDep hRoom)
            (hFuel.enter hNew hLoaded .start) ?_
          intro jobs' hNeeds hAdded
          refine ⟨hAdded.visit hn hNew hNeeds, ?_⟩
          intro _ x hx
          rw [List.mem_singleton.mp hx]
          exact hLoaded

------------------------------------------------------------
-- Roots
------------------------------------------------------------

/- What comes of adding roots to the roots `rs`. -/
def RootsOutcome
    (g : Graph N)
    (names rs : List N) :
    Except (PlanError N) (List N × List (Job N)) → Prop
| .ok (rs', jobs) =>
    Added g rs' [] jobs ∧ (∀ x ∈ rs', g.Loaded x) ∧
      ∀ x, x ∈ rs' ↔ x ∈ rs ∨ ∃ n ∈ names, normalizeName n = x
| .error _ =>
    ∃ n ∈ names, ¬ g.Loaded (normalizeName n) ∨
      ∃ y, ReflTransGen (Edge g.pulls) (normalizeName n) y ∧
        ¬ g.Supplied y

/- One root. -/
def addRoot
    (g : Graph N)
    (kind : JobKind)
    (acc : List N × List (Job N))
    (name : N) :
    Except (PlanError N) (List N × List (Job N)) :=
  let name := normalizeName name
  if name = UnitNames.empty then .error .emptyName
  else if name ∈ acc.1 then .ok acc
  else do
    let jobs ← addJob g kind g.planFuel name UnitNames.empty true acc.2
    .ok (acc.1 ++ [name], jobs)

/- There is fuel for every unit. -/
theorem fuelFor_start (g : Graph N) : FuelFor g g.planFuel [] where
  loaded := fun x hx => nomatch hx
  fuel := by
    have hLe :
        (unseen g.names []).length ≤ g.names.length :=
      List.length_filter_le _ _
    have hLength : g.names.length = g.nodes.length := by
      simp [Graph.names]
    show (unseen g.names []).length < g.planFuel
    unfold Graph.planFuel
    omega

private theorem outcome_addRoot
    {rs : List N}
    (hAdded : Added g rs [] jobs)
    (hLoaded : ∀ x ∈ rs, g.Loaded x)
    (name : N) :
    RootsOutcome g [name] rs (addRoot g .start (rs, jobs) name) := by
  unfold addRoot
  dsimp only
  split
  · rename_i hEmpty
    refine ⟨name, List.mem_cons_self, Or.inl ?_⟩
    intro h
    exact (Graph.normal_of_loaded h).2 hEmpty
  · rename_i hNamed
    split
    · rename_i hOld
      refine ⟨hAdded, hLoaded, ?_⟩
      intro x
      simp only [List.mem_singleton, exists_eq_left]
      constructor
      · exact Or.inl
      · rintro (hx | rfl)
        · exact hx
        · exact hOld
    · have hOut :
          AddOutcome g true [normalizeName name] jobs
            (addJob g .start g.planFuel (normalizeName name)
              UnitNames.empty true jobs) :=
        outcome_addJob ⟨UnitNames.normalizeName_idem name, hNamed⟩
          ((fuelFor_start g).added hAdded)
      cases hRes : addJob g .start g.planFuel (normalizeName name)
          UnitNames.empty true jobs with
      | error e =>
          rw [hRes] at hOut
          refine ⟨name, List.mem_cons_self, ?_⟩
          rcases hOut with ⟨_, x, hx, hNot⟩ | ⟨x, hx, _, hBad⟩
          · rw [List.mem_singleton.mp hx] at hNot
            exact Or.inl hNot
          · rw [List.mem_singleton.mp hx] at hBad
            exact Or.inr hBad
      | ok jobs' =>
          rw [hRes] at hOut
          refine ⟨hAdded.append hOut.1, ?_, ?_⟩
          · intro x hx
            rcases List.mem_append.mp hx with hx | hx
            · exact hLoaded x hx
            · exact hOut.2 rfl x hx
          · intro x
            simp [eq_comm]

theorem outcome_addRoots
    (g : Graph N)
    (names : List N) :
    RootsOutcome g names [] (addRoots g .start names) := by
  have hFold :
      ∀ (rs : List N) (jobs : List (Job N)), Added g rs [] jobs →
        (∀ x ∈ rs, g.Loaded x) →
        RootsOutcome g names rs (names.foldlM (addRoot g .start) (rs, jobs)) := by
    induction names with
    | nil =>
        intro rs jobs hAdded hLoaded
        exact ⟨hAdded, hLoaded, by simp⟩
    | cons name names ih =>
        intro rs jobs hAdded hLoaded
        rw [List.foldlM_cons]
        have hHead := outcome_addRoot hAdded hLoaded name
        cases hRes : addRoot g .start (rs, jobs) name with
        | error e =>
            rw [hRes] at hHead
            rcases hHead with ⟨n, hn, hBad⟩
            rw [List.mem_singleton.mp hn] at hBad
            exact ⟨name, List.mem_cons_self, hBad⟩
        | ok acc =>
            rw [hRes] at hHead
            rcases hHead with ⟨hAdded', hLoaded', hRoots⟩
            have hRest := ih acc.1 acc.2 hAdded' hLoaded'
            show RootsOutcome g (name :: names) rs
              (names.foldlM (addRoot g .start) acc)
            cases hLoop : names.foldlM (addRoot g .start) acc with
            | error e =>
                rw [hLoop] at hRest
                rcases hRest with ⟨n, hn, hBad⟩
                exact ⟨n, List.mem_cons_of_mem _ hn, hBad⟩
            | ok acc' =>
                rw [hLoop] at hRest
                refine ⟨hRest.1, hRest.2.1, ?_⟩
                intro x
                rw [hRest.2.2, hRoots]
                simp [or_assoc]
  exact hFold [] [] (Added.same (fun x hx => nomatch hx))
    (fun x hx => nomatch hx)

------------------------------------------------------------
-- What A Start Means
------------------------------------------------------------

abbrev Units (N : Type) := List (Option (UnitFile N))

/- A dependency list names `x`, in normal form. -/
def Lists (names : List N) (x : N) : Prop :=
  (∃ d ∈ names, normalizeName d = x) ∧ x ≠ UnitNames.empty

/- `u` is the unit that is loaded as `x`. -/
def LoadedAs (units : Units N) (x : N) (u : UnitFile N) : Prop :=
  some u ∈ units ∧ normalizeName u.name = x

def IsLoaded (units : Units N) (x : N) : Prop :=
  ∃ u, LoadedAs units x u

/- `x` has `Requires=` or `BindsTo=` for `y`. -/
def Needs (units : Units N) (x y : N) : Prop :=
  ∃ u, LoadedAs units x u ∧ (Lists u.requires y ∨ Lists u.bindsTo y)

/- A start of `x` takes in `y`. -/
def TakesIn (units : Units N) (x y : N) : Prop :=
  IsLoaded units y ∧
    (Needs units x y ∨ ∃ u, LoadedAs units x u ∧ Lists u.wants y)

/- `y` is ordered before `x`. -/
def Precedes (units : Units N) (y x : N) : Prop :=
  (∃ u, LoadedAs units x u ∧ Lists u.after y ∧ IsLoaded units y) ∨
    ∃ u, LoadedAs units y u ∧ Lists u.before x ∧ IsLoaded units x

/- What a start of the roots takes in. -/
def Reached (units : Units N) (roots : List N) (x : N) : Prop :=
  ∃ r ∈ roots, ReflTransGen (TakesIn units) (normalizeName r) x

/- The ordering among what is taken in. -/
def ReachedBefore
    (units : Units N)
    (roots : List N)
    (x y : N) : Prop :=
  Reached units roots x ∧ Reached units roots y ∧ Precedes units y x

structure Startable (units : Units N) (roots : List N) : Prop where
  loaded : ∀ r ∈ roots, IsLoaded units (normalizeName r)
  needs :
    ∀ x y, Reached units roots x → Needs units x y → IsLoaded units y
  acyclic : Acyclic (ReachedBefore units roots)

/- The plan has a job for what is taken in, each waiting for
   what is ordered before it. -/
structure Plans
    (units : Units N)
    (roots : List N)
    (tx : Transaction N) : Prop where
  jobs : ∀ x, x ∈ tx.jobNames ↔ Reached units roots x
  waits :
    ∀ x y, y ∈ tx.waitsFor x ↔ ReachedBefore units roots x y

------------------------------------------------------------
-- Built Graphs
------------------------------------------------------------

section Built

variable {units : Units N}

section

variable (h : build units = .ok g)

include h

/- The node of a loaded unit. -/
theorem nodeAt_loadedAs
    {u : UnitFile N} :
    LoadedAs units x u ↔ ∃ n, g.nodeAt x = some n ∧ n.unit = u := by
  rcases build_nodes h with ⟨hNodes, hUnits⟩
  constructor
  · rintro ⟨hu, rfl⟩
    rcases hUnits u hu with ⟨n, hn, rfl⟩
    have hName : n.name = normalizeName n.unit.name :=
      congrArg Node.name (hNodes n hn).2
    refine ⟨n, ?_, rfl⟩
    rw [← hName]
    exact Graph.nodeAt_of_mem hn
  · rintro ⟨n, hn, rfl⟩
    rcases Graph.nodeAt_some hn with ⟨hMem, rfl⟩
    exact
      ⟨(hNodes n hMem).1,
        (congrArg Node.name (hNodes n hMem).2).symm⟩

theorem loaded_iff :
    g.Loaded x ↔ IsLoaded units x := by
  rw [Graph.loaded_iff_nodeAt]
  constructor
  · rintro ⟨n, hn⟩
    exact ⟨n.unit, (nodeAt_loadedAs h).mpr ⟨n, hn, rfl⟩⟩
  · rintro ⟨u, hu⟩
    rcases (nodeAt_loadedAs h).mp hu with ⟨n, hn, _⟩
    exact ⟨n, hn⟩

/- The lists of a node are those of its unit. -/
theorem node_lists
    (hn : n ∈ g.nodes) :
    n.requires = uniqueStable n.unit.requires ∧
      n.bindsTo = uniqueStable n.unit.bindsTo ∧
      n.wants = uniqueStable n.unit.wants ∧
      n.after = uniqueStable n.unit.after ∧
      n.before = uniqueStable n.unit.before := by
  have hSame := ((build_nodes h).1 n hn).2
  exact
    ⟨congrArg Node.requires hSame, congrArg Node.bindsTo hSame,
      congrArg Node.wants hSame, congrArg Node.after hSame,
      congrArg Node.before hSame⟩

/- The unit that is loaded as `x` is that of the node. -/
theorem exists_loadedAs
    {P : UnitFile N → Prop} :
    (∃ u, LoadedAs units x u ∧ P u) ↔
      ∃ n, g.nodeAt x = some n ∧ P n.unit := by
  simp only [nodeAt_loadedAs h]
  constructor
  · rintro ⟨_, ⟨n, hn, rfl⟩, hP⟩
    exact ⟨n, hn, hP⟩
  · rintro ⟨n, hn, hP⟩
    exact ⟨n.unit, ⟨n, hn, rfl⟩, hP⟩

theorem supplied_iff :
    g.Supplied x ↔ ∀ y, Needs units x y → IsLoaded units y := by
  unfold Graph.Supplied Needs
  simp only [exists_loadedAs h, ← loaded_iff h]
  cases hNode : g.nodeAt x with
  | none => simp
  | some n =>
      rcases node_lists h (Graph.nodeAt_some hNode).1 with
        ⟨hRequires, hBindsTo, _⟩
      simp [hRequires, hBindsTo, mem_uniqueStable, Lists]

theorem pulls_iff :
    Edge g.pulls x y ↔ TakesIn units x y := by
  unfold Edge TakesIn Needs
  simp only [exists_loadedAs h, ← loaded_iff h]
  cases hNode : g.nodeAt x with
  | none => simp [Graph.pulls, hNode]
  | some n =>
      rcases node_lists h (Graph.nodeAt_some hNode).1 with
        ⟨hRequires, hBindsTo, hWants, _⟩
      rw [mem_pulls hNode, and_comm]
      simp [hRequires, hBindsTo, hWants, mem_uniqueStable, Lists,
        or_assoc]

theorem reach_iff :
    ReflTransGen (Edge g.pulls) x y ↔
      ReflTransGen (TakesIn units) x y := by
  have hSame : Edge g.pulls = TakesIn units := by
    funext a b
    exact propext (pulls_iff h)
  rw [hSame]

theorem waitsAt_iff
    (hx : g.Loaded x) :
    y ∈ g.waitsAt x ↔ Precedes units y x := by
  rcases Graph.loaded_iff_nodeAt.mp hx with ⟨n, hn⟩
  rcases Graph.nodeAt_some hn with ⟨hMem, hName⟩
  rcases node_lists h hMem with ⟨_, _, _, hAfter, _⟩
  unfold Graph.waitsAt
  rw [hn]
  show y ∈ n.waitsFor ↔ _
  rw [build_waitsFor h hMem, hAfter, hName, mem_uniqueStable,
    loaded_iff h]
  apply or_congr
  · rw [exists_loadedAs h, hn]
    simp [Lists, and_comm]
  · rw [exists_loadedAs h]
    constructor
    · rintro ⟨k, hk, rfl, hBefore⟩
      rw [(node_lists h hk).2.2.2.2, mem_uniqueStable] at hBefore
      exact ⟨k, Graph.nodeAt_of_mem hk, hBefore, (loaded_iff h).mp hx⟩
    · rintro ⟨k, hk, hBefore, _⟩
      rcases Graph.nodeAt_some hk with ⟨hkMem, hKey⟩
      refine ⟨k, hkMem, hKey, ?_⟩
      rw [(node_lists h hkMem).2.2.2.2, mem_uniqueStable]
      exact hBefore

/- The jobs of the roots are what a start of them takes in. -/
theorem planned_iff
    {names rs : List N}
    {jobs : List (Job N)}
    (hRoots : RootsOutcome g names [] (.ok (rs, jobs))) :
    x ∈ jobs.map Job.name ↔ Reached units names x := by
  rcases hRoots with ⟨hAdded, hLoaded, hNames⟩
  constructor
  · intro hx
    rcases hAdded.marked.reach x hx with hNil | ⟨r, hr, hReach⟩
    · cases hNil
    · rcases (hNames r).mp (List.mem_of_mem_filter hr) with
        hNil | ⟨n, hn, rfl⟩
      · cases hNil
      · exact ⟨n, hn, (reach_iff h).mp hReach⟩
  · rintro ⟨n, hn, hReach⟩
    have hRoot : normalizeName n ∈ rs :=
      (hNames _).mpr (Or.inr ⟨n, hn, rfl⟩)
    have hClosed :
        ∀ a b, a ∈ jobs.map Job.name → Edge g.pulls a b →
          b ∈ jobs.map Job.name := by
      intro a b ha hab
      rcases hAdded.marked.closed a ha with hNil | hAll
      · cases hNil
      · exact hAll b hab
    refine Lib.Digraph.closed_reach hClosed ((reach_iff h).mpr hReach)
      (hAdded.marked.roots _ ?_)
    rw [List.mem_filter, decide_eq_true_eq]
    exact ⟨hRoot, hLoaded _ hRoot⟩

end

theorem planJobs_start
    (g : Graph N)
    (names : List N) :
    planJobs g .start names = addRoots g .start names := by
  unfold planJobs
  cases addRoots g .start names with
  | error e => rfl
  | ok acc => rfl

variable {names : List N}

/- A plan is refused only if the roots cannot be started. -/
theorem not_startable
    (h : build units = .ok g)
    {e : PlanError N}
    (hRoots : RootsOutcome g names [] (.error e)) :
    ¬ Startable units names := by
  rintro hStart
  rcases hRoots with ⟨n, hn, hNot | ⟨y, hReach, hBad⟩⟩
  · exact hNot ((loaded_iff h).mpr (hStart.loaded n hn))
  · apply hBad
    rw [supplied_iff h]
    intro z hz
    exact hStart.needs y z ⟨n, hn, (reach_iff h).mp hReach⟩ hz

/- A draft over the roots' jobs is a plan for what they take in. -/
theorem plans_draft
    (h : build units = .ok g)
    {names rs : List N}
    {jobs : List (Job N)}
    (hRoots : RootsOutcome g names [] (.ok (rs, jobs)))
    (hJobs : JobNames g (jobs.map Job.name)) :
    Plans units names (draft g .start rs jobs hJobs) where
  jobs x := by
    rw [Transaction.mem_jobNames]
    exact planned_iff h hRoots
  waits x y := by
    show y ∈ startWaits (jobs.map Job.name) g x ↔ _
    rw [mem_startWaits hJobs]
    unfold ReachedBefore
    rw [planned_iff h hRoots, planned_iff h hRoots]
    refine and_congr_right (fun hx => and_congr_right (fun _ => ?_))
    exact waitsAt_iff h (hJobs.loaded x ((planned_iff h hRoots).mpr hx))

theorem Plans.waitsIn
    {tx : Transaction N}
    (hPlans : Plans units names tx) :
    WaitsIn tx.jobNames tx.waitsFor = ReachedBefore units names := by
  funext x y
  apply propext
  unfold WaitsIn
  rw [hPlans.waits, hPlans.jobs]
  exact ⟨fun hBoth => hBoth.1, fun hBefore => ⟨hBefore, hBefore.2.1⟩⟩

/- A start is planned exactly if its roots can be started. -/
theorem planStart_iff
    (h : build units = .ok g)
    (hNames : names ≠ []) :
    ((∃ tx, g.planStart names = .ok tx) ↔ Startable units names) ∧
      ∀ tx, g.planStart names = .ok tx → Plans units names tx := by
  have hOut := outcome_addRoots g names
  rw [← planJobs_start] at hOut
  unfold Graph.planStart Graph.plan
  rw [if_neg hNames]
  split
  · rename_i e hError
    rw [hError] at hOut
    refine ⟨iff_of_false ?_ (not_startable h hOut), ?_⟩
    · rintro ⟨tx, hTx⟩
      cases hTx
    · intro tx hTx
      cases hTx
  · rename_i res hOk
    rcases res with ⟨rs, jobs⟩
    rw [hOk] at hOut
    have hPlans := plans_draft h hOut (jobNames_planJobs hOk)
    have hSome : jobs ≠ [] := by
      rcases List.exists_mem_of_ne_nil names hNames with ⟨n, hn⟩
      have hMem : normalizeName n ∈ jobs.map Job.name :=
        (planned_iff h hOut).mpr ⟨n, hn, .refl⟩
      rintro rfl
      cases hMem
    constructor
    · constructor
      · rintro ⟨tx, hTx⟩
        rcases Transaction.validate_ok_iff.mp hTx with
          ⟨_, _, hAcyclic⟩
        rw [hPlans.waitsIn] at hAcyclic
        refine ⟨?_, ?_, hAcyclic⟩
        · intro r hr
          rw [← loaded_iff h]
          exact hOut.2.1 _ ((hOut.2.2 _).mpr (Or.inr ⟨r, hr, rfl⟩))
        · intro x y hx hNeeds
          rcases hOut.1.supplied x ((planned_iff h hOut).mpr hx) with
            hNil | hSupplied
          · cases hNil
          · exact (supplied_iff h).mp hSupplied y hNeeds
      · intro hStart
        refine ⟨_, Transaction.validate_ok_iff.mpr ⟨rfl, hSome, ?_⟩⟩
        rw [hPlans.waitsIn]
        exact hStart.acyclic
    · intro tx hTx
      rcases Transaction.validate_ok_iff.mp hTx with ⟨rfl, _⟩
      exact hPlans

------------------------------------------------------------
-- Orders Do Not Matter
------------------------------------------------------------

theorem Buildable.perm
    {units units' : Units N}
    (h : Buildable units)
    (hPerm : units.Perm units') :
    Buildable units' where
  named o ho := h.named o (hPerm.mem_iff.mpr ho)
  distinct := (hPerm.filterMap _).nodup_iff.mp h.distinct

/- What is taken in depends on the set of units and of roots. -/
theorem reached_congr
    {units units' : Units N}
    {roots roots' : List N}
    (hUnits : ∀ o, o ∈ units ↔ o ∈ units')
    (hRoots : ∀ r, r ∈ roots ↔ r ∈ roots') :
    Reached units roots = Reached units' roots' ∧
      ReachedBefore units roots = ReachedBefore units' roots' ∧
      (Startable units roots ↔ Startable units' roots') := by
  have hLoadedAs : LoadedAs units = LoadedAs units' := by
    funext x u
    unfold LoadedAs
    rw [hUnits]
  have hLoaded : IsLoaded units = IsLoaded units' := by
    funext x
    unfold IsLoaded
    rw [hLoadedAs]
  have hNeeds : Needs units = Needs units' := by
    funext x y
    unfold Needs
    rw [hLoadedAs]
  have hTakes : TakesIn units = TakesIn units' := by
    funext x y
    unfold TakesIn
    rw [hLoadedAs, hLoaded, hNeeds]
  have hPrecedes : Precedes units = Precedes units' := by
    funext x y
    unfold Precedes
    rw [hLoadedAs, hLoaded]
  have hReached : Reached units roots = Reached units' roots' := by
    funext x
    unfold Reached
    rw [hTakes]
    simp only [hRoots]
  have hBefore :
      ReachedBefore units roots = ReachedBefore units' roots' := by
    funext x y
    unfold ReachedBefore
    rw [hReached, hPrecedes]
  refine ⟨hReached, hBefore, ?_⟩
  constructor
  · intro h
    refine ⟨?_, ?_, hBefore ▸ h.acyclic⟩
    · rw [← hLoaded]
      exact fun r hr => h.loaded r ((hRoots r).mpr hr)
    · rw [← hReached, ← hNeeds, ← hLoaded]
      exact h.needs
  · intro h
    refine ⟨?_, ?_, hBefore ▸ h.acyclic⟩
    · rw [hLoaded]
      exact fun r hr => h.loaded r ((hRoots r).mp hr)
    · rw [hReached, hNeeds, hLoaded]
      exact h.needs

/- Sorted lists of distinct names with the same members. -/
theorem jobNames_congr
    {tx tx' : Transaction N}
    (h : ∀ x, x ∈ tx.jobNames ↔ x ∈ tx'.jobNames) :
    tx.jobNames = tx'.jobNames := by
  have hPerm : tx.jobNames.Perm tx'.jobNames :=
    (List.perm_ext_iff_of_nodup tx.nodup_jobNames
      tx'.nodup_jobNames).mpr h
  exact hPerm.eq_of_pairwise
    (fun _ _ _ _ hab hba => le_antisymm hab hba)
    (List.pairwise_insertionSort (· ≤ ·) _)
    (List.pairwise_insertionSort (· ≤ ·) _)

/-
  A start of built units is planned exactly if its roots are
  loaded, what is taken in has its requirements loaded, and
  the ordering of what is taken in has no cycle; the plan is
  for what is taken in.  Other orders of the units and of the
  roots give the same plan.
-/
theorem planStart_exact
    (h : build units = .ok g)
    {roots : List N}
    (hRoots : roots ≠ []) :
    ((∃ tx, g.planStart roots = .ok tx) ↔ Startable units roots) ∧
    (∀ tx, g.planStart roots = .ok tx → Plans units roots tx) ∧
    ∀ units' roots', units.Perm units' → roots.Perm roots' →
      ∃ g', build units' = .ok g' ∧
        ((∃ tx, g.planStart roots = .ok tx) ↔
          ∃ tx', g'.planStart roots' = .ok tx') ∧
        ∀ tx tx', g.planStart roots = .ok tx →
          g'.planStart roots' = .ok tx' →
            tx.jobNames = tx'.jobNames ∧
              ∀ x y, y ∈ tx.waitsFor x ↔ y ∈ tx'.waitsFor x := by
  rcases planStart_iff h hRoots with ⟨hIff, hPlans⟩
  refine ⟨hIff, hPlans, ?_⟩
  intro units' roots' hPermUnits hPermRoots
  have hBuildable := (build_ok_iff.mp ⟨g, h⟩).perm hPermUnits
  rcases build_ok_iff.mpr hBuildable with ⟨g', h'⟩
  have hRoots' : roots' ≠ [] := by
    rintro rfl
    exact hRoots hPermRoots.eq_nil
  rcases planStart_iff h' hRoots' with ⟨hIff', hPlans'⟩
  rcases reached_congr (fun o => hPermUnits.mem_iff)
      (fun r => hPermRoots.mem_iff) with
    ⟨hReached, hBefore, hStartable⟩
  refine ⟨g', h', ?_, ?_⟩
  · rw [hIff, hIff', hStartable]
  · intro tx tx' hTx hTx'
    have hPlan := hPlans tx hTx
    have hPlan' := hPlans' tx' hTx'
    constructor
    · apply jobNames_congr
      intro x
      rw [hPlan.jobs, hPlan'.jobs, hReached]
    · intro x y
      rw [hPlan.waits, hPlan'.waits, hBefore]

end Built

------------------------------------------------------------
-- A Start With A Missing Want
------------------------------------------------------------

section Wanting

local instance : UnitNames String := asciiNames

/- One service requires the other and wants one that is gone. -/
def wanting : Units String :=
  [some
      { UnitFile.bare "b.service" .service with
        requires := ["a.service"]
        wants := ["gone.service"]
        after := ["a.service"] },
    some (.bare "a.service" .service)]

/- The start is planned without the unit that is gone. -/
theorem planStart_exact_wanting :
    ∃ g tx, build wanting = .ok g ∧ ["b.service"] ≠ [] ∧
      g.planStart ["b.service"] = .ok tx ∧
      tx.jobNames = ["a.service", "b.service"] ∧
      Startable wanting ["b.service"] ∧
      Plans wanting ["b.service"] tx := by
  have hPlan :
      ∃ g tx, build wanting = .ok g ∧
        g.planStart ["b.service"] = .ok tx ∧
        tx.jobNames = ["a.service", "b.service"] :=
    ⟨_, _, rfl, rfl, rfl⟩
  rcases hPlan with ⟨g, tx, hBuild, hTx, hJobs⟩
  have hRoots : ["b.service"] ≠ [] := List.cons_ne_nil _ _
  rcases planStart_exact hBuild hRoots with ⟨hIff, hPlans, _⟩
  exact
    ⟨g, tx, hBuild, hRoots, hTx, hJobs, hIff.mp ⟨tx, hTx⟩,
      hPlans tx hTx⟩

end Wanting

end Core

end Winunitd
