import Winunitd.Core.Graph
import Winunitd.Lib.Digraph

/-
  Cycle detection in the ordering graph.

  `findCycle` is a three-colour depth-first search in sorted
  order.  It reports the closed walk that closes the first
  edge to a grey name.  The search is exact: it reports a
  cycle if and only if the relation has one, and what it
  reports is a cycle.

  Key definitions include:
    * `reconstructCycle`
    * `dfs`
    * `findCycle`
    * `Graph.orderingCycle`
    * `ClosedWalk`

  Key theorems include:
    * `findCycle_eq_none_iff`
    * `climb_trail`
    * `findCycle_exact`
-/

------------------------------------------------------------
-- The Search
------------------------------------------------------------

namespace Winunitd

namespace Core

variable {N : Type}
variable [UnitNames N]

/- Search colours. -/
inductive Color where
| white
| gray
| black
deriving DecidableEq, Repr

/-
  What the search records: a colour for every name, and the
  name from which a name was first entered.
-/
structure Search (N : Type) where
  color : N → Color
  parent : List (N × N)

namespace Search

def start : Search N := ⟨fun _ => .white, []⟩

def paint (st : Search N) (u : N) (c : Color) : Search N :=
  { st with color := Function.update st.color u c }

def setParent (st : Search N) (v u : N) : Search N :=
  { st with
    parent := (v, u) :: st.parent.filter (fun p => p.1 ≠ v) }

/- The parent of a name, the empty name if it has none. -/
def parentOf (st : Search N) (x : N) : N :=
  (st.parent.lookup x).getD UnitNames.empty

end Search

/-
  Climb from `x` to `v` along parents.  The source bounds
  its stack by the number of parents; `fuel` counts what is
  left of that bound.
-/
def climb (st : Search N) (u v : N) :
    Nat → N → List N → List N
| 0, _, _ => [v, u, v]
| fuel + 1, x, stack =>
    if x = v then v :: stack ++ [v]
    else if x = UnitNames.empty then [v, u, v]
    else climb st u v fuel (st.parentOf x) (x :: stack)

/- The closed walk that the edge from `u` to `v` closes. -/
def reconstructCycle (st : Search N) (u v : N) : List N :=
  if u = v then [v, v]
  else climb st u v (st.parent.length + 2) u []

/-
  Visit `u`.  A cycle ends the whole search, so it is the
  error of the search monad.
-/
def dfs
    (inGraph : N → Bool)
    (waitsFor : N → List N) :
    Nat → N → Search N → Except (List N) (Search N)
| 0, _, st => .ok st
| fuel + 1, u, st => do
    let st ← ((waitsFor u).insertionSort (· ≤ ·)).foldlM
      (fun st v =>
        if inGraph v then
          match st.color v with
          | .gray => .error (reconstructCycle st u v)
          | .white =>
              dfs inGraph waitsFor fuel v (st.setParent v u)
          | .black => .ok st
        else
          .ok st)
      (st.paint u .gray)
    return st.paint u .black

/- The first cycle of the search in sorted order, if any. -/
def findCycle
    (names : List N)
    (waitsFor : N → List N) :
    Option (List N) :=
  let sorted := names.insertionSort (· ≤ ·)
  let search :=
    sorted.foldlM
      (fun st n =>
        if st.color n = .white then
          dfs (fun v => v ∈ sorted) waitsFor sorted.length n st
        else
          .ok st)
      Search.start
  match search with
  | .error path => some path
  | .ok _ => none

/- An ordering cycle of the loaded graph. -/
def Graph.orderingCycle (g : Graph N) : Option (List N) :=
  findCycle g.names g.waitsAt

------------------------------------------------------------
-- What A Search Establishes
------------------------------------------------------------

open Relation (TransGen ReflTransGen)
open Lib.Digraph (Acyclic closed_reach)

/- The waits relation restricted to the listed names. -/
def WaitsIn
    (names : List N)
    (waitsFor : N → List N)
    (u v : N) : Prop :=
  v ∈ waitsFor u ∧ v ∈ names

namespace Search

/-
  The black names are closed under the relation, and none of
  them lies on a cycle.
-/
structure Settled
    (r : N → N → Prop)
    (st : Search N) : Prop where
  closed :
    ∀ x y, st.color x = .black → r x y → st.color y = .black
  acyclic :
    ∀ x, st.color x = .black → ¬ TransGen r x x

/-
  A part of the search that went from `st` to `st'` without
  a cycle and finished the names `xs`.
-/
structure Visited
    (r : N → N → Prop)
    (xs : List N)
    (st st' : Search N) : Prop where
  settled : st'.Settled r
  gray : ∀ x, st'.color x = .gray ↔ st.color x = .gray
  mono : ∀ x, st.color x = .black → st'.color x = .black
  done : ∀ x ∈ xs, st'.color x = .black

/- A part of the search finishes its names or has a cycle. -/
def Outcome
    (r : N → N → Prop)
    (xs : List N)
    (st : Search N) :
    Except (List N) (Search N) → Prop
| .ok st' => Visited r xs st st'
| .error _ => ∃ x, TransGen r x x

/- The listed names that the search has not entered. -/
def whites (names : List N) (st : Search N) : List N :=
  names.filter (fun x => st.color x = .white)

variable {r : N → N → Prop}

variable {st : Search N}

omit [UnitNames N] in
theorem Visited.refl
    (h : st.Settled r) :
    Visited r [] st st :=
  ⟨h, fun _ => Iff.rfl, fun _ hx => hx, by simp⟩

omit [UnitNames N] in
theorem Visited.cons
    {x : N}
    {xs : List N}
    {st mid st' : Search N}
    (hx : Visited r [x] st mid)
    (hxs : Visited r xs mid st') :
    Visited r (x :: xs) st st' where
  settled := hxs.settled
  gray y := (hxs.gray y).trans (hx.gray y)
  mono y hy := hxs.mono y (hx.mono y hy)
  done y hy := by
    rcases List.mem_cons.mp hy with rfl | hy
    · exact hxs.mono y (hx.done y List.mem_cons_self)
    · exact hxs.done y hy

/- Entering names never makes a name white again. -/
omit [UnitNames N] in
theorem Visited.whites_le
    {names xs : List N}
    {st st' : Search N}
    (h : Visited r xs st st') :
    (whites names st').length ≤ (whites names st).length := by
  apply List.Sublist.length_le
  apply List.monotone_filter_right
  intro x hx
  simp only [decide_eq_true_eq] at hx ⊢
  cases hColor : st.color x with
  | white => rfl
  | gray =>
      rw [(h.gray x).mpr hColor] at hx
      cases hx
  | black =>
      rw [h.mono x hColor] at hx
      cases hx

theorem color_paint
    (st : Search N)
    (u x : N)
    (c : Color) :
    (st.paint u c).color x = if x = u then c else st.color x := by
  simp [paint, Function.update_apply]

variable {u : N}

/- Painting a white name leaves fewer white names. -/
theorem whites_paint_lt
    {names : List N}
    {c : Color}
    (hu : u ∈ names)
    (hWhite : st.color u = .white)
    (hc : c ≠ .white) :
    (whites names (st.paint u c)).length <
      (whites names st).length := by
  have hEq :
      whites names (st.paint u c) =
        (whites names st).filter (fun x => x ≠ u) := by
    unfold whites
    rw [List.filter_filter]
    apply List.filter_congr
    intro x _
    rw [color_paint]
    by_cases hx : x = u
    · simp [hx, hc]
    · simp [hx]
  rw [hEq]
  apply List.length_filter_lt_length_iff_exists.mpr
  exact ⟨u, by simp [whites, hu, hWhite], by simp⟩

/- Painting a name grey disturbs no black name. -/
theorem Settled.paint_gray
    (h : st.Settled r)
    (hu : st.color u = .white) :
    (st.paint u .gray).Settled r := by
  have hBlack :
      ∀ x, (st.paint u .gray).color x = .black ↔
        st.color x = .black := by
    intro x
    rw [color_paint]
    by_cases hx : x = u
    · simp [hx, hu]
    · simp [hx]
  constructor
  · intro x y hx hr
    exact (hBlack y).mpr (h.closed x y ((hBlack x).mp hx) hr)
  · intro x hx
    exact h.acyclic x ((hBlack x).mp hx)

/-
  A grey name all of whose successors are black may turn
  black: a cycle through it would make it black already.
-/
theorem Settled.paint_black
    (h : st.Settled r)
    (hu : st.color u = .gray)
    (hSucc : ∀ v, r u v → st.color v = .black) :
    (st.paint u .black).Settled r := by
  have hSelf : ¬ TransGen r u u := by
    intro hCycle
    rcases TransGen.head'_iff.mp hCycle with ⟨v, hEdge, hReach⟩
    have hBlack : st.color u = .black :=
      closed_reach h.closed hReach (hSucc v hEdge)
    rw [hu] at hBlack
    cases hBlack
  constructor
  · intro x y hx hr
    rw [color_paint] at hx ⊢
    by_cases hy : y = u
    · simp [hy]
    · rw [if_neg hy]
      by_cases hxu : x = u
      · exact hSucc y (hxu ▸ hr)
      · rw [if_neg hxu] at hx
        exact h.closed x y hx hr
  · intro x hx
    rw [color_paint] at hx
    by_cases hxu : x = u
    · exact hxu ▸ hSelf
    · rw [if_neg hxu] at hx
      exact h.acyclic x hx

end Search

------------------------------------------------------------
-- Visits
------------------------------------------------------------

section Exactness

open Search

variable {names : List N}
variable {waitsFor : N → List N}

/- One successor `v` of the name `u` that is being visited. -/
private def visitSucc
    (names : List N)
    (waitsFor : N → List N)
    (fuel : Nat)
    (u : N)
    (st : Search N)
    (v : N) :
    Except (List N) (Search N) :=
  if v ∈ names then
    match st.color v with
    | .gray => .error (reconstructCycle st u v)
    | .white =>
        dfs (fun v => v ∈ names) waitsFor fuel v
          (st.setParent v u)
    | .black => .ok st
  else
    .ok st

private theorem dfs_succ
    (fuel : Nat)
    (u : N)
    (st : Search N) :
    dfs (fun v => v ∈ names) waitsFor (fuel + 1) u st =
      (do
        let st ← ((waitsFor u).insertionSort (· ≤ ·)).foldlM
          (visitSucc names waitsFor fuel u) (st.paint u .gray)
        return st.paint u .black) := by
  simp only [dfs, decide_eq_true_eq]
  rfl

/-
  What a visit may assume: everything finished is settled,
  every grey name reaches the name to be visited, and there
  is fuel for the white names.
-/
private structure Ready
    (names : List N)
    (waitsFor : N → List N)
    (fuel : Nat)
    (u : N)
    (st : Search N) : Prop where
  settled : st.Settled (WaitsIn names waitsFor)
  path :
    ∀ x, st.color x = .gray →
      ReflTransGen (WaitsIn names waitsFor) x u
  fuel : (whites names st).length ≤ fuel

variable {fuel : Nat}

omit [UnitNames N] in
private theorem Ready.next
    {u : N}
    {xs : List N}
    {st st' : Search N}
    (h : Ready names waitsFor fuel u st)
    (hVisit : Visited (WaitsIn names waitsFor) xs st st') :
    Ready names waitsFor fuel u st' where
  settled := hVisit.settled
  path x hx := h.path x ((hVisit.gray x).mp hx)
  fuel := Nat.le_trans hVisit.whites_le h.fuel

variable {st : Search N}
variable {u v : N}

/- A successor may be entered. -/
private theorem Ready.enter
    (h : Ready names waitsFor fuel u st)
    (hEdge : WaitsIn names waitsFor u v) :
    Ready names waitsFor fuel v (st.setParent v u) where
  settled := { h.settled with }
  path x hx := (h.path x hx).tail hEdge
  fuel := h.fuel

/- A white name turns grey; the fuel of its loop is less by one. -/
private theorem Ready.begin
    (h : Ready names waitsFor (fuel + 1) u st)
    (hu : u ∈ names)
    (hWhite : st.color u = .white) :
    Ready names waitsFor fuel u (st.paint u .gray) where
  settled := h.settled.paint_gray hWhite
  path x hx := by
    rw [color_paint] at hx
    by_cases hxu : x = u
    · rw [hxu]
    · rw [if_neg hxu] at hx
      exact h.path x hx
  fuel := by
    have hLess := whites_paint_lt hu hWhite (c := .gray) (by decide)
    have hFuel := h.fuel
    omega

------------------------------------------------------------
-- The Reported Walk
------------------------------------------------------------

/- A walk along the waits of listed names back to its start. -/
structure ClosedWalk
    (names : List N)
    (waitsFor : N → List N)
    (path : List N) : Prop where
  long : 2 ≤ path.length
  closed : path.head? = path.getLast?
  listed : ∀ n ∈ path, n ∈ names
  walk : path.IsChain (WaitsIn names waitsFor)

/- Names that have been entered keep their parents. -/
private def Kept (st st' : Search N) : Prop :=
  ∀ x, st.color x ≠ .white →
    st'.color x ≠ .white ∧
      st'.parent.lookup x = st.parent.lookup x

private theorem Kept.trans
    {st mid st' : Search N}
    (h : Kept st mid)
    (h' : Kept mid st') :
    Kept st st' := by
  intro x hx
  rcases h x hx with ⟨hMid, hParent⟩
  rcases h' x hMid with ⟨hEnd, hParent'⟩
  exact ⟨hEnd, hParent'.trans hParent⟩

private theorem Kept.paint
    (st : Search N)
    (u : N)
    {c : Color}
    (hc : c ≠ .white) :
    Kept st (st.paint u c) := by
  intro x hx
  refine ⟨?_, rfl⟩
  rw [color_paint]
  split
  · exact hc
  · exact hx

private theorem lookup_setParent
    (st : Search N)
    (v u x : N) :
    (st.setParent v u).parent.lookup x =
      if x = v then some u else st.parent.lookup x := by
  unfold setParent
  rw [List.lookup_cons]
  by_cases hx : x = v
  · simp [hx]
  · rw [if_neg hx, beq_false_of_ne hx]
    dsimp only
    induction st.parent with
    | nil => rfl
    | cons p ps ih =>
        by_cases hp : p.1 = v
        · rw [List.filter_cons_of_neg (by simpa using hp), ih,
            List.lookup_cons, beq_false_of_ne (hp ▸ hx)]
        · rw [List.filter_cons_of_pos (by simpa using hp),
            List.lookup_cons, List.lookup_cons, ih]

private theorem Kept.setParent
    (u : N)
    (hWhite : st.color v = .white) :
    Kept st (st.setParent v u) := by
  intro x hx
  refine ⟨hx, ?_⟩
  rw [lookup_setParent, if_neg]
  rintro rfl
  exact hx hWhite

/- `y` entered `x`, for which it waits. -/
private def Enters
    (names : List N)
    (waitsFor : N → List N)
    (st : Search N)
    (x y : N) : Prop :=
  st.parent.lookup x = some y ∧ WaitsIn names waitsFor y x

/-
  The grey names as a stack: each was entered from the next
  one.  The last is the root of the search; no other name in
  it is empty.
-/
private structure Trail
    (names : List N)
    (waitsFor : N → List N)
    (st : Search N)
    (trail : List N) : Prop where
  gray : ∀ x, st.color x = .gray → x ∈ trail
  entered : ∀ x ∈ trail, st.color x ≠ .white
  nodup : trail.Nodup
  listed : ∀ x ∈ trail, x ∈ names
  links : trail.IsChain (Enters names waitsFor st)
  named : ∀ x ∈ trail.dropLast, x ≠ UnitNames.empty

/- The climb from the start of a trail to one of its names. -/
theorem climb_trail
    {below above stack : List N}
    (hLinks :
      (below ++ v :: above).IsChain
        (fun x y => st.parent.lookup x = some y))
    (hNew : v ∉ below)
    (hNamed : ∀ x ∈ below, x ≠ UnitNames.empty)
    (hFuel : below.length < fuel) :
    climb st u v fuel (below.headD v) stack =
      v :: (below.reverse ++ stack) ++ [v] := by
  induction below generalizing fuel stack with
  | nil =>
      cases fuel with
      | zero => cases hFuel
      | succ fuel => simp [climb]
  | cons x below ih =>
      cases fuel with
      | zero => cases hFuel
      | succ fuel =>
          have hNe : x ≠ v := by
            rintro rfl
            exact hNew List.mem_cons_self
          have hParent : st.parentOf x = below.headD v := by
            unfold parentOf
            cases below with
            | nil | cons y below =>
                rw [(List.isChain_cons_cons.mp hLinks).1]
                rfl
          have hRest :
              climb st u v fuel (below.headD v) (x :: stack) =
                v :: (below.reverse ++ x :: stack) ++ [v] :=
            ih hLinks.tail
              (fun h => hNew (List.mem_cons_of_mem _ h))
              (fun y hy => hNamed y (List.mem_cons_of_mem _ hy))
              (Nat.lt_of_succ_lt_succ hFuel)
          simp only [List.headD_cons, climb, if_neg hNe,
            if_neg (hNamed x List.mem_cons_self), hParent, hRest]
          simp

/- Names with a parent are no more than the parents. -/
private theorem length_le_parents
    {xs : List N}
    (hNodup : xs.Nodup)
    (hParent : ∀ x ∈ xs, (st.parent.lookup x).isSome = true) :
    xs.length ≤ st.parent.length := by
  rw [← List.length_map (f := Prod.fst)]
  apply List.Subperm.length_le
  apply hNodup.subperm
  intro x hx
  rcases Option.isSome_iff_exists.mp (hParent x hx) with ⟨y, hy⟩
  rcases List.lookup_eq_some_iff.mp hy with ⟨_, _, hEq, _⟩
  rw [hEq]
  simp

omit [UnitNames N] in
/- Before its end a chain goes on. -/
private theorem next_of_isChain
    {R : N → N → Prop}
    {below above : List N}
    (h : (below ++ v :: above).IsChain R) :
    ∀ x ∈ below, ∃ y, R x y := by
  induction below with
  | nil => exact fun x hx => nomatch hx
  | cons z below ih =>
      intro x hx
      rcases List.mem_cons.mp hx with rfl | hx
      · cases below with
        | nil => exact ⟨v, (List.isChain_cons_cons.mp h).1⟩
        | cons y below =>
            exact ⟨y, (List.isChain_cons_cons.mp h).1⟩
      · exact ih h.tail x hx

omit [UnitNames N] in
/- A stretch of a trail, turned round and closed. -/
private theorem closedWalk_of_links
    {below : List N}
    (hLinks :
      (below ++ [v]).IsChain (fun x y => WaitsIn names waitsFor y x))
    (hHead : below.headD v = u)
    (hEdge : WaitsIn names waitsFor u v)
    (hListed : ∀ n ∈ below, n ∈ names) :
    ClosedWalk names waitsFor (v :: below.reverse ++ [v]) := by
  have hTurned : v :: below.reverse = (below ++ [v]).reverse := by
    simp
  refine ⟨by simp, List.getLast?_concat.symm, ?_, ?_⟩
  · intro n hn
    have hCases : n = v ∨ n ∈ below := by
      simpa [or_comm, or_assoc] using hn
    rcases hCases with rfl | hBelow
    · exact hEdge.2
    · exact hListed n hBelow
  · rw [hTurned, List.isChain_append]
    refine ⟨List.isChain_reverse.mpr hLinks, List.isChain_singleton v,
      ?_⟩
    intro x hx y hy
    have hLast : u = x := by
      rw [List.getLast?_reverse] at hx
      cases below with
      | nil => simpa [← hHead] using hx
      | cons z below => simpa [← hHead] using hx
    have hFirst : v = y := by simpa using hy
    rw [← hLast, ← hFirst]
    exact hEdge

/- The walk that an edge to a grey name closes. -/
private theorem closedWalk_reconstruct
    {up : List N}
    (hTrail : Trail names waitsFor st (u :: up))
    (hEdge : WaitsIn names waitsFor u v)
    (hGray : st.color v = .gray) :
    ClosedWalk names waitsFor (reconstructCycle st u v) := by
  unfold reconstructCycle
  by_cases hSelf : u = v
  · subst hSelf
    rw [if_pos rfl]
    have hLoop : ClosedWalk names waitsFor (u :: [].reverse ++ [u]) :=
      closedWalk_of_links (List.isChain_singleton u) rfl hEdge
        (fun n hn => nomatch hn)
    exact hLoop
  · rw [if_neg hSelf]
    rcases List.append_of_mem (hTrail.gray v hGray) with
      ⟨below, above, hSplit⟩
    have hNodup := hTrail.nodup
    have hLinks := hTrail.links
    have hNamed := hTrail.named
    have hListed := hTrail.listed
    rw [hSplit] at hNodup hLinks hNamed hListed
    have hHead : below.headD v = u := by
      cases below with
      | nil =>
          cases hSplit
          exact absurd rfl hSelf
      | cons x below =>
          cases hSplit
          rfl
    have hNew : v ∉ below := fun h =>
      List.disjoint_of_nodup_append hNodup h List.mem_cons_self
    -- only the last name of a trail has no parent
    have hParents :
        ∀ x ∈ below, (st.parent.lookup x).isSome = true := by
      intro x hx
      rcases next_of_isChain hLinks x hx with ⟨y, hy, _⟩
      rw [hy]
      rfl
    have hShort : below.length ≤ st.parent.length :=
      length_le_parents (List.Nodup.of_append_left hNodup) hParents
    have hBelow : ∀ x ∈ below, x ≠ UnitNames.empty := by
      intro x hx
      apply hNamed
      rw [List.dropLast_append_cons]
      exact List.mem_append_left _ hx
    have hClimb :
        climb st u v (st.parent.length + 2) (below.headD v) [] =
          v :: (below.reverse ++ []) ++ [v] :=
      climb_trail (hLinks.imp (fun _ _ h => h.1)) hNew hBelow
        (by omega)
    rw [hHead, List.append_nil] at hClimb
    rw [hClimb]
    refine closedWalk_of_links ?_ hHead hEdge
      (fun n hn => hListed n (List.mem_append_left _ hn))
    have hPart :
        (below ++ [v] ++ above).IsChain (Enters names waitsFor st) := by
      simpa using hLinks
    exact hPart.left_of_append.imp (fun _ _ h => h.2)

/- The trail after names that it does not have were visited. -/
private theorem Trail.visited
    {st st' : Search N}
    {trail xs : List N}
    (hTrail : Trail names waitsFor st trail)
    (hVisit : Visited (WaitsIn names waitsFor) xs st st')
    (hKept : Kept st st') :
    Trail names waitsFor st' trail where
  gray x hx := hTrail.gray x ((hVisit.gray x).mp hx)
  entered x hx := (hKept x (hTrail.entered x hx)).1
  nodup := hTrail.nodup
  listed := hTrail.listed
  links :=
    hTrail.links.imp_of_mem_imp (fun x _ hx _ hEnters =>
      ⟨(hKept x (hTrail.entered x hx)).2.trans hEnters.1,
        hEnters.2⟩)
  named := hTrail.named

/- The trail grows by a white name. -/
private theorem Trail.enter
    {up : List N}
    (hTrail : Trail names waitsFor st (u :: up))
    (hEdge : WaitsIn names waitsFor u v)
    (hWhite : st.color v = .white)
    (hNamed : v ≠ UnitNames.empty) :
    Trail names waitsFor ((st.setParent v u).paint v .gray)
      (v :: u :: up) := by
  have hNew : v ∉ u :: up := fun hv => hTrail.entered v hv hWhite
  have hKept :
      Kept st ((st.setParent v u).paint v .gray) :=
    (Kept.setParent u hWhite).trans (Kept.paint _ v (by decide))
  refine ⟨?_, ?_, ?_, ?_, ?_, ?_⟩
  · intro x hx
    rw [color_paint] at hx
    by_cases hxv : x = v
    · rw [hxv]
      exact List.mem_cons_self
    · rw [if_neg hxv] at hx
      exact List.mem_cons_of_mem _ (hTrail.gray x hx)
  · intro x hx
    rcases List.mem_cons.mp hx with rfl | hx
    · rw [color_paint, if_pos rfl]
      decide
    · exact (hKept x (hTrail.entered x hx)).1
  · exact List.nodup_cons.mpr ⟨hNew, hTrail.nodup⟩
  · intro x hx
    rcases List.mem_cons.mp hx with rfl | hx
    · exact hEdge.2
    · exact hTrail.listed x hx
  · refine List.isChain_cons_cons.mpr ⟨⟨?_, hEdge⟩, ?_⟩
    · show (st.setParent v u).parent.lookup v = some u
      rw [lookup_setParent, if_pos rfl]
    · exact hTrail.links.imp_of_mem_imp (fun x _ hx _ hEnters =>
        ⟨(hKept x (hTrail.entered x hx)).2.trans hEnters.1,
          hEnters.2⟩)
  · intro x hx
    rcases List.mem_cons.mp hx with rfl | hx
    · exact hNamed
    · exact hTrail.named x hx

/- The empty name, if it is listed, has been entered. -/
private def EmptyEntered (names : List N) (st : Search N) : Prop :=
  UnitNames.empty ∈ names → st.color UnitNames.empty ≠ .white

/- A root of the search is the whole trail. -/
private theorem Trail.root
    {n : N}
    (hn : n ∈ names)
    (hNoGray : ∀ x, st.color x ≠ .gray) :
    Trail names waitsFor (st.paint n .gray) [n] := by
  refine ⟨?_, ?_, List.nodup_singleton n, ?_, List.isChain_singleton n,
    fun x hx => nomatch hx⟩
  · intro x hx
    rw [color_paint] at hx
    by_cases hxn : x = n
    · rw [hxn]
      exact List.mem_singleton_self n
    · rw [if_neg hxn] at hx
      exact absurd hx (hNoGray x)
  · intro x hx
    rw [List.mem_singleton.mp hx, color_paint, if_pos rfl]
    decide
  · intro x hx
    rw [List.mem_singleton.mp hx]
    exact hn

------------------------------------------------------------
-- Exactness
------------------------------------------------------------

/- A part of the search keeps parents, or reports a closed walk. -/
private def Reports
    (names : List N)
    (waitsFor : N → List N)
    (st : Search N) :
    Except (List N) (Search N) → Prop
| .ok st' => Kept st st'
| .error path => ClosedWalk names waitsFor path

/- What a part of the search comes to. -/
private def Traced
    (names : List N)
    (waitsFor : N → List N)
    (xs : List N)
    (st : Search N)
    (res : Except (List N) (Search N)) : Prop :=
  Outcome (WaitsIn names waitsFor) xs st res ∧
    Reports names waitsFor st res

/- The loop over the successors of the first name of a trail. -/
private structure Looping
    (names : List N)
    (waitsFor : N → List N)
    (fuel : Nat)
    (u : N)
    (up : List N)
    (st : Search N) : Prop where
  ready : Ready names waitsFor fuel u st
  trail : Trail names waitsFor st (u :: up)
  empty : EmptyEntered names st

/- The visit of a white name that is entered from a trail. -/
private structure Visiting
    (names : List N)
    (waitsFor : N → List N)
    (fuel : Nat)
    (u : N)
    (up : List N)
    (st : Search N) : Prop where
  mem : u ∈ names
  white : st.color u = .white
  ready : Ready names waitsFor fuel u st
  trail : Trail names waitsFor (st.paint u .gray) (u :: up)
  empty : EmptyEntered names (st.paint u .gray)

variable {up xs ys : List N}
variable {mid : Search N}
variable {res : Except (List N) (Search N)}

private theorem Looping.next
    (h : Looping names waitsFor fuel u up st)
    (hVisit : Visited (WaitsIn names waitsFor) xs st mid)
    (hKept : Kept st mid) :
    Looping names waitsFor fuel u up mid where
  ready := h.ready.next hVisit
  trail := h.trail.visited hVisit hKept
  empty hMem := (hKept _ (h.empty hMem)).1

private theorem Looping.enter
    (h : Looping names waitsFor fuel u up st)
    (hEdge : WaitsIn names waitsFor u v)
    (hWhite : st.color v = .white) :
    Visiting names waitsFor fuel v (u :: up) (st.setParent v u) := by
  have hNamed : v ≠ UnitNames.empty := by
    rintro rfl
    exact h.empty hEdge.2 hWhite
  refine ⟨hEdge.2, hWhite, h.ready.enter hEdge,
    h.trail.enter hEdge hWhite hNamed, ?_⟩
  intro hMem
  exact (Kept.paint _ v (by decide) _ (h.empty hMem)).1

/- The same result for other names, or from another state. -/
private theorem Traced.imp
    (h : Traced names waitsFor xs mid res)
    (hOk :
      ∀ st', Visited (WaitsIn names waitsFor) xs mid st' →
        Kept mid st' →
          Visited (WaitsIn names waitsFor) ys st st' ∧ Kept st st') :
    Traced names waitsFor ys st res := by
  cases res with
  | error p => exact h
  | ok st' => exact hOk st' h.1 h.2

private theorem Traced.bind
    {f : Search N → Except (List N) (Search N)}
    (h : Traced names waitsFor xs mid res)
    (hNext :
      ∀ st', Visited (WaitsIn names waitsFor) xs mid st' →
        Kept mid st' → Traced names waitsFor ys st (f st')) :
    Traced names waitsFor ys st (res >>= f) := by
  cases res with
  | error p => exact h
  | ok st' => exact hNext st' h.1 h.2

private theorem Traced.refl
    (h : st.Settled (WaitsIn names waitsFor)) :
    Traced names waitsFor [] st (.ok st) :=
  ⟨Visited.refl h, fun _ hx => ⟨hx, rfl⟩⟩

/- A black name is passed over. -/
private theorem Traced.black
    (h : st.Settled (WaitsIn names waitsFor))
    (hBlack : st.color v = .black) :
    Traced names waitsFor [v] st (.ok st) := by
  refine (Traced.refl h).imp (fun _ hSame hKept => ⟨?_, hKept⟩)
  refine { hSame with done := ?_ }
  intro x hx
  rw [List.mem_singleton.mp hx]
  exact hSame.mono v hBlack

section Successors

-- visits with this fuel
variable
  (hVisit :
    ∀ v st up, Visiting names waitsFor fuel v up st →
      Traced names waitsFor [v] st
        (dfs (fun v => v ∈ names) waitsFor fuel v st))

include hVisit

/- A successor is grey, white or black. -/
private theorem traced_visitSucc
    (hEdge : WaitsIn names waitsFor u v)
    (h : Looping names waitsFor fuel u up st) :
    Traced names waitsFor [v] st
      (visitSucc names waitsFor fuel u st v) := by
  unfold visitSucc
  rw [if_pos hEdge.2]
  cases hColor : st.color v with
  | gray =>
      exact ⟨⟨v, TransGen.tail' (h.ready.path v hColor) hEdge⟩,
        closedWalk_reconstruct h.trail hEdge hColor⟩
  | black => exact Traced.black h.ready.settled hColor
  | white =>
      refine (hVisit v _ (u :: up) (h.enter hEdge hColor)).imp ?_
      exact fun _ hOut hKept =>
        ⟨{ hOut with }, (Kept.setParent u hColor).trans hKept⟩

/- The loop over successors. -/
private theorem traced_succs
    {vs : List N}
    (hvs : ∀ v ∈ vs, v ∈ waitsFor u)
    (h : Looping names waitsFor fuel u up st) :
    Traced names waitsFor (vs.filter (fun v => v ∈ names)) st
      (vs.foldlM (visitSucc names waitsFor fuel u) st) := by
  induction vs generalizing st with
  | nil => exact Traced.refl h.ready.settled
  | cons v vs ih =>
      have hTail : ∀ w ∈ vs, w ∈ waitsFor u :=
        fun w hw => hvs w (List.mem_cons_of_mem _ hw)
      rw [List.foldlM_cons]
      by_cases hv : v ∈ names
      · rw [List.filter_cons_of_pos (by simpa using hv)]
        refine (traced_visitSucc hVisit
          ⟨hvs v List.mem_cons_self, hv⟩ h).bind ?_
        intro mid hHead hKept
        exact (ih hTail (h.next hHead hKept)).imp
          (fun _ hRest hKept' => ⟨hHead.cons hRest, hKept.trans hKept'⟩)
      · -- a name outside the list is passed over
        rw [List.filter_cons_of_neg (by simpa using hv), visitSucc,
          if_neg hv]
        exact ih hTail h

end Successors

/- A visit of a white name finishes it or has a cycle. -/
private theorem traced_dfs
    (h : Visiting names waitsFor fuel u up st) :
    Traced names waitsFor [u] st
      (dfs (fun v => v ∈ names) waitsFor fuel u st) := by
  induction fuel generalizing u up st with
  | zero =>
      -- A white name is left, so there is fuel.
      have hLess := whites_paint_lt h.mem h.white
        (c := .gray) (by decide)
      have hFuel := h.ready.fuel
      omega
  | succ fuel ih =>
      rw [dfs_succ]
      refine (traced_succs (fun _ _ _ => ih)
        (fun v hv => (List.mem_insertionSort _).mp hv)
        ⟨h.ready.begin h.mem h.white, h.trail, h.empty⟩).bind ?_
      intro mid hLoop hKept
      have hGray : mid.color u = .gray := by
        rw [hLoop.gray, color_paint, if_pos rfl]
      have hSucc :
          ∀ v, WaitsIn names waitsFor u v → mid.color v = .black := by
        rintro v ⟨hWait, hv⟩
        apply hLoop.done
        exact List.mem_filter.mpr
          ⟨(List.mem_insertionSort _).mpr hWait, by simpa using hv⟩
      refine ⟨⟨hLoop.settled.paint_black hGray hSucc, ?_, ?_, ?_⟩,
        ((Kept.paint st u (by decide)).trans hKept).trans
          (Kept.paint mid u (by decide))⟩
      · intro x
        rw [color_paint]
        by_cases hxu : x = u
        · simp [hxu, h.white]
        · rw [if_neg hxu, hLoop.gray, color_paint, if_neg hxu]
      · intro x hx
        rw [color_paint]
        by_cases hxu : x = u
        · simp [hxu]
        · rw [if_neg hxu]
          apply hLoop.mono
          rw [color_paint, if_neg hxu]
          exact hx
      · intro x hx
        rw [List.mem_singleton.mp hx, color_paint, if_pos rfl]

/- The outer loop of the search, from one listed name on. -/
private def visitRoot
    (names : List N)
    (waitsFor : N → List N)
    (st : Search N)
    (n : N) :
    Except (List N) (Search N) :=
  if st.color n = .white then
    dfs (fun v => v ∈ names) waitsFor names.length n st
  else
    .ok st

/-
  The outer loop of the search.  The empty name, if it is
  listed, is the first root.
-/
private theorem traced_roots
    {ns : List N}
    (hns : ∀ n ∈ ns, n ∈ names)
    (hSettled : st.Settled (WaitsIn names waitsFor))
    (hNoGray : ∀ x, st.color x ≠ .gray)
    (hEmpty :
      EmptyEntered names st ∨ ns.head? = some UnitNames.empty) :
    Traced names waitsFor ns st
      (ns.foldlM (visitRoot names waitsFor) st) := by
  induction ns generalizing st with
  | nil => exact Traced.refl hSettled
  | cons n ns ih =>
      have hn := hns n List.mem_cons_self
      have hHead :
          Traced names waitsFor [n] st
            (visitRoot names waitsFor st n) := by
        unfold visitRoot
        by_cases hWhite : st.color n = .white
        · rw [if_pos hWhite]
          refine traced_dfs ⟨hn, hWhite, ⟨hSettled,
            fun x hx => absurd hx (hNoGray x),
            List.length_filter_le _ _⟩, Trail.root hn hNoGray, ?_⟩
          intro hMem
          rcases hEmpty with hOld | hFirst
          · exact (Kept.paint st n (by decide) _ (hOld hMem)).1
          · rw [← Option.some.inj hFirst, color_paint, if_pos rfl]
            decide
        · rw [if_neg hWhite]
          apply Traced.black hSettled
          cases hColor : st.color n with
          | white => exact absurd hColor hWhite
          | gray => exact absurd hColor (hNoGray n)
          | black => rfl
      rw [List.foldlM_cons]
      refine hHead.bind (fun mid hMid hKept => ?_)
      have hEntered : EmptyEntered names mid := by
        intro hMem
        rcases hEmpty with hOld | hFirst
        · exact (hKept _ (hOld hMem)).1
        · rw [← Option.some.inj hFirst, hMid.done n List.mem_cons_self]
          decide
      refine (ih (fun m hm => hns m (List.mem_cons_of_mem _ hm))
        hMid.settled (fun x hx => hNoGray x ((hMid.gray x).mp hx))
        (Or.inl hEntered)).imp ?_
      exact fun _ hRest hKept' =>
        ⟨hMid.cons hRest, hKept.trans hKept'⟩

private theorem findCycle_eq
    (names : List N)
    (waitsFor : N → List N) :
    findCycle names waitsFor =
      match (names.insertionSort (· ≤ ·)).foldlM
          (visitRoot (names.insertionSort (· ≤ ·)) waitsFor)
          Search.start with
      | .error path => some path
      | .ok _ => none :=
  rfl

/- The empty name comes first in sorted order. -/
private theorem head_of_empty_mem
    (names : List N)
    (h : UnitNames.empty ∈ names) :
    (names.insertionSort (· ≤ ·)).head? = some UnitNames.empty := by
  have hSorted := List.pairwise_insertionSort (· ≤ ·) names
  have hMem : UnitNames.empty ∈ names.insertionSort (· ≤ ·) :=
    (List.mem_insertionSort _).mpr h
  cases hList : names.insertionSort (· ≤ ·) with
  | nil =>
      rw [hList] at hMem
      cases hMem
  | cons n ns =>
      rw [hList] at hSorted hMem
      rcases List.mem_cons.mp hMem with hEq | hTail
      · rw [hEq]
        rfl
      · have hLe := List.rel_of_pairwise_cons hSorted hTail
        rw [le_antisymm hLe (UnitNames.empty_le n)]
        rfl

private theorem traced_search
    (names : List N)
    (waitsFor : N → List N) :
    Traced (names.insertionSort (· ≤ ·)) waitsFor
      (names.insertionSort (· ≤ ·)) Search.start
      ((names.insertionSort (· ≤ ·)).foldlM
        (visitRoot (names.insertionSort (· ≤ ·)) waitsFor)
        Search.start) := by
  refine traced_roots (fun _ h => h)
    ⟨by simp [Search.start], by simp [Search.start]⟩
    (by simp [Search.start]) ?_
  by_cases hMem : UnitNames.empty ∈ names
  · exact Or.inr (head_of_empty_mem names hMem)
  · exact Or.inl (fun h =>
      absurd ((List.mem_insertionSort _).mp h) hMem)

/- A relation that ends in a finite list has cycles in it. -/
omit [UnitNames N] in
private theorem mem_of_cycle
    {x : N}
    (h : TransGen (WaitsIn names waitsFor) x x) :
    x ∈ names := by
  rcases TransGen.tail'_iff.mp h with ⟨y, _, hEdge⟩
  exact hEdge.2

/-
  The search reports no cycle exactly if the waits relation,
  restricted to the listed names, has none.
-/
theorem findCycle_eq_none_iff
    (names : List N)
    (waitsFor : N → List N) :
    findCycle names waitsFor = none ↔
      Acyclic (WaitsIn names waitsFor) := by
  have hSorted :
      WaitsIn (names.insertionSort (· ≤ ·)) waitsFor =
        WaitsIn names waitsFor := by
    funext u v
    simp [WaitsIn]
  have hOut := (traced_search names waitsFor).1
  rw [hSorted] at hOut
  rw [findCycle_eq]
  cases hRes : (names.insertionSort (· ≤ ·)).foldlM
      (visitRoot (names.insertionSort (· ≤ ·)) waitsFor)
      Search.start with
  | error path =>
      rw [hRes] at hOut
      rcases hOut with ⟨x, hx⟩
      simp only [reduceCtorEq, false_iff]
      exact fun hAcyclic => hAcyclic x hx
  | ok st =>
      rw [hRes] at hOut
      simp only [true_iff]
      intro x hx
      have hMem : x ∈ names.insertionSort (· ≤ ·) :=
        (List.mem_insertionSort _).mpr (mem_of_cycle hx)
      exact hOut.settled.acyclic x (hOut.done x hMem) hx

/-
  The search reports no cycle exactly if the waits relation,
  restricted to the listed names, has none; what it reports
  is a closed walk along the relation.
-/
theorem findCycle_exact
    (names : List N)
    (waitsFor : N → List N) :
    (findCycle names waitsFor = none ↔
      Acyclic (WaitsIn names waitsFor)) ∧
    ∀ path, findCycle names waitsFor = some path →
      ClosedWalk names waitsFor path := by
  refine ⟨findCycle_eq_none_iff names waitsFor, ?_⟩
  intro path h
  rw [findCycle_eq] at h
  split at h
  · rename_i p hRes
    cases h
    have hReports := (traced_search names waitsFor).2
    rw [hRes] at hReports
    have hWalk : ClosedWalk _ _ path := hReports
    refine ⟨hWalk.long, hWalk.closed, ?_, ?_⟩
    · intro n hn
      exact (List.mem_insertionSort _).mp (hWalk.listed n hn)
    · exact hWalk.walk.imp (fun u v hEdge =>
        ⟨hEdge.1, (List.mem_insertionSort _).mp hEdge.2⟩)
  · cases h

end Exactness

end Core

end Winunitd
