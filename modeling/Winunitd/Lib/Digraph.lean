import Mathlib.Logic.Relation
import Mathlib.Data.List.Basic
import Mathlib.Data.List.Nodup
import Mathlib.Data.Fintype.EquivFin
import Mathlib.Data.Set.Finite.List
import Mathlib.Order.WellFounded

/-
  Finite directed graphs given by successor lists.

  `mark` is depth-first marking with explicit fuel: it adds
  to a list of seen vertices everything that can be reached
  from a vertex.  With at least as much fuel as there are
  unseen vertices, the marked vertices are exactly the
  reachable ones.

  Key definitions include:
    * `Edge`
    * `Acyclic`
    * `mark`
    * `markAll`

  Key theorems include:
    * `Acyclic.induction`
    * `marked_markAll`
    * `mem_markAll_iff`
-/

------------------------------------------------------------
-- Edges And Cycles
------------------------------------------------------------

namespace Winunitd

namespace Lib

namespace Digraph

variable {V : Type}

/- The edge relation of successor lists. -/
def Edge (succ : V → List V) (x y : V) : Prop :=
  y ∈ succ x

/- No vertex reaches itself by one or more edges. -/
def Acyclic (r : V → V → Prop) : Prop :=
  ∀ x, ¬ Relation.TransGen r x x

variable {r : V → V → Prop}

/-
  Induction along an acyclic relation over finitely many
  vertices, from the successors to a vertex.
-/
theorem Acyclic.induction
    (h : Acyclic r)
    {vs : List V}
    {P : V → Prop}
    (hStep : ∀ x ∈ vs, (∀ y ∈ vs, r x y → P y) → P x) :
    ∀ x ∈ vs, P x := by
  let below (x y : { v // v ∈ vs }) : Prop :=
    Relation.TransGen r y.1 x.1
  have : Finite { v // v ∈ vs } := List.finite_toSet vs
  have : IsTrans { v // v ∈ vs } below :=
    ⟨fun _ _ _ hxy hyz => hyz.trans hxy⟩
  have : Std.Irrefl below := ⟨fun x => h x.1⟩
  have hWell := Finite.wellFounded_of_trans_of_irrefl below
  intro x hx
  refine hWell.induction
    (C := fun y : { v // v ∈ vs } => P y.1) ⟨x, hx⟩ ?_
  intro y ih
  exact hStep y.1 y.2
    (fun z hz hyz => ih ⟨z, hz⟩ (.single hyz))

/- A set closed under edges holds all that it reaches. -/
theorem closed_reach
    {S : V → Prop}
    (hClosed : ∀ x y, S x → r x y → S y)
    {x y : V}
    (hReach : Relation.ReflTransGen r x y)
    (hx : S x) :
    S y := by
  induction hReach with
  | refl => exact hx
  | tail _ hEdge ih => exact hClosed _ _ ih hEdge

------------------------------------------------------------
-- Depth-First Marking
------------------------------------------------------------

/-
  What marking from `xs` achieves: it keeps `seen`, adds the
  roots and only what they reach, and leaves no successor of
  a newly marked vertex unmarked.
-/
structure Marked
    (succ : V → List V)
    (xs seen out : List V) : Prop where
  mono : ∀ y ∈ seen, y ∈ out
  roots : ∀ x ∈ xs, x ∈ out
  reach :
    ∀ y ∈ out, y ∈ seen ∨
      ∃ x ∈ xs, Relation.ReflTransGen (Edge succ) x y
  closed :
    ∀ y ∈ out, y ∈ seen ∨ ∀ z ∈ succ y, z ∈ out
  nodup : seen.Nodup → out.Nodup

namespace Marked

variable {succ : V → List V}

theorem nil
    (seen : List V) :
    Marked succ [] seen seen :=
  ⟨fun _ h => h, by simp, fun _ h => Or.inl h,
    fun _ h => Or.inl h, fun h => h⟩

variable {x : V}

/- Marking a seen vertex does nothing. -/
theorem of_mem
    {seen : List V}
    (h : x ∈ seen) :
    Marked succ [x] seen seen :=
  ⟨fun _ h => h, by simpa using h, fun _ h => Or.inl h,
    fun _ h => Or.inl h, fun h => h⟩

theorem append
    {xs ys seen mid out : List V}
    (hx : Marked succ xs seen mid)
    (hy : Marked succ ys mid out) :
    Marked succ (xs ++ ys) seen out where
  mono y h := hy.mono y (hx.mono y h)
  roots y h := by
    rcases List.mem_append.mp h with h | h
    · exact hy.mono y (hx.roots y h)
    · exact hy.roots y h
  reach y h := by
    rcases hy.reach y h with hMid | ⟨z, hz, hReach⟩
    · rcases hx.reach y hMid with hSeen | ⟨z, hz, hReach⟩
      · exact Or.inl hSeen
      · exact Or.inr ⟨z, List.mem_append_left _ hz, hReach⟩
    · exact Or.inr ⟨z, List.mem_append_right _ hz, hReach⟩
  closed y h := by
    rcases hy.closed y h with hMid | hSucc
    · rcases hx.closed y hMid with hSeen | hSucc
      · exact Or.inl hSeen
      · exact Or.inr (fun z hz => hy.mono z (hSucc z hz))
    · exact Or.inr hSucc
  nodup h := hy.nodup (hx.nodup h)

theorem cons
    {xs seen mid out : List V}
    (hx : Marked succ [x] seen mid)
    (hxs : Marked succ xs mid out) :
    Marked succ (x :: xs) seen out :=
  hx.append hxs

/- The order of what was seen before does not matter. -/
theorem perm
    {xs seen seen' out : List V}
    (h : Marked succ xs seen out)
    (hPerm : seen.Perm seen') :
    Marked succ xs seen' out where
  mono y hy := h.mono y (hPerm.mem_iff.mpr hy)
  roots := h.roots
  reach y hy := (h.reach y hy).imp_left hPerm.mem_iff.mp
  closed y hy := (h.closed y hy).imp_left hPerm.mem_iff.mp
  nodup hSeen := h.nodup (hPerm.nodup_iff.mpr hSeen)

/- Marking a fresh vertex marks its successors after it. -/
theorem visit
    {seen out : List V}
    (hFresh : x ∉ seen)
    (h : Marked succ (succ x) (x :: seen) out) :
    Marked succ [x] seen out where
  mono y hy := h.mono y (List.mem_cons_of_mem _ hy)
  roots y hy := by
    rw [List.mem_singleton.mp hy]
    exact h.mono x List.mem_cons_self
  reach y hy := by
    rcases h.reach y hy with hSeen | ⟨z, hz, hReach⟩
    · rcases List.mem_cons.mp hSeen with rfl | hSeen
      · exact Or.inr ⟨y, List.mem_cons_self, .refl⟩
      · exact Or.inl hSeen
    · exact Or.inr ⟨x, List.mem_cons_self, .head hz hReach⟩
  closed y hy := by
    rcases h.closed y hy with hSeen | hSucc
    · rcases List.mem_cons.mp hSeen with rfl | hSeen
      · exact Or.inr h.roots
      · exact Or.inl hSeen
    · exact Or.inr hSucc
  nodup hSeen := h.nodup (List.nodup_cons.mpr ⟨hFresh, hSeen⟩)

end Marked

variable [DecidableEq V]

/- Mark what can be reached from `x`. -/
def mark (succ : V → List V) : Nat → V → List V → List V
| 0, _, seen => seen
| fuel + 1, x, seen =>
    if x ∈ seen then seen
    else
      (succ x).foldl
        (fun seen y => mark succ fuel y seen) (x :: seen)

/- Mark what can be reached from any of `xs`. -/
def markAll
    (succ : V → List V)
    (fuel : Nat)
    (xs seen : List V) :
    List V :=
  xs.foldl (fun seen y => mark succ fuel y seen) seen

/- The vertices of `univ` that are not yet seen. -/
def unseen (univ seen : List V) : List V :=
  univ.filter (fun x => x ∉ seen)

theorem unseen_length_mono
    {univ seen seen' : List V}
    (h : ∀ x ∈ seen, x ∈ seen') :
    (unseen univ seen').length ≤ (unseen univ seen).length := by
  apply List.Sublist.length_le
  apply List.monotone_filter_right
  intro x hx
  simp only [decide_eq_true_eq] at hx ⊢
  exact fun hMem => hx (h x hMem)

theorem unseen_length_visit
    {univ seen : List V}
    {x : V}
    (hx : x ∈ univ)
    (hFresh : x ∉ seen) :
    (unseen univ (x :: seen)).length <
      (unseen univ seen).length := by
  have hEq :
      unseen univ (x :: seen) =
        (unseen univ seen).filter (fun y => y ≠ x) := by
    unfold unseen
    rw [List.filter_filter]
    apply List.filter_congr
    intro y _
    simp [not_or]
  rw [hEq]
  apply List.length_filter_lt_length_iff_exists.mpr
  exact ⟨x, by simp [unseen, hx, hFresh], by simp⟩

variable {succ : V → List V}
variable {univ : List V}

/-
  Marking meets its specification in a finite universe that
  holds all successors, given fuel for the unseen vertices.
-/
theorem marked_markAll
    (hSucc : ∀ x ∈ univ, ∀ y ∈ succ x, y ∈ univ)
    {fuel : Nat}
    {xs seen : List V}
    (hxs : ∀ x ∈ xs, x ∈ univ)
    (hFuel : (unseen univ seen).length ≤ fuel) :
    Marked succ xs seen (markAll succ fuel xs seen) := by
  induction fuel generalizing xs seen with
  | zero =>
      -- No vertex of the universe is unseen.
      have hSeen : ∀ x ∈ univ, x ∈ seen := by
        intro x hx
        by_contra hNot
        have hPos := unseen_length_visit hx hNot
        omega
      induction xs with
      | nil => exact .nil seen
      | cons x xs ih =>
          have hx := hSeen x (hxs x List.mem_cons_self)
          exact .cons (.of_mem hx)
            (ih (fun y hy => hxs y (List.mem_cons_of_mem _ hy)))
  | succ fuel ih =>
      have hOne :
          ∀ x seen, x ∈ univ →
            (unseen univ seen).length ≤ fuel + 1 →
            Marked succ [x] seen (mark succ (fuel + 1) x seen) := by
        intro x seen hx hFuel
        by_cases hSeen : x ∈ seen
        · have hMark : mark succ (fuel + 1) x seen = seen := by
            simp [mark, hSeen]
          rw [hMark]
          exact .of_mem hSeen
        · have hMark :
              mark succ (fuel + 1) x seen =
                markAll succ fuel (succ x) (x :: seen) := by
            simp [mark, markAll, hSeen]
          have hLess := unseen_length_visit hx hSeen
          rw [hMark]
          exact .visit hSeen (ih (hSucc x hx) (by omega))
      induction xs generalizing seen with
      | nil => exact .nil seen
      | cons x xs ihList =>
          have hHead :=
            hOne x seen (hxs x List.mem_cons_self) hFuel
          refine .cons hHead (ihList ?_ ?_)
          · exact fun y hy => hxs y (List.mem_cons_of_mem _ hy)
          · exact Nat.le_trans (unseen_length_mono hHead.mono) hFuel

/- From nothing, marking yields exactly the reachable set. -/
theorem mem_markAll_iff
    (hSucc : ∀ x ∈ univ, ∀ y ∈ succ x, y ∈ univ)
    {fuel : Nat}
    {xs : List V}
    (hxs : ∀ x ∈ xs, x ∈ univ)
    (hFuel : univ.length ≤ fuel)
    {y : V} :
    y ∈ markAll succ fuel xs [] ↔
      ∃ x ∈ xs, Relation.ReflTransGen (Edge succ) x y := by
  have hUnseen : (unseen univ []).length ≤ fuel :=
    Nat.le_trans (List.length_filter_le _ _) hFuel
  have hMarked := marked_markAll hSucc hxs hUnseen
  constructor
  · intro hy
    rcases hMarked.reach y hy with hNil | hReach
    · simp at hNil
    · exact hReach
  · rintro ⟨x, hx, hReach⟩
    have hClosed :
        ∀ a b, a ∈ markAll succ fuel xs [] → Edge succ a b →
          b ∈ markAll succ fuel xs [] := by
      intro a b ha hab
      rcases hMarked.closed a ha with hNil | hAll
      · simp at hNil
      · exact hAll b hab
    exact closed_reach hClosed hReach (hMarked.roots x hx)

end Digraph

end Lib

end Winunitd
