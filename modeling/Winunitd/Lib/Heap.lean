import Mathlib.Data.List.Basic
import Mathlib.Data.List.Nodup
import Mathlib.Logic.Function.Basic

/-
  Binary heaps of objects that know their own position.

  The operations are those of a heap with a swap that writes
  the new position into the two objects it moves.  They only
  swap, so they permute the array and keep every position
  right; the object at a position is what is removed there.

  Key definitions include:
    * `Heap.swap`
    * `Heap.up`, `Heap.down`
    * `Heap.push`, `Heap.remove`, `Heap.pop`
    * `Heap.Indexed`

  Key theorems include:
    * `Heap.up_rule`, `Heap.down_rule`
    * `Heap.push_perm`
    * `Heap.remove_spec`
-/

------------------------------------------------------------
-- Operations
------------------------------------------------------------

namespace Winunitd

namespace Lib

/- The objects in heap order, and the position each stores. -/
structure Heap (R : Type) where
  arr : List R
  pos : R → Int

namespace Heap

variable {R : Type}
variable [DecidableEq R]

/- Exchange two objects. -/
def swap (h : Heap R) (i j : Nat) : Heap R :=
  match h.arr[i]?, h.arr[j]? with
  | some a, some b =>
      { arr := (h.arr.set i b).set j a
        pos := Function.update (Function.update h.pos b i) a j }
  | _, _ => h

/- The object at one position is to come before another. -/
def lessAt
    (less : R → R → Bool)
    (h : Heap R)
    (i j : Nat) : Bool :=
  match h.arr[i]?, h.arr[j]? with
  | some a, some b => less a b
  | _, _ => false

/- Move an object towards the top. -/
def up (less : R → R → Bool) : Nat → Heap R → Nat → Heap R
| 0, h, _ => h
| fuel + 1, h, j =>
    let i := (j - 1) / 2
    if i = j ∨ h.lessAt less j i = false then h
    else up less fuel (h.swap i j) i

/- The smaller of the children of a position. -/
def child (less : R → R → Bool) (n : Nat) (h : Heap R) (i : Nat) :
    Nat :=
  if 2 * i + 2 < n ∧ h.lessAt less (2 * i + 2) (2 * i + 1) = true then
    2 * i + 2
  else
    2 * i + 1

/-
  Move an object away from the top, among the first `n`; the
  second result is its final position.
-/
def down (less : R → R → Bool) (n : Nat) :
    Nat → Heap R → Nat → Heap R × Nat
| 0, h, i => (h, i)
| fuel + 1, h, i =>
    if n ≤ 2 * i + 1 then (h, i)
    else
      let j := h.child less n i
      if h.lessAt less j i = false then (h, i)
      else down less n fuel (h.swap i j) j

/- Take the last object off the array. -/
def take (h : Heap R) : Option R × Heap R :=
  match h.arr.getLast? with
  | some r =>
      (some r,
        { arr := h.arr.dropLast, pos := Function.update h.pos r (-1) })
  | none => (none, h)

def push (less : R → R → Bool) (h : Heap R) (r : R) : Heap R :=
  up less (h.arr.length + 1)
    { arr := h.arr ++ [r]
      pos := Function.update h.pos r h.arr.length }
    h.arr.length

/- Remove the object at a position. -/
def remove (less : R → R → Bool) (h : Heap R) (i : Nat) :
    Option R × Heap R :=
  let n := h.arr.length - 1
  if n = i then h.take
  else
    let moved := down less n n (h.swap i n) i
    if i < moved.2 then moved.1.take
    else (up less (i + 1) moved.1 i).take

/- Remove the object at the top. -/
def pop (less : R → R → Bool) (h : Heap R) : Option R × Heap R :=
  let n := h.arr.length - 1
  (down less n n (h.swap 0 n) 0).1.take

------------------------------------------------------------
-- Positions
------------------------------------------------------------

variable {i : Nat}

omit [DecidableEq R] in
/- An element of a list with one more at its end. -/
theorem getElem_snoc
    {xs : List R}
    {x v : R}
    (h : (xs ++ [x])[i]? = some v) :
    xs[i]? = some v ∨ i = xs.length ∧ v = x := by
  rcases Nat.lt_or_ge i xs.length with hOld | hLast
  · rw [List.getElem?_append_left hOld] at h
    exact Or.inl h
  · rw [List.getElem?_append_right hLast] at h
    rcases List.getElem?_eq_some_iff.mp h with ⟨hBound, hEq⟩
    have hZero : i - xs.length = 0 := by
      simpa using hBound
    simp only [hZero, List.getElem_cons_zero] at hEq
    exact Or.inr ⟨by omega, hEq.symm⟩

omit [DecidableEq R] in
/- An element of a list with one element replaced. -/
theorem getElem_set
    {xs : List R}
    {x v : R}
    {i j : Nat}
    (h : (xs.set i x)[j]? = some v) :
    j = i ∧ v = x ∨ j ≠ i ∧ xs[j]? = some v := by
  by_cases hij : i = j
  · subst hij
    have hBound := (List.getElem?_eq_some_iff.mp h).1
    rw [List.length_set] at hBound
    rw [List.getElem?_set_self hBound] at h
    exact Or.inl ⟨rfl, (Option.some.inj h).symm⟩
  · rw [List.getElem?_set_ne hij] at h
    exact Or.inr ⟨Ne.symm hij, h⟩

------------------------------------------------------------
-- Swaps
------------------------------------------------------------

variable {h : Heap R}
variable {r : R}

omit [DecidableEq R] in
theorem lt_of_getElem
    (hr : h.arr[i]? = some r) :
    i < h.arr.length :=
  (List.getElem?_eq_some_iff.mp hr).1

theorem swap_perm
    (h : Heap R)
    (i j : Nat) :
    (h.swap i j).arr.Perm h.arr := by
  unfold swap
  split
  · rename_i a b ha hb
    rcases List.getElem?_eq_some_iff.mp ha with ⟨hi, rfl⟩
    rcases List.getElem?_eq_some_iff.mp hb with ⟨hj, rfl⟩
    exact List.set_set_perm hi hj
  · exact .refl _

/- A swap leaves the other positions. -/
theorem swap_getElem
    (h : Heap R)
    {i j k : Nat}
    (hi : i ≠ k)
    (hj : j ≠ k) :
    (h.swap i j).arr[k]? = h.arr[k]? := by
  unfold swap
  split
  · simp only [List.getElem?_set_ne hj, List.getElem?_set_ne hi]
  · rfl

/- Every object stores its own position. -/
def Indexed (h : Heap R) : Prop :=
  ∀ (i : Nat) (r : R), h.arr[i]? = some r → h.pos r = i

omit [DecidableEq R] in
theorem Indexed.nodup
    (hIndexed : h.Indexed) :
    h.arr.Nodup := by
  rw [List.nodup_iff_injective_get]
  intro i j hij
  have hi := hIndexed i (h.arr.get i) (by simp)
  have hj := hIndexed j (h.arr.get j) (by simp)
  rw [hij, hj] at hi
  exact Fin.ext (by exact_mod_cast hi.symm)

omit [DecidableEq R] in
/- An object stands at one position only. -/
theorem Indexed.eq_of_getElem
    (hIndexed : h.Indexed)
    {i j : Nat}
    (hi : h.arr[i]? = some r)
    (hj : h.arr[j]? = some r) :
    i = j := by
  have hPos := hIndexed i r hi
  rw [hIndexed j r hj] at hPos
  exact_mod_cast hPos.symm

theorem Indexed.swap
    (hIndexed : h.Indexed)
    (i j : Nat) :
    (h.swap i j).Indexed := by
  unfold Heap.swap
  split
  · rename_i a b ha hb
    intro k r hr
    dsimp only at hr ⊢
    rcases getElem_set hr with ⟨rfl, rfl⟩ | ⟨hkj, hFirst⟩
    · rw [Function.update_self]
    · rcases getElem_set hFirst with ⟨rfl, rfl⟩ | ⟨hki, hOld⟩
      · have hNe : r ≠ a := by
          rintro rfl
          exact hkj (hIndexed.eq_of_getElem ha hb)
        rw [Function.update_of_ne hNe, Function.update_self]
      · have hNeA : r ≠ a := by
          rintro rfl
          exact hki (hIndexed.eq_of_getElem hOld ha)
        have hNeB : r ≠ b := by
          rintro rfl
          exact hkj (hIndexed.eq_of_getElem hOld hb)
        rw [Function.update_of_ne hNeA, Function.update_of_ne hNeB]
        exact hIndexed k r hOld
  · exact hIndexed

------------------------------------------------------------
-- Moves
------------------------------------------------------------

variable {n : Nat}
variable {P : Heap R → Prop}

/- What every swap below a bound keeps, moving up keeps. -/
theorem up_rule
    (less : R → R → Bool)
    (hSwap : ∀ h i j, i < n → j < n → P h → P (h.swap i j))
    (fuel : Nat)
    {j : Nat}
    (hj : j < n)
    (hP : P h) :
    P (up less fuel h j) := by
  induction fuel generalizing h j with
  | zero => exact hP
  | succ fuel ih =>
      simp only [up]
      split
      · exact hP
      · have hi : (j - 1) / 2 < n := by omega
        exact ih hi (hSwap h _ _ hi hj hP)

theorem down_rule
    (less : R → R → Bool)
    (hSwap : ∀ h i j, i < n → j < n → P h → P (h.swap i j))
    (fuel : Nat)
    (hP : P h) :
    P (down less n fuel h i).1 := by
  induction fuel generalizing h i with
  | zero => exact hP
  | succ fuel ih =>
      simp only [down]
      split
      · exact hP
      · split
        · exact hP
        · have hChild : h.child less n i < n := by
            unfold child
            split <;> omega
          exact ih (hSwap h _ _ (by omega) hChild hP)

/-
  A permutation of an array that keeps the positions right and
  the last object in its place.
-/
structure Moved (n : Nat) (h h' : Heap R) : Prop where
  perm : h'.arr.Perm h.arr
  indexed : h.Indexed → h'.Indexed
  last : h'.arr[n]? = h.arr[n]?

omit [DecidableEq R] in
theorem Moved.refl
    (n : Nat)
    (h : Heap R) :
    Moved n h h :=
  ⟨.refl _, id, rfl⟩

theorem Moved.swap
    (h' : Heap R)
    (i j : Nat)
    (hi : i < n)
    (hj : j < n)
    (hMoved : Moved n h h') :
    Moved n h (h'.swap i j) where
  perm := (swap_perm h' i j).trans hMoved.perm
  indexed := fun hIndexed => (hMoved.indexed hIndexed).swap i j
  last := by
    rw [swap_getElem h' (Nat.ne_of_lt hi) (Nat.ne_of_lt hj)]
    exact hMoved.last

/- The heap with one more object, before it is moved. -/
theorem push_moved
    (less : R → R → Bool)
    (h : Heap R)
    (r : R) :
    Moved (h.arr.length + 1)
      { arr := h.arr ++ [r]
        pos := Function.update h.pos r h.arr.length }
      (h.push less r) :=
  up_rule less Moved.swap _ (Nat.lt_succ_self _) (Moved.refl _ _)

theorem push_perm
    (less : R → R → Bool)
    (h : Heap R)
    (r : R) :
    (h.push less r).arr.Perm (r :: h.arr) :=
  (push_moved less h r).perm.trans
    (List.perm_append_singleton r h.arr)

theorem Indexed.push
    (hIndexed : h.Indexed)
    (less : R → R → Bool)
    (hNew : r ∉ h.arr) :
    (h.push less r).Indexed := by
  apply (push_moved less h r).indexed
  intro i x hx
  rcases getElem_snoc hx with hOld | ⟨rfl, rfl⟩
  · have hNe : x ≠ r := by
      rintro rfl
      exact hNew (List.mem_of_getElem? hOld)
    dsimp only
    rw [Function.update_of_ne hNe]
    exact hIndexed i x hOld
  · dsimp only
    rw [Function.update_self]

theorem take_spec
    (hIndexed : h.Indexed)
    (hLast : h.arr[h.arr.length - 1]? = some r) :
    ∃ h', h.take = (some r, h') ∧ h'.Indexed ∧
      h.arr.Perm (r :: h'.arr) := by
  have hGet : h.arr.getLast? = some r := by
    rw [List.getLast?_eq_getElem?]
    exact hLast
  have hSplit : h.arr.dropLast ++ [r] = h.arr :=
    List.dropLast_append_getLast? r hGet
  have hTake :
      h.take =
        (some r,
          { arr := h.arr.dropLast
            pos := Function.update h.pos r (-1) }) := by
    unfold take
    rw [hGet]
  refine ⟨_, hTake, ?_, ?_⟩
  · intro i x hx
    have hOther : x ≠ r := by
      rintro rfl
      have hNodup := hIndexed.nodup
      rw [← hSplit, List.nodup_append] at hNodup
      exact hNodup.2.2 x (List.mem_of_getElem? hx) x
        (List.mem_singleton_self x) rfl
    dsimp only at hx ⊢
    rw [Function.update_of_ne hOther]
    apply hIndexed i x
    rw [← hSplit]
    rw [List.getElem?_append_left
      (List.getElem?_eq_some_iff.mp hx).1]
    exact hx
  · have hPerm := List.perm_append_singleton r h.arr.dropLast
    rw [hSplit] at hPerm
    exact hPerm

/- After a swap with the last position the object stands there. -/
theorem swap_last
    (hr : h.arr[i]? = some r) :
    (h.swap i (h.arr.length - 1)).arr[h.arr.length - 1]? = some r := by
  have hi := lt_of_getElem hr
  have hn : h.arr.length - 1 < h.arr.length := by omega
  unfold swap
  rw [hr, List.getElem?_eq_getElem hn]
  dsimp only
  rw [List.getElem?_set_self]
  rw [List.length_set]
  exact hn

/- Removing a position takes off the object that stands there. -/
theorem remove_spec
    (hIndexed : h.Indexed)
    (less : R → R → Bool)
    (hr : h.arr[i]? = some r) :
    ∃ h', h.remove less i = (some r, h') ∧ h'.Indexed ∧
      h.arr.Perm (r :: h'.arr) := by
  have hi := lt_of_getElem hr
  -- whatever the moves do, the object stays last
  have hTake :
      ∀ h₁, Moved (h.arr.length - 1) (h.swap i (h.arr.length - 1)) h₁ →
        ∃ h', h₁.take = (some r, h') ∧ h'.Indexed ∧
          h.arr.Perm (r :: h'.arr) := by
    intro h₁ hMoved
    have hPerm := hMoved.perm.trans (swap_perm h i _)
    have hLast : h₁.arr[h₁.arr.length - 1]? = some r := by
      rw [hPerm.length_eq, hMoved.last]
      exact swap_last hr
    rcases take_spec (hMoved.indexed (hIndexed.swap _ _)) hLast with
      ⟨h', hEq, hIndexed', hTaken⟩
    exact ⟨h', hEq, hIndexed', hPerm.symm.trans hTaken⟩
  have hDown :
      Moved (h.arr.length - 1) (h.swap i (h.arr.length - 1))
        (down less (h.arr.length - 1) (h.arr.length - 1)
          (h.swap i (h.arr.length - 1)) i).1 :=
    down_rule less Moved.swap _ (Moved.refl _ _)
  unfold remove
  dsimp only
  split
  · rename_i hLast
    apply take_spec hIndexed
    rw [hLast]
    exact hr
  · split
    · exact hTake _ hDown
    · exact hTake _ (up_rule less Moved.swap _ (by omega) hDown)

end Heap

end Lib

end Winunitd
