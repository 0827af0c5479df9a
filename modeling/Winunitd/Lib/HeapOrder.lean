import Mathlib.Logic.Equiv.Basic
import Winunitd.Lib.Heap

/-
  The order of binary heaps.

  In an ordered heap no object comes before its parent.  Moving
  an object up mends a heap that is ordered but for that object
  and its parent, moving it down one that is ordered but for
  the object and its neighbours; so adding and removing objects
  keep the order.

  Key definitions include:
    * `Heap.StrictWeak`
    * `Heap.Ordered`
    * `Heap.OpenAbove`, `Heap.OpenAround`

  Key theorems include:
    * `Heap.Ordered.push`
    * `Heap.Ordered.remove`
-/

------------------------------------------------------------
-- Orders
------------------------------------------------------------

namespace Winunitd

namespace Lib

namespace Heap

variable {R : Type}
variable {less : R → R → Bool}

/- A strict weak order of some objects. -/
structure StrictWeak (less : R → R → Bool) (xs : List R) : Prop where
  asymm : ∀ a ∈ xs, ∀ b ∈ xs, less a b = true → less b a = false
  trans :
    ∀ a ∈ xs, ∀ b ∈ xs, ∀ c ∈ xs, less a b = false →
      less b c = false → less a c = false

/- Fewer objects, which are compared as before. -/
theorem StrictWeak.congr
    {less' : R → R → Bool}
    {xs ys : List R}
    (h : StrictWeak less xs)
    (hSub : ys ⊆ xs)
    (hSame : ∀ a ∈ ys, ∀ b ∈ ys, less' a b = less a b) :
    StrictWeak less' ys where
  asymm a ha b hb hab := by
    rw [hSame a ha b hb] at hab
    rw [hSame b hb a ha]
    exact h.asymm a (hSub ha) b (hSub hb) hab
  trans a ha b hb c hc hab hbc := by
    rw [hSame a ha b hb] at hab
    rw [hSame b hb c hc] at hbc
    rw [hSame a ha c hc]
    exact h.trans a (hSub ha) b (hSub hb) c (hSub hc) hab hbc

theorem StrictWeak.sub
    {xs ys : List R}
    (h : StrictWeak less xs)
    (hSub : ys ⊆ xs) :
    StrictWeak less ys :=
  h.congr hSub (fun _ _ _ _ => rfl)

/- The first `n` objects are ordered. -/
def OrderedTo (less : R → R → Bool) (n : Nat) (h : Heap R) : Prop :=
  ∀ k, 0 < k → k < n → h.lessAt less k ((k - 1) / 2) = false

/- No object comes before its parent. -/
def Ordered (less : R → R → Bool) (h : Heap R) : Prop :=
  OrderedTo less h.arr.length h

/-
  The first `n` objects are ordered, except that the object at
  `j` may come before its parent.
-/
structure OpenAbove
    (less : R → R → Bool)
    (n : Nat)
    (h : Heap R)
    (j : Nat) : Prop where
  rest :
    ∀ k, 0 < k → k < n → k ≠ j →
      h.lessAt less k ((k - 1) / 2) = false
  past :
    ∀ k, 0 < k → k < n → (k - 1) / 2 = j → 0 < j →
      h.lessAt less k ((j - 1) / 2) = false

/-
  The first `n` objects are ordered, except for the object at
  `i` with its parent and its children.
-/
structure OpenAround
    (less : R → R → Bool)
    (n : Nat)
    (h : Heap R)
    (i : Nat) : Prop where
  rest :
    ∀ k, 0 < k → k < n → k ≠ i → (k - 1) / 2 ≠ i →
      h.lessAt less k ((k - 1) / 2) = false
  past :
    ∀ k, 0 < k → k < n → (k - 1) / 2 = i → 0 < i →
      h.lessAt less k ((i - 1) / 2) = false

------------------------------------------------------------
-- Comparing Positions
------------------------------------------------------------

variable {h : Heap R}
variable {i j : Nat}

theorem lessAt_asymm
    (hLess : StrictWeak less h.arr)
    (hij : h.lessAt less i j = true) :
    h.lessAt less j i = false := by
  unfold lessAt at hij ⊢
  split at hij
  · rename_i a b ha hb
    simp only [ha, hb]
    exact hLess.asymm a (List.mem_of_getElem? ha) b
      (List.mem_of_getElem? hb) hij
  · cases hij

/- The position in the middle is one of the heap. -/
theorem lessAt_trans
    (hLess : StrictWeak less h.arr)
    {i j k : Nat}
    (hj : j < h.arr.length)
    (hij : h.lessAt less i j = false)
    (hjk : h.lessAt less j k = false) :
    h.lessAt less i k = false := by
  unfold lessAt at hij hjk ⊢
  rw [List.getElem?_eq_getElem hj] at hij hjk
  split
  · rename_i a c ha hc
    simp only [ha] at hij
    simp only [hc] at hjk
    exact hLess.trans a (List.mem_of_getElem? ha) _
      (List.getElem_mem hj) c (List.mem_of_getElem? hc) hij hjk
  · rfl

theorem lessAt_congr
    {h h' : Heap R}
    {i j k l : Nat}
    (hi : h'.arr[i]? = h.arr[k]?)
    (hj : h'.arr[j]? = h.arr[l]?) :
    h'.lessAt less i j = h.lessAt less k l := by
  unfold lessAt
  rw [hi, hj]

variable [DecidableEq R]

theorem swap_length
    (h : Heap R)
    (i j : Nat) :
    (h.swap i j).arr.length = h.arr.length :=
  (swap_perm h i j).length_eq

/- After a swap each position holds what the other one held. -/
theorem swap_getElem_swap
    (hi : i < h.arr.length)
    (hj : j < h.arr.length)
    (k : Nat) :
    (h.swap i j).arr[k]? = h.arr[Equiv.swap i j k]? := by
  by_cases hki : k = i
  · subst hki
    rw [Equiv.swap_apply_left]
    unfold swap
    rw [List.getElem?_eq_getElem hi, List.getElem?_eq_getElem hj]
    dsimp only
    by_cases hjk : j = k
    · subst hjk
      rw [List.getElem?_set_self (by simpa using hj)]
    · rw [List.getElem?_set_ne hjk, List.getElem?_set_self hi]
  by_cases hkj : k = j
  · subst hkj
    rw [Equiv.swap_apply_right]
    unfold swap
    rw [List.getElem?_eq_getElem hi, List.getElem?_eq_getElem hj]
    dsimp only
    rw [List.getElem?_set_self (by simpa using hj)]
  · rw [Equiv.swap_apply_of_ne_of_ne hki hkj]
    exact swap_getElem h (Ne.symm hki) (Ne.symm hkj)

theorem swap_lessAt
    (hi : i < h.arr.length)
    (hj : j < h.arr.length)
    (k l : Nat) :
    (h.swap i j).lessAt less k l =
      h.lessAt less (Equiv.swap i j k) (Equiv.swap i j l) :=
  lessAt_congr (swap_getElem_swap hi hj k) (swap_getElem_swap hi hj l)

------------------------------------------------------------
-- Moving Up
------------------------------------------------------------

/- An object that comes before its parent changes places. -/
theorem OpenAbove.swap
    (hLess : StrictWeak less h.arr)
    {n j : Nat}
    (hn : n ≤ h.arr.length)
    (hj : j < n)
    (hPos : 0 < j)
    (hOpen : OpenAbove less n h j)
    (hBefore : h.lessAt less j ((j - 1) / 2) = true) :
    OpenAbove less n (h.swap ((j - 1) / 2) j) ((j - 1) / 2) := by
  have hLeft : (j - 1) / 2 < h.arr.length := by omega
  have hRight : j < h.arr.length := by omega
  have hAfter := lessAt_asymm hLess hBefore
  constructor
  · intro k hk hkn hne
    rw [swap_lessAt hLeft hRight]
    by_cases hkj : k = j
    · rw [hkj, Equiv.swap_apply_right, Equiv.swap_apply_left]
      exact hAfter
    rw [Equiv.swap_apply_of_ne_of_ne hne hkj]
    by_cases hChild : (k - 1) / 2 = j
    · rw [hChild, Equiv.swap_apply_right]
      exact hOpen.past k hk hkn hChild hPos
    by_cases hSibling : (k - 1) / 2 = (j - 1) / 2
    · rw [hSibling, Equiv.swap_apply_left]
      have hRest := hOpen.rest k hk hkn hkj
      rw [hSibling] at hRest
      exact lessAt_trans hLess hLeft hRest hAfter
    · rw [Equiv.swap_apply_of_ne_of_ne hSibling hChild]
      exact hOpen.rest k hk hkn hkj
  · intro k hk hkn hParent hTop
    have hUpper :
        Equiv.swap ((j - 1) / 2) j (((j - 1) / 2 - 1) / 2) =
          ((j - 1) / 2 - 1) / 2 :=
      Equiv.swap_apply_of_ne_of_ne (by omega) (by omega)
    rw [swap_lessAt hLeft hRight, hUpper]
    have hAbove :
        h.lessAt less ((j - 1) / 2) (((j - 1) / 2 - 1) / 2) = false :=
      hOpen.rest _ hTop (by omega) (by omega)
    by_cases hkj : k = j
    · rw [hkj, Equiv.swap_apply_right]
      exact hAbove
    · rw [Equiv.swap_apply_of_ne_of_ne (by omega) hkj]
      have hRest := hOpen.rest k hk hkn hkj
      rw [hParent] at hRest
      exact lessAt_trans hLess hLeft hRest hAbove

theorem OpenAbove.up
    (hLess : StrictWeak less h.arr)
    {n : Nat}
    (fuel : Nat)
    (hn : n ≤ h.arr.length)
    (hj : j < n)
    (hFuel : j < fuel)
    (hOpen : OpenAbove less n h j) :
    OrderedTo less n (h.up less fuel j) := by
  induction fuel generalizing h j with
  | zero => omega
  | succ fuel ih =>
      simp only [Heap.up]
      split
      · rename_i hStop
        intro k hk hkn
        by_cases hkj : k = j
        · subst hkj
          rcases hStop with hTop | hStop
          · omega
          · exact hStop
        · exact hOpen.rest k hk hkn hkj
      · rename_i hGo
        rw [not_or, Bool.not_eq_false] at hGo
        have hPos : 0 < j := by omega
        apply ih
        · exact hLess.sub (swap_perm h _ _).subset
        · rw [swap_length]
          exact hn
        · omega
        · omega
        · exact hOpen.swap hLess hn hj hPos hGo.2

theorem up_length
    (fuel : Nat)
    (h : Heap R)
    (j : Nat) :
    (h.up less fuel j).arr.length = h.arr.length :=
  up_rule (P := fun h' => h'.arr.length = h.arr.length) less
    (fun h' i j _ _ hLen => (swap_length h' i j).trans hLen)
    fuel (Nat.lt_succ_self j) rfl

------------------------------------------------------------
-- Moving Down
------------------------------------------------------------

variable (less) in
omit [DecidableEq R] in
theorem child_bounds
    {n i : Nat}
    (h : Heap R)
    (hChild : 2 * i + 1 < n) :
    h.child less n i < n ∧ (h.child less n i - 1) / 2 = i ∧
      i < h.child less n i := by
  unfold child
  split
  · omega
  · omega

omit [DecidableEq R] in
/- No other child comes before the smaller one. -/
theorem child_least
    (hLess : StrictWeak less h.arr)
    {n i k : Nat}
    (hk : 0 < k)
    (hkn : k < n)
    (hParent : (k - 1) / 2 = i)
    (hne : k ≠ h.child less n i) :
    h.lessAt less k (h.child less n i) = false := by
  unfold child at hne ⊢
  have hCases : k = 2 * i + 1 ∨ k = 2 * i + 2 := by omega
  split at hne
  · rename_i hRight
    rw [if_pos hRight]
    have hEq : k = 2 * i + 1 := by omega
    rw [hEq]
    exact lessAt_asymm hLess hRight.2
  · rename_i hLeft
    rw [if_neg hLeft]
    have hEq : k = 2 * i + 2 := by omega
    subst hEq
    by_contra hBefore
    exact hLeft ⟨hkn, by simpa using hBefore⟩

/- An object that comes after its smaller child changes places. -/
theorem OpenAround.swap
    (hLess : StrictWeak less h.arr)
    {n i : Nat}
    (hn : n ≤ h.arr.length)
    (hOpen : OpenAround less n h i)
    (hChild : 2 * i + 1 < n)
    (hBefore : h.lessAt less (h.child less n i) i = true) :
    OpenAround less n (h.swap i (h.child less n i))
        (h.child less n i) ∧
      (h.swap i (h.child less n i)).lessAt less (h.child less n i)
        ((h.child less n i - 1) / 2) = false := by
  rcases child_bounds less h hChild with
    ⟨hj, hParent, hBelow⟩
  have hLeast := fun k hk hkn hkParent hne =>
    child_least (n := n) (i := i) (k := k) (h := h) hLess hk hkn
      hkParent hne
  generalize h.child less n i = j at *
  have hLeft : i < h.arr.length := by omega
  have hRight : j < h.arr.length := by omega
  refine ⟨⟨?_, ?_⟩, ?_⟩
  · intro k hk hkn hne hNot
    rw [swap_lessAt hLeft hRight]
    by_cases hki : k = i
    · subst hki
      rw [Equiv.swap_apply_left,
        Equiv.swap_apply_of_ne_of_ne (by omega) hNot]
      exact hOpen.past j (by omega) hj hParent hk
    rw [Equiv.swap_apply_of_ne_of_ne hki hne]
    by_cases hSibling : (k - 1) / 2 = i
    · rw [hSibling, Equiv.swap_apply_left]
      exact hLeast k hk hkn hSibling hne
    · rw [Equiv.swap_apply_of_ne_of_ne hSibling hNot]
      exact hOpen.rest k hk hkn hki hSibling
  · intro k hk hkn hkParent _
    rw [swap_lessAt hLeft hRight, hParent, Equiv.swap_apply_left,
      Equiv.swap_apply_of_ne_of_ne (by omega) (by omega)]
    have hRest := hOpen.rest k hk hkn (by omega) (by omega)
    rw [hkParent] at hRest
    exact hRest
  · rw [swap_lessAt hLeft hRight, hParent, Equiv.swap_apply_right,
      Equiv.swap_apply_left]
    exact lessAt_asymm hLess hBefore

omit [DecidableEq R] in
/- A stop: the children do not come before the object. -/
theorem OpenAround.stop
    (hLess : StrictWeak less h.arr)
    {n i : Nat}
    (hn : n ≤ h.arr.length)
    (hOpen : OpenAround less n h i)
    (hStop :
      2 * i + 1 < n → h.lessAt less (h.child less n i) i = false) :
    OpenAbove less n h i := by
  refine ⟨?_, hOpen.past⟩
  intro k hk hkn hne
  by_cases hParent : (k - 1) / 2 = i
  · have hChild : 2 * i + 1 < n := by omega
    have hBounds := child_bounds less h hChild
    have hEnd := hStop hChild
    rw [hParent]
    by_cases hkc : k = h.child less n i
    · rw [hkc]
      exact hEnd
    · exact lessAt_trans hLess (by omega)
        (child_least hLess hk hkn hParent hkc) hEnd
  · exact hOpen.rest k hk hkn hne hParent

/-
  Where the object comes to rest only its parent is open, and
  not even that if it has moved.
-/
theorem OpenAround.down
    (hLess : StrictWeak less h.arr)
    {n : Nat}
    (fuel : Nat)
    (hn : n ≤ h.arr.length)
    (hFuel : n ≤ fuel + i)
    (hOpen : OpenAround less n h i) :
    i ≤ (h.down less n fuel i).2 ∧
      OpenAbove less n (h.down less n fuel i).1
        (h.down less n fuel i).2 ∧
      (i < (h.down less n fuel i).2 ∨
          h.lessAt less i ((i - 1) / 2) = false →
        OrderedTo less n (h.down less n fuel i).1) := by
  -- an object at rest is ordered if it is after its parent
  have hRest :
      ∀ {h : Heap R} {i : Nat}, OpenAbove less n h i →
        h.lessAt less i ((i - 1) / 2) = false →
        OrderedTo less n h := by
    intro h i hAbove hParent k hk hkn
    by_cases hki : k = i
    · rw [hki]
      exact hParent
    · exact hAbove.rest k hk hkn hki
  induction fuel generalizing h i with
  | zero =>
      have hAbove := hOpen.stop hLess hn (fun hChild => by omega)
      refine ⟨Nat.le_refl _, hAbove, ?_⟩
      rintro (hMoved | hParent)
      · exact absurd hMoved (Nat.lt_irrefl _)
      · exact hRest hAbove hParent
  | succ fuel ih =>
      simp only [Heap.down]
      split
      · rename_i hLeaf
        have hAbove :=
          hOpen.stop hLess hn (fun hChild => by omega)
        refine ⟨Nat.le_refl _, hAbove, ?_⟩
        rintro (hMoved | hParent)
        · exact absurd hMoved (Nat.lt_irrefl _)
        · exact hRest hAbove hParent
      rename_i hChild
      split
      · rename_i hStop
        have hAbove := hOpen.stop hLess hn (fun _ => hStop)
        refine ⟨Nat.le_refl _, hAbove, ?_⟩
        rintro (hMoved | hParent)
        · exact absurd hMoved (Nat.lt_irrefl _)
        · exact hRest hAbove hParent
      · rename_i hGo
        rw [Bool.not_eq_false] at hGo
        have hBounds :=
          child_bounds less h
            (show 2 * i + 1 < n by omega)
        rcases hOpen.swap hLess hn (by omega) hGo with
          ⟨hOpen', hParent⟩
        have hLen : n ≤ (h.swap i (h.child less n i)).arr.length := by
          rw [swap_length]
          exact hn
        rcases ih (hLess.sub (swap_perm h _ _).subset) hLen (by omega)
            hOpen' with
          ⟨hBelow, hAbove, hOrdered⟩
        exact ⟨by omega, hAbove, fun _ => hOrdered (Or.inr hParent)⟩

theorem down_perm
    (n fuel : Nat)
    (h : Heap R)
    (i : Nat) :
    (h.down less n fuel i).1.arr.Perm h.arr :=
  down_rule (P := fun h' => h'.arr.Perm h.arr) less
    (fun h' i j _ _ hPerm => (swap_perm h' i j).trans hPerm)
    fuel (.refl _)

------------------------------------------------------------
-- Adding And Removing
------------------------------------------------------------

omit [DecidableEq R] in
/- The order looks at the objects of the heap alone. -/
theorem Ordered.congr
    {less' : R → R → Bool}
    (hOrdered : h.Ordered less)
    (hSame : ∀ a ∈ h.arr, ∀ b ∈ h.arr, less' a b = less a b) :
    h.Ordered less' := by
  intro k hk hkn
  have hOld := hOrdered k hk hkn
  unfold lessAt at hOld ⊢
  split
  · rename_i a b ha hb
    simp only [ha, hb] at hOld
    rw [hSame a (List.mem_of_getElem? ha) b (List.mem_of_getElem? hb)]
    exact hOld
  · rfl

theorem Ordered.push
    {r : R}
    (hLess : StrictWeak less (h.arr ++ [r]))
    (hOrdered : h.Ordered less) :
    (h.push less r).Ordered less := by
  have hLen : (h.arr ++ [r]).length = h.arr.length + 1 := by simp
  unfold Ordered
  rw [Heap.push, up_length]
  dsimp only
  rw [hLen]
  refine OpenAbove.up hLess (h.arr.length + 1)
    (h := { arr := h.arr ++ [r]
            pos := Function.update h.pos r h.arr.length })
    (Nat.le_of_eq hLen.symm) (Nat.lt_succ_self _)
    (Nat.lt_succ_self _) ⟨?_, ?_⟩
  · intro k hk hkn hne
    have hOld := hOrdered k hk (by omega)
    rw [← hOld]
    apply lessAt_congr
    · exact List.getElem?_append_left (by omega)
    · exact List.getElem?_append_left (by omega)
  · intro k hk hkn hParent _
    omega

/- Taking off the last object. -/
theorem OrderedTo.take
    (hOrdered : OrderedTo less (h.arr.length - 1) h) :
    h.take.2.Ordered less := by
  unfold Heap.take
  split
  · intro k hk hkn
    dsimp only [List.length_dropLast] at hkn
    rw [List.length_dropLast] at hkn
    have hOld := hOrdered k hk hkn
    rw [← hOld]
    apply lessAt_congr
    · dsimp only
      rw [List.getElem?_dropLast, if_pos (by omega)]
    · dsimp only
      rw [List.getElem?_dropLast, if_pos (by omega)]
  · rename_i hEmpty
    rw [List.getLast?_eq_none_iff] at hEmpty
    intro k hk hkn
    simp [hEmpty] at hkn

theorem Ordered.remove
    (hLess : StrictWeak less h.arr)
    (hOrdered : h.Ordered less)
    (hi : i < h.arr.length) :
    (h.remove less i).2.Ordered less := by
  unfold Heap.remove
  dsimp only
  split
  · apply OrderedTo.take
    intro k hk hkn
    exact hOrdered k hk (by omega)
  · rename_i hNotLast
    have hLast : h.arr.length - 1 < h.arr.length := by omega
    -- without the removed object only the moved one is open
    have hOpen :
        OpenAround less (h.arr.length - 1)
          (h.swap i (h.arr.length - 1)) i := by
      constructor
      · intro k hk hkn hne hNot
        rw [swap_lessAt hi hLast,
          Equiv.swap_apply_of_ne_of_ne hne (by omega),
          Equiv.swap_apply_of_ne_of_ne hNot (by omega)]
        exact hOrdered k hk (by omega)
      · intro k hk hkn hParent hTop
        rw [swap_lessAt hi hLast,
          Equiv.swap_apply_of_ne_of_ne (by omega) (by omega),
          Equiv.swap_apply_of_ne_of_ne (by omega) (by omega)]
        have hChild := hOrdered k hk (by omega)
        rw [hParent] at hChild
        exact lessAt_trans hLess hi hChild
          (hOrdered i hTop (by omega))
    have hLen :
        h.arr.length - 1 ≤
          (h.swap i (h.arr.length - 1)).arr.length := by
      rw [swap_length]
      omega
    have hSwap := swap_perm h i (h.arr.length - 1)
    rcases hOpen.down (hLess.sub hSwap.subset) (h.arr.length - 1) hLen
        (by omega) with
      ⟨hBelow, hAbove, hDone⟩
    have hPerm :
        ((h.swap i (h.arr.length - 1)).down less (h.arr.length - 1)
            (h.arr.length - 1) i).1.arr.Perm h.arr :=
      (down_perm _ _ _ _).trans hSwap
    have hDownLen := hPerm.length_eq
    split
    · rename_i hMoved
      apply OrderedTo.take
      rw [hDownLen]
      exact hDone (Or.inl hMoved)
    · rename_i hStayed
      apply OrderedTo.take
      rw [up_length, hDownLen]
      have hSame :
          ((h.swap i (h.arr.length - 1)).down less
            (h.arr.length - 1) (h.arr.length - 1) i).2 = i := by
        omega
      rw [hSame] at hAbove
      exact hAbove.up (hLess.sub hPerm.subset) (i + 1)
        (by rw [hDownLen]; omega) (by omega) (Nat.lt_succ_self i)

end Heap

end Lib

end Winunitd
