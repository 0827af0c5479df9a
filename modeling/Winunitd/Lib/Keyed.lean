import Mathlib.Data.List.Basic
import Mathlib.Data.List.Nodup
import Mathlib.Data.List.Perm.Basic

/-
  Lists whose elements have distinct keys.

  Such a list is a finite map that remembers the order in
  which its elements were added.  Up to that order, finding
  an element splits it from the others, and changing it
  changes nothing else.

  Key definitions include:
    * `Keyed.find`
    * `Keyed.modify`
    * `Keyed.remove`

  Key theorems include:
    * `Keyed.perm_remove`
    * `Keyed.perm_modify`
    * `Keyed.flatMap_modify`
    * `Keyed.nodup_modify`
    * `Keyed.find_modify_self`, `Keyed.find_modify_ne`
-/

------------------------------------------------------------
-- Operations
------------------------------------------------------------

namespace Winunitd

namespace Lib

namespace Keyed

variable {α K : Type}
variable [DecidableEq K]
variable {key : α → K}

/- The element with a key. -/
def find (key : α → K) (k : K) (xs : List α) : Option α :=
  xs.find? (fun x => key x = k)

/- Change the element with a key. -/
def modify
    (key : α → K)
    (k : K)
    (f : α → α)
    (xs : List α) :
    List α :=
  xs.map (fun x => if key x = k then f x else x)

/- Remove the element with a key. -/
def remove (key : α → K) (k : K) (xs : List α) : List α :=
  xs.filter (fun x => key x ≠ k)

------------------------------------------------------------
-- One Element And The Others
------------------------------------------------------------

variable {xs : List α}
variable {k : K}
variable {a : α}

theorem mem_of_find
    (h : find key k xs = some a) :
    a ∈ xs :=
  List.mem_of_find?_eq_some h

theorem key_of_find
    (h : find key k xs = some a) :
    key a = k := by
  simpa using List.find?_some h

theorem find_eq_none_iff :
    find key k xs = none ↔ k ∉ xs.map key := by
  simp [find]

/- A listed element is found by its key. -/
theorem find_of_mem
    (hKeys : (xs.map key).Nodup)
    (ha : a ∈ xs) :
    find key (key a) xs = some a := by
  induction xs with
  | nil => simp at ha
  | cons x xs ih =>
      rw [List.map_cons, List.nodup_cons] at hKeys
      unfold find
      rw [List.find?_cons]
      rcases List.mem_cons.mp ha with rfl | hTail
      · simp
      · have hNe : key x ≠ key a := by
          intro hEq
          exact hKeys.1 (hEq ▸ List.mem_map_of_mem hTail)
        simp only [hNe, decide_false]
        exact ih hKeys.2 hTail

variable {f : α → α}

omit [DecidableEq K] in
/- Where no element has the key, nothing is changed. -/
theorem map_eq_self
    (h : ∀ x ∈ xs, f x = x) :
    xs.map f = xs := by
  rw [List.map_congr_left h, List.map_id']

theorem modify_of_not_mem
    (h : k ∉ xs.map key) :
    modify key k f xs = xs := by
  apply map_eq_self
  intro x hx
  rw [if_neg]
  intro hEq
  exact h (hEq ▸ List.mem_map_of_mem hx)

theorem remove_of_not_mem
    (h : k ∉ xs.map key) :
    remove key k xs = xs := by
  apply List.filter_eq_self.mpr
  intro x hx
  simp only [decide_eq_true_eq]
  intro hEq
  exact h (hEq ▸ List.mem_map_of_mem hx)

/- The changed element stands next to the others. -/
theorem perm_modify
    (hKeys : (xs.map key).Nodup)
    (h : find key k xs = some a)
    (f : α → α) :
    (modify key k f xs).Perm (f a :: remove key k xs) := by
  induction xs with
  | nil => simp [find] at h
  | cons x xs ih =>
      rw [List.map_cons, List.nodup_cons] at hKeys
      unfold find at h
      rw [List.find?_cons] at h
      by_cases hx : key x = k
      · simp only [hx, decide_true, Option.some.injEq] at h
        subst h
        have hNot : k ∉ xs.map key := hx ▸ hKeys.1
        have hModify : modify key k f (x :: xs) = f x :: xs := by
          have hTail := modify_of_not_mem (f := f) hNot
          unfold modify at hTail ⊢
          rw [List.map_cons, if_pos hx, hTail]
        have hRemove : remove key k (x :: xs) = xs := by
          have hTail := remove_of_not_mem hNot
          unfold remove at hTail ⊢
          rw [List.filter_cons, if_neg (by simpa using hx), hTail]
        rw [hModify, hRemove]
      · simp only [hx, decide_false] at h
        have hModify :
            modify key k f (x :: xs) = x :: modify key k f xs := by
          unfold modify
          rw [List.map_cons, if_neg hx]
        have hRemove :
            remove key k (x :: xs) = x :: remove key k xs := by
          unfold remove
          rw [List.filter_cons, if_pos (by simpa using hx)]
        rw [hModify, hRemove]
        exact ((ih hKeys.2 h).cons x).trans (List.Perm.swap _ _ _)

theorem perm_remove
    (hKeys : (xs.map key).Nodup)
    (h : find key k xs = some a) :
    xs.Perm (a :: remove key k xs) := by
  have hSame : modify key k id xs = xs := by
    apply map_eq_self
    intro x _
    split <;> rfl
  have hPerm := perm_modify hKeys h id
  rw [hSame] at hPerm
  exact hPerm

/- What one element gains or loses, a concatenation does. -/
theorem flatMap_modify
    {β : Type}
    {g : α → List β}
    (gain loss : List β)
    (hKeys : (xs.map key).Nodup)
    (hFind : find key k xs = some a)
    (h : (gain ++ g a).Perm (loss ++ g (f a))) :
    (gain ++ xs.flatMap g).Perm
      (loss ++ (modify key k f xs).flatMap g) := by
  have hOld := (perm_remove hKeys hFind).flatMap_right g
  have hNew := (perm_modify hKeys hFind f).flatMap_right g
  refine (hOld.append_left gain).trans ?_
  refine List.Perm.trans ?_ (hNew.symm.append_left loss)
  rw [List.flatMap_cons, List.flatMap_cons, ← List.append_assoc,
    ← List.append_assoc]
  exact h.append_right _

/- A change outside the concatenated parts does not show. -/
theorem flatMap_modify_eq
    {β : Type}
    {g : α → List β}
    (hf : ∀ x ∈ xs, key x = k → g (f x) = g x) :
    (modify key k f xs).flatMap g = xs.flatMap g := by
  unfold modify
  rw [List.flatMap_map]
  apply List.flatMap_congr
  intro x hx
  split
  · rename_i hk
    exact hf x hx hk
  · rfl

theorem map_key_modify
    (hf : ∀ x, key x = k → key (f x) = k) :
    (modify key k f xs).map key = xs.map key := by
  unfold modify
  rw [List.map_map]
  apply List.map_congr_left
  intro x _
  simp only [Function.comp_apply]
  split
  · rename_i hk
    rw [hf x hk, hk]
  · rfl

/- A change that keeps keys keeps them distinct. -/
theorem nodup_modify
    (hf : ∀ x, key (f x) = key x)
    (hKeys : (xs.map key).Nodup) :
    ((modify key k f xs).map key).Nodup := by
  rw [map_key_modify (fun x hk => (hf x).trans hk)]
  exact hKeys

/- A change keeps what holds of old and changed elements. -/
theorem forall_modify
    {P : α → Prop}
    (h : ∀ x ∈ xs, P x)
    (hf : ∀ x ∈ xs, key x = k → P (f x)) :
    ∀ x ∈ modify key k f xs, P x := by
  intro y hy
  rcases List.mem_map.mp hy with ⟨x, hx, rfl⟩
  split
  · rename_i hk
    exact hf x hx hk
  · exact h x hx

------------------------------------------------------------
-- Finding After A Change
------------------------------------------------------------

theorem find_modify_self
    (hf : ∀ x, key x = k → key (f x) = k)
    (xs : List α) :
    find key k (modify key k f xs) = (find key k xs).map f := by
  induction xs with
  | nil => rfl
  | cons x xs ih =>
      unfold find modify at ih ⊢
      rw [List.map_cons, List.find?_cons, List.find?_cons]
      by_cases hx : key x = k
      · simp [hx, hf x hx]
      · simpa [hx] using ih

theorem find_modify_ne
    {k k' : K}
    (hf : ∀ x, key x = k → key (f x) = k)
    (hNe : k' ≠ k)
    (xs : List α) :
    find key k' (modify key k f xs) = find key k' xs := by
  induction xs with
  | nil => rfl
  | cons x xs ih =>
      unfold find modify at ih ⊢
      rw [List.map_cons, List.find?_cons, List.find?_cons]
      by_cases hx : key x = k
      · have hKey : key x ≠ k' := by
          rw [hx]
          exact Ne.symm hNe
        have hChanged : key (f x) ≠ k' := by
          rw [hf x hx]
          exact Ne.symm hNe
        rw [if_pos hx]
        simp only [hChanged, hKey, decide_false]
        exact ih
      · rw [if_neg hx, ih]

theorem find_remove_self
    (k : K)
    (xs : List α) :
    find key k (remove key k xs) = none := by
  rw [find_eq_none_iff]
  simp [remove]

theorem find_remove_ne
    {k k' : K}
    (hNe : k' ≠ k)
    (xs : List α) :
    find key k' (remove key k xs) = find key k' xs := by
  unfold find remove
  rw [List.find?_filter]
  congr 1
  funext x
  by_cases hx : key x = k'
  · simp [hx, hNe]
  · simp [hx]

end Keyed

end Lib

end Winunitd
