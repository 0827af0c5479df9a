import Mathlib.Algebra.Order.Ring.Int
import Mathlib.Data.List.AList

/-
  Finite maps.

  A table is an association list with distinct keys.  Two
  tables agree when they map every key alike, whatever the
  order in which their entries were added.

  Key definitions include:
    * `Table`
    * `Table.size`
    * `Table.eraseAll`
    * `Table.agrees`

  Key theorems include:
    * `Table.lookup_eraseAll`
    * `Table.size_insert_le`
-/

------------------------------------------------------------
-- Tables
------------------------------------------------------------

namespace Winunitd

namespace Lib

/- A finite map from `K` to `V`. -/
abbrev Table (K V : Type) := AList (fun _ : K => V)

namespace Table

variable {K V : Type}

/- The number of entries. -/
def size (m : Table K V) : Nat :=
  m.keys.length

variable [DecidableEq K]

/- Delete several keys. -/
def eraseAll (ks : List K) (m : Table K V) : Table K V :=
  ks.foldl (fun m k => m.erase k) m

/- Delete every key that fails a test. -/
def keep (p : K → V → Bool) (m : Table K V) : Table K V :=
  eraseAll
    (m.keys.filter (fun k => (m.lookup k).any (fun v => !p k v)))
    m

/- The tables map every key alike. -/
def agrees [DecidableEq V] (m n : Table K V) : Bool :=
  (m.keys ++ n.keys).all (fun k => m.lookup k = n.lookup k)

------------------------------------------------------------
-- Entries After A Change
------------------------------------------------------------

theorem lookup_eraseAll
    (ks : List K)
    (m : Table K V)
    (k : K) :
    (eraseAll ks m).lookup k =
      if k ∈ ks then none else m.lookup k := by
  unfold eraseAll
  induction ks generalizing m with
  | nil => simp
  | cons j ks ih =>
      rw [List.foldl_cons, ih]
      by_cases hTail : k ∈ ks
      · simp [hTail]
      · by_cases hEq : k = j
        · subst hEq
          simp [hTail]
        · simp [hTail, hEq, AList.lookup_erase_ne]

theorem lookup_keep
    (p : K → V → Bool)
    (m : Table K V)
    (k : K) :
    (keep p m).lookup k = (m.lookup k).filter (p k) := by
  unfold keep
  rw [lookup_eraseAll]
  cases hLook : m.lookup k with
  | none => simp
  | some v =>
      have hKey : k ∈ m.keys := by
        rw [← AList.mem_keys, ← AList.lookup_isSome, hLook]
        rfl
      cases hp : p k v <;> simp [hKey, hLook, hp, Option.filter]

------------------------------------------------------------
-- Sizes
------------------------------------------------------------

theorem size_insert_mem
    {m : Table K V}
    {k : K}
    (v : V)
    (h : k ∈ m) :
    size (m.insert k v) = size m := by
  unfold size
  have hPos : 0 < m.keys.length := List.length_pos_of_mem h
  rw [AList.keys_insert, List.length_cons,
    List.length_erase_of_mem h]
  omega

theorem size_insert_le
    (m : Table K V)
    (k : K)
    (v : V) :
    size (m.insert k v) ≤ size m + 1 := by
  unfold size
  have hLe := (List.erase_sublist (a := k) (l := m.keys)).length_le
  rw [AList.keys_insert, List.length_cons]
  omega

theorem size_erase_le
    (m : Table K V)
    (k : K) :
    size (m.erase k) ≤ size m := by
  unfold size
  rw [AList.keys_erase]
  exact List.erase_sublist.length_le

end Table

end Lib

end Winunitd
