import Mathlib.Algebra.Order.Ring.Int

/-
  Times on two clocks.

  A time is what the wall clock shows, in nanoseconds since the
  first day of the year 1, and may carry a reading of a clock
  that is never set.  Two times that both carry a reading are
  compared by it, and all others by the wall clock.  The times
  are in order as long as the readings are in step with the
  wall clock; once that clock is set, they may come in a cycle.

  Key definitions include:
    * `Instant`, `Instant.Before`, `Instant.Same`
    * `Instant.add`, `Instant.stored`
    * `Instant.InStep`, `Instant.Onward`

  Key theorems include:
    * `Instant.add_le_iff`
    * `Instant.lt_iff_wall`
    * `Instant.Onward.wall_le`
-/

------------------------------------------------------------
-- Instants
------------------------------------------------------------

namespace Winunitd

namespace Lib

/-
  The wall times that leave room for a reading, which are those
  of 2 ^ 33 seconds from the year 1885 on.
-/
def Instant.Roomy (wall : Int) : Prop :=
  59453308800000000000 ≤ wall ∧ wall < 68043243392000000000

instance Instant.decidableRoomy (wall : Int) :
    Decidable (Instant.Roomy wall) :=
  inferInstanceAs (Decidable (_ ∧ _))

structure Instant where
  wall : Int
  mono : Option Int
  roomy : mono ≠ none → Instant.Roomy wall
deriving DecidableEq, Repr

namespace Instant

/- A time of the wall clock alone. -/
def ofWall (wall : Int) : Instant where
  wall := wall
  mono := none
  roomy := fun h => absurd rfl h

/- The time zero is no time at all. -/
instance instZero : Zero Instant :=
  ⟨ofWall 0⟩

def Before (t u : Instant) : Prop :=
  match t.mono, u.mono with
  | some m, some n => m < n
  | _, _ => t.wall < u.wall

def Same (t u : Instant) : Prop :=
  match t.mono, u.mono with
  | some m, some n => m = n
  | _, _ => t.wall = u.wall

instance decidableBefore (t u : Instant) : Decidable (Before t u) :=
  match t, u with
  | ⟨_, some m, _⟩, ⟨_, some n, _⟩ => Int.decLt m n
  | ⟨v, some _, _⟩, ⟨w, none, _⟩ => Int.decLt v w
  | ⟨v, none, _⟩, ⟨w, _, _⟩ => Int.decLt v w

instance decidableSame (t u : Instant) : Decidable (Same t u) :=
  match t, u with
  | ⟨_, some m, _⟩, ⟨_, some n, _⟩ => Int.instDecidableEq m n
  | ⟨v, some _, _⟩, ⟨w, none, _⟩ => Int.instDecidableEq v w
  | ⟨v, none, _⟩, ⟨w, _, _⟩ => Int.instDecidableEq v w

instance instLT : LT Instant :=
  ⟨Before⟩

instance instLE : LE Instant :=
  ⟨fun t u => ¬ Before u t⟩

instance decidableLT (t u : Instant) : Decidable (t < u) :=
  decidableBefore t u

instance decidableLE (t u : Instant) : Decidable (t ≤ u) :=
  inferInstanceAs (Decidable (¬ Before u t))

/- A time moved on both clocks, while there is room for that. -/
def add (t : Instant) (d : Int) : Instant :=
  if h : Roomy (t.wall + d) then
    { wall := t.wall + d
      mono := t.mono.map (fun m => m + d)
      roomy := fun _ => h }
  else ofWall (t.wall + d)

instance instHAdd : HAdd Instant Int Instant :=
  ⟨add⟩

/- What is left of a time that is written down. -/
def stored (t : Instant) : Instant :=
  ofWall t.wall

------------------------------------------------------------
-- Comparing
------------------------------------------------------------

variable {t u : Instant}

theorem lt_irrefl
    (t : Instant) :
    ¬ t < t := by
  rcases t with ⟨w, _ | m, _⟩
  · exact Int.lt_irrefl w
  · exact Int.lt_irrefl m

theorem le_refl
    (t : Instant) :
    t ≤ t :=
  lt_irrefl t

theorem ne_zero_of_roomy
    (h : Roomy t.wall) :
    t ≠ 0 := by
  rintro rfl
  exact absurd h (by decide)

theorem eq_zero_iff :
    t = 0 ↔ t.wall = 0 := by
  constructor
  · rintro rfl
    rfl
  · intro hZero
    rcases t with ⟨w, _ | m, hRoomy⟩
    · cases hZero
      rfl
    · cases hZero
      exact absurd (hRoomy nofun) (by decide)

section

variable {w : Int}

/- A time without a reading is compared by the wall. -/
theorem ofWall_le_iff :
    ofWall w ≤ t ↔ w ≤ t.wall := by
  rcases t with ⟨v, _ | m, _⟩
  · exact not_lt (a := v) (b := w)
  · exact not_lt (a := v) (b := w)

theorem le_ofWall_iff :
    t ≤ ofWall w ↔ t.wall ≤ w :=
  not_lt (a := w) (b := t.wall)

end

/- A time moved is not later than before, if not moved ahead. -/
theorem add_le_iff
    (t : Instant)
    (d : Int) :
    t + d ≤ t ↔ d ≤ 0 := by
  change ¬ Before t (t.add d) ↔ d ≤ 0
  rcases t with ⟨w, m, h⟩
  unfold add
  split
  · cases m with
    | none =>
        change ¬ w < w + d ↔ d ≤ 0
        omega
    | some m =>
        change ¬ m < m + d ↔ d ≤ 0
        omega
  · cases m with
    | none =>
        change ¬ w < w + d ↔ d ≤ 0
        omega
    | some m =>
        change ¬ w < w + d ↔ d ≤ 0
        omega

/-
  The reading of the time, if it carries one, is behind the wall
  clock by an offset.
-/
def InStep (offset : Int) (t : Instant) : Prop :=
  ∀ m ∈ t.mono, t.wall = m + offset

instance decidableInStep (offset : Int) (t : Instant) :
    Decidable (t.InStep offset) :=
  inferInstanceAs (Decidable (∀ m ∈ t.mono, t.wall = m + offset))

theorem inStep_ofWall
    (offset w : Int) :
    (ofWall w).InStep offset :=
  nofun

theorem InStep.add
    {offset : Int}
    (h : t.InStep offset)
    (d : Int) :
    (t + d).InStep offset := by
  change (t.add d).InStep offset
  unfold Instant.add
  split
  · intro n hn
    rcases Option.mem_map.mp hn with ⟨m, hm, rfl⟩
    have hWall := h m hm
    change t.wall + d = m + d + offset
    omega
  · exact inStep_ofWall offset _

theorem exists_inStep
    (t : Instant) :
    ∃ offset, t.InStep offset := by
  rcases t with ⟨w, _ | m, _⟩
  · exact ⟨0, nofun⟩
  · refine ⟨w - m, fun n hn => ?_⟩
    cases hn
    change w = m + (w - m)
    omega

section

variable {offset : Int}
variable (ht : t.InStep offset)
variable (hu : u.InStep offset)

include ht hu

/- Times in step with each other are in the order of the wall. -/
theorem lt_iff_wall :
    t < u ↔ t.wall < u.wall := by
  change Before t u ↔ _
  unfold Before
  split
  · rename_i m n hm hn
    rw [ht m hm, hu n hn]
    omega
  · rfl

theorem same_iff_wall :
    t.Same u ↔ t.wall = u.wall := by
  unfold Same
  split
  · rename_i m n hm hn
    rw [ht m hm, hu n hn]
    omega
  · rfl

end

/- The wall clock was not set back between the two readings. -/
def Onward (t u : Instant) : Prop :=
  ∀ m ∈ t.mono, ∀ n ∈ u.mono, t.wall - m ≤ u.wall - n

/- Then a time that is reached is reached on the wall clock. -/
theorem Onward.wall_le
    (h : t.Onward u)
    (hReached : t ≤ u) :
    t.wall ≤ u.wall := by
  change ¬ Before u t at hReached
  unfold Before at hReached
  split at hReached
  · rename_i n m hn hm
    have hAhead := h m hm n hn
    omega
  · omega

end Instant

end Lib

end Winunitd
