import Mathlib.Algebra.Order.Ring.Int

/-
  Start limits and the back-off of restarts.

  Key definitions include:
    * `startLimitHit`, `recordStart`
    * `cappedRestartDelay`

  Key theorems include:
    * `restartDelay_exact`
-/

------------------------------------------------------------
-- Start Limits
------------------------------------------------------------

namespace Winunitd

namespace Core

/- A burst or interval that is not positive sets no limit. -/
def startLimitDisabled (interval burst : Int) : Bool :=
  burst ≤ 0 || interval ≤ 0

def countStartsInWindow
    (starts : List Int)
    (now interval : Int) : Nat :=
  (starts.filter (fun t => now - interval ≤ t)).length

/- The window that ends now already has `burst` starts. -/
def startLimitHit
    (starts : List Int)
    (now interval burst : Int) : Bool :=
  if startLimitDisabled interval burst then false
  else burst ≤ countStartsInWindow starts now interval

/- Append a start and forget those older than the window. -/
def recordStart
    (starts : List Int)
    (now interval burst : Int) : List Int :=
  if startLimitDisabled interval burst then []
  else
    starts.filter (fun t => now - interval ≤ t) ++ [now]

------------------------------------------------------------
-- Restart Back-off
------------------------------------------------------------

/-
  The loop over `attempt`: the delays it doubles, in order,
  and the delay it ends with.
-/
def doubleDelay (cap : Int64) : Nat → Int64 → List Int64 × Int64
| 0, base => ([], min base cap)
| attempt + 1, base =>
    if base < cap then
      if cap / 2 < base then ([], cap)
      else
        let rest := doubleDelay cap attempt (base * 2)
        (base :: rest.1, rest.2)
    else ([], min base cap)

/-
  The delay before recovery number `attempt`: doubled once
  for each attempt, up to the cap.
-/
def cappedRestartDelay (base cap : Int64) (attempt : UInt32) : Int64 :=
  if base ≤ 0 ∨ cap ≤ 0 then base
  else (doubleDelay cap attempt.toNat base).2

variable {base cap : Int64}

theorem toInt_min (a b : Int64) :
    (min a b).toInt = min a.toInt b.toInt := by
  show (if a ≤ b then a else b).toInt = _
  simp only [apply_ite Int64.toInt, Int64.le_iff_toInt_le, Int.min_def]

theorem toInt_half (hCap : 0 < cap.toInt) :
    (cap / 2).toInt = cap.toInt / 2 := by
  rw [Int64.toInt_div_of_ne_right _ _ (by decide),
    Int.tdiv_eq_ediv_of_nonneg hCap.le]
  rfl

/- A delay within half of the cap is doubled without overflow. -/
theorem toInt_double
    (hBase : 0 < base.toInt)
    (hHalf : base.toInt ≤ cap.toInt / 2) :
    (base * 2).toInt = base.toInt * 2 := by
  have hLimit := cap.toInt_lt
  rw [Int64.toInt_mul]
  apply Int.bmod_eq_of_le
  · show -(2 ^ 64 / 2) ≤ base.toInt * 2
    omega
  · show base.toInt * 2 < (2 ^ 64 + 1) / 2
    omega

theorem le_mul_two_pow
    {b : Int}
    (hb : 0 < b)
    (n : Nat) :
    b ≤ b * 2 ^ n := by
  have hOne : (1 : Int) ≤ 2 ^ n := Int.pow_pos (by decide)
  simpa using Int.mul_le_mul_of_nonneg_left hOne hb.le

/-
  The loop ends with the capped power, and its products stay
  below `2 ^ 63`.
-/
theorem doubleDelay_exact
    (attempt : Nat)
    (hBase : 0 < base.toInt)
    (hCap : 0 < cap.toInt) :
    (doubleDelay cap attempt base).2.toInt =
        min cap.toInt (base.toInt * 2 ^ attempt) ∧
      ∀ d ∈ (doubleDelay cap attempt base).1,
        0 < d.toInt * 2 ∧ d.toInt * 2 < 2 ^ 63 := by
  have hLimit := cap.toInt_lt
  fun_induction doubleDelay cap attempt base with
  | case1 base =>
      rw [toInt_min, Int.pow_zero, Int.mul_one, Int.min_comm]
      exact ⟨rfl, nofun⟩
  | case2 attempt base hBelow hHalf =>
      rw [Int64.lt_iff_toInt_lt, toInt_half hCap] at hHalf
      have hGrow := le_mul_two_pow hBase attempt
      refine ⟨(Int.min_eq_left (a := cap.toInt) ?_).symm, nofun⟩
      rw [Nat.succ_eq_add_one, Int.pow_succ, ← Int.mul_assoc]
      omega
  | case3 attempt base hBelow hHalf rest ih =>
      rw [Int64.lt_iff_toInt_lt, toInt_half hCap, Int.not_lt] at hHalf
      have hDouble := toInt_double hBase hHalf
      rw [hDouble] at ih
      rcases ih (by omega) with ⟨hRest, hProducts⟩
      rw [Nat.succ_eq_add_one, Int.pow_succ', ← Int.mul_assoc]
      exact ⟨hRest, List.forall_mem_cons.mpr ⟨by omega, hProducts⟩⟩
  | case4 attempt base hAbove =>
      rw [Int64.lt_iff_toInt_lt] at hAbove
      have hGrow := le_mul_two_pow hBase attempt.succ
      rw [toInt_min, Int.min_eq_right (by omega)]
      exact ⟨(Int.min_eq_left (by omega)).symm, nofun⟩

/-
  The restart delay is the base doubled once for each attempt,
  or the cap where that is smaller; no product on the way
  leaves the range of a 64-bit duration, and a later attempt
  never waits less.
-/
theorem restartDelay_exact
    {base cap : Int64}
    (hBase : 0 < base)
    (hCap : 0 < cap)
    (attempt : UInt32) :
    (cappedRestartDelay base cap attempt).toInt =
        min cap.toInt (base.toInt * 2 ^ attempt.toNat) ∧
      (∀ d ∈ (doubleDelay cap attempt.toNat base).1,
        0 < d.toInt * 2 ∧ d.toInt * 2 < 2 ^ 63) ∧
      ∀ later, attempt ≤ later →
        cappedRestartDelay base cap attempt ≤
          cappedRestartDelay base cap later := by
  rw [Int64.lt_iff_toInt_lt] at hBase hCap
  have hValue : ∀ n : UInt32,
      (cappedRestartDelay base cap n).toInt =
        min cap.toInt (base.toInt * 2 ^ n.toNat) := by
    intro n
    rw [cappedRestartDelay, if_neg, (doubleDelay_exact _ hBase hCap).1]
    rw [Int64.le_iff_toInt_le, Int64.le_iff_toInt_le]
    omega
  refine ⟨hValue attempt, (doubleDelay_exact _ hBase hCap).2, ?_⟩
  intro later hLater
  have hPos : 0 < base.toInt * 2 ^ attempt.toNat :=
    Int.mul_pos hBase (Int.pow_pos (by decide))
  have hGrow := le_mul_two_pow hPos (later.toNat - attempt.toNat)
  rw [Int.mul_assoc, ← Int.pow_add,
    Nat.add_sub_cancel' (UInt32.le_iff_toNat_le.mp hLater)] at hGrow
  rw [Int64.le_iff_toInt_le, hValue, hValue]
  omega

/- One second, capped at a minute, after three attempts and ten. -/
theorem restartDelay_exact_seconds :
    cappedRestartDelay 1000000000 60000000000 3 = 8000000000 ∧
      cappedRestartDelay 1000000000 60000000000 3 ≤
        cappedRestartDelay 1000000000 60000000000 10 :=
  ⟨by decide,
    (restartDelay_exact (by decide) (by decide) 3).2.2 10 (by decide)⟩

end Core

end Winunitd
