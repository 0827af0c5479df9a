import Mathlib.Data.List.Induction
import Winunitd.Core.Restart

/-
  The window of a start limit.

  An attempt is admitted if the window that ends with it has
  room, and is recorded when it is admitted.  Every window of
  the length of the interval then has at most a burst of
  admitted attempts, also one that ends between two attempts,
  and the starts that are forgotten would not have counted any
  more.

  Key definitions include:
    * `Attempts`, `Attempts.attempt`
    * `startsWithin`

  Key theorems include:
    * `Attempts.Limited.attempt`
    * `Attempts.startLimit_window`
-/

------------------------------------------------------------
-- Attempts
------------------------------------------------------------

namespace Winunitd

namespace Core

/- The recorded starts, beside all that were admitted. -/
structure Attempts where
  starts : List Int
  admitted : List Int
deriving DecidableEq, Repr

/- The starts in a closed window. -/
def startsWithin (starts : List Int) (first last : Int) : Nat :=
  starts.countP (fun t => first ≤ t ∧ t ≤ last)

namespace Attempts

variable {interval burst : Int}

def attempt
    (interval burst : Int)
    (s : Attempts)
    (now : Int) : Attempts :=
  if startLimitHit s.starts now interval burst then s
  else
    { starts := recordStart s.starts now interval burst
      admitted := s.admitted ++ [now] }

def run (interval burst : Int) (times : List Int) : Attempts :=
  times.foldl (attempt interval burst) ⟨[], []⟩

theorem run_snoc
    (interval burst : Int)
    (times : List Int)
    (now : Int) :
    run interval burst (times ++ [now]) =
      (run interval burst times).attempt interval burst now := by
  unfold run
  rw [List.foldl_append]
  rfl

/- Attempts against a record that forgets nothing. -/
def attemptUnpruned
    (interval burst : Int)
    (starts : List Int)
    (now : Int) : List Int :=
  if startLimitHit starts now interval burst then starts
  else starts ++ [now]

------------------------------------------------------------
-- The Window
------------------------------------------------------------

/-
  After attempts up to some time: from then on the record
  counts what the whole history counts, and no window has more
  than a burst of starts.
-/
structure Limited
    (interval burst : Int)
    (s : Attempts)
    (now : Int) : Prop where
  past : ∀ t ∈ s.admitted, t ≤ now
  recorded :
    ∀ later, now ≤ later →
      s.starts.filter (fun t => later - interval ≤ t) =
        s.admitted.filter (fun t => later - interval ≤ t)
  window :
    ∀ first, startsWithin s.admitted first (first + interval) ≤ burst

theorem startLimitHit_iff
    (hInterval : 0 < interval)
    (hBurst : 0 < burst)
    (starts : List Int)
    (now : Int) :
    startLimitHit starts now interval burst = true ↔
      burst ≤ countStartsInWindow starts now interval := by
  have hOn : startLimitDisabled interval burst = false := by
    simp [startLimitDisabled, hInterval, hBurst]
  simp [startLimitHit, hOn]

namespace Limited

variable {s : Attempts}
variable {now later : Int}

section

variable (h : Limited interval burst s now)

include h

theorem mono
    (hLe : now ≤ later) :
    Limited interval burst s later where
  past := fun t ht => (h.past t ht).trans hLe
  recorded := fun t ht => h.recorded t (hLe.trans ht)
  window := h.window

/- What is forgotten does not count. -/
theorem count_eq :
    countStartsInWindow s.starts now interval =
      startsWithin s.admitted (now - interval) now := by
  unfold countStartsInWindow startsWithin
  rw [h.recorded now le_rfl, ← List.countP_eq_length_filter]
  apply List.countP_congr
  intro t ht
  simp [h.past t ht]

theorem hit_eq :
    startLimitHit s.starts now interval burst =
      startLimitHit s.admitted now interval burst := by
  unfold startLimitHit countStartsInWindow
  rw [h.recorded now le_rfl]

/- One attempt keeps the window. -/
theorem attempt
    (hInterval : 0 < interval)
    (hBurst : 0 < burst) :
    Limited interval burst (s.attempt interval burst now) now := by
  have hOn : startLimitDisabled interval burst = false := by
    simp [startLimitDisabled, hInterval, hBurst]
  unfold Attempts.attempt
  split
  · exact h
  rename_i hHit
  rw [startLimitHit_iff hInterval hBurst, h.count_eq] at hHit
  refine ⟨?_, ?_, ?_⟩
  · intro t ht
    rcases List.mem_append.mp ht with hOld | hNew
    · exact h.past t hOld
    · exact (List.mem_singleton.mp hNew).le
  · intro later hLater
    -- what was dropped now is out of every later window as well
    have hDropped :
        (s.starts.filter (fun t => now - interval ≤ t)).filter
            (fun t => later - interval ≤ t) =
          s.starts.filter (fun t => later - interval ≤ t) := by
      rw [List.filter_filter]
      apply List.filter_congr
      intro t _
      simp
      omega
    simp only [recordStart, hOn, Bool.false_eq_true, ↓reduceIte,
      List.filter_append, hDropped, h.recorded later hLater]
  · intro first
    have hOld := h.window first
    unfold startsWithin at hHit hOld ⊢
    rw [List.countP_append, List.countP_singleton]
    by_cases hIn : first ≤ now ∧ now ≤ first + interval
    · -- the window is part of the one that ends now
      have hPart :
          s.admitted.countP
              (fun t => first ≤ t ∧ t ≤ first + interval) ≤
            s.admitted.countP
              (fun t => now - interval ≤ t ∧ t ≤ now) := by
        apply List.countP_mono_left
        intro t ht hWithin
        have hPast := h.past t ht
        simp only [decide_eq_true_eq] at hWithin ⊢
        omega
      simp only [hIn, and_self, decide_true, ↓reduceIte]
      omega
    · simp only [hIn, decide_false, Bool.false_eq_true, ↓reduceIte]
      exact hOld

end

end Limited

variable {times : List Int}

/- A run keeps the window, up to its last attempt. -/
theorem limited_run
    (hInterval : 0 < interval)
    (hBurst : 0 < burst)
    (hOrder : times.Pairwise (· ≤ ·))
    {now : Int}
    (hNow : ∀ t ∈ times, t ≤ now) :
    Limited interval burst (run interval burst times) now := by
  induction times using List.reverseRecOn generalizing now with
  | nil =>
      refine ⟨?_, fun _ _ => rfl, fun _ => hBurst.le⟩
      exact nofun
  | append_singleton times last ih =>
      rw [List.pairwise_append] at hOrder
      have hBefore : ∀ t ∈ times, t ≤ last :=
        fun t ht => hOrder.2.2 t ht last (List.mem_singleton_self _)
      have hLast : last ≤ now :=
        hNow last (List.mem_append_right _ (List.mem_singleton_self _))
      rw [run_snoc]
      exact ((ih hOrder.1 hBefore).attempt hInterval hBurst).mono hLast

/- Forgetting does not change what is admitted. -/
theorem admitted_run
    (hInterval : 0 < interval)
    (hBurst : 0 < burst)
    (hOrder : times.Pairwise (· ≤ ·)) :
    (run interval burst times).admitted =
      times.foldl (attemptUnpruned interval burst) [] := by
  induction times using List.reverseRecOn with
  | nil => rfl
  | append_singleton times last ih =>
      rw [List.pairwise_append] at hOrder
      have hBefore : ∀ t ∈ times, t ≤ last :=
        fun t ht => hOrder.2.2 t ht last (List.mem_singleton_self _)
      have hLimited :=
        limited_run hInterval hBurst hOrder.1 hBefore
      have hStep :
          (run interval burst (times ++ [last])).admitted =
            attemptUnpruned interval burst
              (run interval burst times).admitted last := by
        rw [run_snoc]
        unfold attempt attemptUnpruned
        rw [hLimited.hit_eq]
        split <;> rfl
      rw [hStep, ih hOrder.1, List.foldl_append]
      rfl

/-
  Attempts at times that do not go back: no closed window of
  the interval has more than a burst of admitted attempts, an
  attempt is refused only if the window that ends with it has a
  burst of them, and each decision is that of a record that
  forgets nothing.
-/
theorem startLimit_window
    (hInterval : 0 < interval)
    (hBurst : 0 < burst)
    {times : List Int}
    (hOrder : times.Pairwise (· ≤ ·)) :
    (∀ first,
      startsWithin (run interval burst times).admitted first
        (first + interval) ≤ burst) ∧
      (∀ before now after, times = before ++ now :: after →
        startLimitHit (run interval burst before).starts now interval
          burst = true →
        burst ≤
          startsWithin (run interval burst before).admitted
            (now - interval) now) ∧
      (∀ before now after, times = before ++ now :: after →
        startLimitHit (run interval burst before).starts now interval
            burst =
          startLimitHit
            (before.foldl (attemptUnpruned interval burst) []) now
            interval burst) ∧
      (run interval burst times).admitted =
        times.foldl (attemptUnpruned interval burst) [] := by
  -- the attempts before one of them are limited up to it
  have hSplit :
      ∀ before now after, times = before ++ now :: after →
        before.Pairwise (· ≤ ·) ∧
          Limited interval burst (run interval burst before) now := by
    rintro before now after rfl
    rw [List.pairwise_append] at hOrder
    refine ⟨hOrder.1, limited_run hInterval hBurst hOrder.1 ?_⟩
    exact fun t ht => hOrder.2.2 t ht now List.mem_cons_self
  refine ⟨?_, ?_, ?_, admitted_run hInterval hBurst hOrder⟩
  · have hLimited :
        ∃ now, Limited interval burst (run interval burst times) now := by
      rcases times.eq_nil_or_concat with rfl | ⟨before, last, rfl⟩
      · exact ⟨0, limited_run hInterval hBurst hOrder (by simp)⟩
      · refine ⟨last, limited_run hInterval hBurst hOrder ?_⟩
        intro t ht
        rw [List.concat_eq_append, List.pairwise_append] at hOrder
        rw [List.concat_eq_append, List.mem_append] at ht
        rcases ht with ht | ht
        · exact hOrder.2.2 t ht last (List.mem_singleton_self _)
        · exact (List.mem_singleton.mp ht).le
    exact hLimited.choose_spec.window
  · intro before now after hTimes hHit
    have hLimited := (hSplit before now after hTimes).2
    rw [startLimitHit_iff hInterval hBurst, hLimited.count_eq] at hHit
    exact hHit
  · intro before now after hTimes
    rcases hSplit before now after hTimes with ⟨hBefore, hLimited⟩
    rw [hLimited.hit_eq, admitted_run hInterval hBurst hBefore]

/- Five attempts at a limit of two in ten. -/
theorem startLimit_window_burst :
    (run 10 2 [0, 4, 9, 10, 11]).admitted = [0, 4, 11] ∧
      ∀ first,
        startsWithin (run 10 2 [0, 4, 9, 10, 11]).admitted first
          (first + 10) ≤ (2 : Int) :=
  ⟨by decide,
    (@startLimit_window 10 2 (by decide) (by decide)
      [0, 4, 9, 10, 11] (by decide)).1⟩

end Attempts

end Core

end Winunitd
