import Mathlib.Logic.Relation
import Mathlib.Data.List.Induction

/-
  Labelled transition systems given by a partial step
  function.

  A system has an initial-state predicate and a step
  function that is undefined where a label is not enabled.
  `Path C` is a finite run all of whose steps meet the step
  condition `C`; plain reachability is the case in which `C`
  asks nothing.  `run` executes an explicit list of labels,
  so that a concrete run can be evaluated.

  Key definitions include:
    * `System`
    * `System.run`
    * `System.Path`
    * `System.Reachable`
    * `System.ReachableWhere`
    * `System.Inevitable`

  Key theorems include:
    * `System.path_invariant`
    * `System.reachable_invariant`
    * `System.run_invariant`
    * `System.inevitable_of_measure`
    * `System.reachable_of_run`
-/

------------------------------------------------------------
-- Systems And Runs
------------------------------------------------------------

namespace Winunitd

namespace Lib

/-
  A transition system over states `S` and labels `L`.
-/
structure System (S L : Type) where
  init : S → Prop
  step : S → L → Option S

namespace System

variable {S L : Type}
variable (M : System S L)

/- Execute a list of labels from a state. -/
def run (s : S) : List L → Option S
| [] => some s
| l :: ls =>
    match M.step s l with
    | none => none
    | some t => run t ls

/-
  Every step that the labels take from a state meets `C` on
  the state before the step and the label taken there.
-/
def Meets (C : S → L → Prop) (s : S) : List L → Prop
| [] => True
| l :: ls =>
    C s l ∧ ∀ t, M.step s l = some t → Meets C t ls

instance Meets.decidable
    {C : S → L → Prop}
    [∀ s l, Decidable (C s l)] :
    ∀ (s : S) (ls : List L), Decidable (M.Meets C s ls)
| _, [] => isTrue trivial
| s, l :: ls =>
    haveI : Decidable (∀ t, M.step s l = some t → M.Meets C t ls) :=
      match M.step s l with
      | none => isTrue nofun
      | some u =>
          match Meets.decidable u ls with
          | isTrue h => isTrue (fun _ hu => Option.some.inj hu ▸ h)
          | isFalse h => isFalse (fun hAll => h (hAll u rfl))
    inferInstanceAs (Decidable (_ ∧ _))

/-
  A finite run whose every step meets the condition `C` on
  the state before the step and the label taken there.
-/
inductive Path (C : S → L → Prop) : S → S → Prop where
| refl (s : S) : Path C s s
| tail {s t u : S} {l : L} :
    Path C s t → C t l → M.step t l = some u → Path C s u

/- States reached by runs that meet `C` at every step. -/
def ReachableWhere (C : S → L → Prop) (s : S) : Prop :=
  ∃ s₀ : S, M.init s₀ ∧ M.Path C s₀ s

/- States reached by any run. -/
def Reachable (s : S) : Prop :=
  M.ReachableWhere (fun _ _ => True) s

/-
  Every run from here whose steps meet `C`, and that goes on
  while such a step is enabled, comes to a state in `P`.
-/
inductive Inevitable
    (C : S → L → Prop)
    (P : S → Prop) : S → Prop where
| here {s : S} : P s → Inevitable C P s
| next {s : S} :
    (∃ l t, C s l ∧ M.step s l = some t) →
    (∀ l t, C s l → M.step s l = some t → Inevitable C P t) →
    Inevitable C P s

------------------------------------------------------------
-- Invariant Rules
------------------------------------------------------------

variable {M}

variable {C : S → L → Prop}
variable {s t : S}
variable {I : S → Prop}

/- A property kept by every admitted step holds along a run. -/
theorem path_invariant
    (hStep :
      ∀ s l t, I s → C s l → M.step s l = some t → I t)
    (hPath : M.Path C s t)
    (hs : I s) :
    I t := by
  induction hPath with
  | refl => exact hs
  | tail _ hC hNext ih => exact hStep _ _ _ ih hC hNext

/- Runs compose. -/
theorem Path.trans
    {s t u : S}
    (hst : M.Path C s t)
    (htu : M.Path C t u) :
    M.Path C s u := by
  induction htu with
  | refl => exact hst
  | tail _ hC hNext ih => exact .tail ih hC hNext

/- A weaker step condition admits the same run. -/
theorem Path.mono
    {C D : S → L → Prop}
    (hCD : ∀ s l, C s l → D s l)
    (h : M.Path C s t) :
    M.Path D s t := by
  induction h with
  | refl => exact .refl _
  | tail _ hC hNext ih => exact .tail ih (hCD _ _ hC) hNext

/- Conditional reachability implies plain reachability. -/
theorem ReachableWhere.reachable
    {s : S}
    (h : M.ReachableWhere C s) :
    M.Reachable s := by
  rcases h with ⟨s₀, hInit, hPath⟩
  exact ⟨s₀, hInit, hPath.mono (fun _ _ _ => trivial)⟩

/-
  Invariant rule for conditional runs: the step case may use
  that the state before the step is reachable.
-/
theorem reachableWhere_invariant
    (hInit : ∀ s, M.init s → I s)
    (hStep :
      ∀ s l t, M.ReachableWhere C s → I s → C s l →
        M.step s l = some t → I t)
    {s : S}
    (hs : M.ReachableWhere C s) :
    I s := by
  rcases hs with ⟨s₀, h₀, hPath⟩
  induction hPath with
  | refl => exact hInit _ h₀
  | tail hPre hC hNext ih =>
      exact hStep _ _ _ ⟨s₀, h₀, hPre⟩ ih hC hNext

/- Invariant rule for all runs. -/
theorem reachable_invariant
    (hInit : ∀ s, M.init s → I s)
    (hStep :
      ∀ s l t, M.Reachable s → I s →
        M.step s l = some t → I t)
    {s : S}
    (hs : M.Reachable s) :
    I s :=
  reachableWhere_invariant hInit
    (fun s l t hr hI _ hNext => hStep s l t hr hI hNext) hs

/- One more step stays reachable. -/
theorem Reachable.step
    {l : L}
    (hs : M.Reachable s)
    (h : M.step s l = some t) :
    M.Reachable t := by
  rcases hs with ⟨s₀, hInit, hPath⟩
  exact ⟨s₀, hInit, .tail hPath trivial h⟩

/- An executed label list is a run. -/
theorem path_of_meets
    {ls : List L}
    (hMeets : M.Meets C s ls)
    (h : M.run s ls = some t) :
    M.Path C s t := by
  induction ls generalizing s with
  | nil =>
      cases h
      exact .refl _
  | cons l ls ih =>
      simp only [run] at h
      cases hNext : M.step s l with
      | none => simp [hNext] at h
      | some u =>
          rw [hNext] at h
          have hOne : M.Path C s u :=
            .tail (.refl s) hMeets.1 hNext
          exact hOne.trans (ih (hMeets.2 u hNext) h)

/-
  A run meets `C` or comes to `Q`, if no step leaves `Q` and
  every step against `C` leads there.
-/
theorem meets_or
    {Q : S → Prop}
    {ls : List L}
    (hStep :
      ∀ s l t, M.Reachable s → Q s ∨ ¬ C s l →
        M.step s l = some t → Q t)
    (hs : M.Reachable s)
    (h : M.run s ls = some t) :
    M.Meets C s ls ∨ Q t := by
  have hBoth : (Q s → Q t) ∧ (M.Meets C s ls ∨ Q t) := by
    induction ls generalizing s with
    | nil =>
        cases h
        exact ⟨id, Or.inl trivial⟩
    | cons l ls ih =>
        simp only [run] at h
        split at h
        · cases h
        rename_i u hNext
        rcases ih (hs.step hNext) h with ⟨hKeep, hRest⟩
        refine
          ⟨fun hQ => hKeep (hStep s l u hs (Or.inl hQ) hNext), ?_⟩
        by_cases hC : C s l
        · refine hRest.imp_left (fun hMeets => ⟨hC, ?_⟩)
          intro v hv
          cases hNext.symm.trans hv
          exact hMeets
        · exact Or.inr (hKeep (hStep s l u hs (Or.inr hC) hNext))
  exact hBoth.2

/- Labels are executed one part after the other. -/
theorem run_append
    (s : S)
    (ls ms : List L) :
    M.run s (ls ++ ms) = (M.run s ls).bind (M.run · ms) := by
  induction ls generalizing s with
  | nil => rfl
  | cons l ls ih =>
      simp only [List.cons_append, run]
      cases M.step s l with
      | none => rfl
      | some t => exact ih t

/-
  Invariant rule for a state together with the labels that
  led to it.
-/
theorem run_invariant
    {I : List L → S → Prop}
    {s₀ : S}
    (hInit : I [] s₀)
    (hStep :
      ∀ ls s l t, I ls s → M.step s l = some t →
        I (ls ++ [l]) t)
    {ls : List L}
    {s : S}
    (h : M.run s₀ ls = some s) :
    I ls s := by
  induction ls using List.reverseRecOn generalizing s with
  | nil =>
      cases h
      exact hInit
  | append_singleton ls l ih =>
      rw [run_append, Option.bind_eq_some_iff] at h
      rcases h with ⟨t, hLs, hLast⟩
      simp only [run] at hLast
      split at hLast
      · cases hLast
      · rename_i u hNext
        cases hLast
        exact hStep ls t l _ (ih hLs) hNext

/-
  Progress with a measure: where every admitted step keeps
  `I` and lowers `μ`, and `I` outside `P` admits a step, `P`
  is inevitable.
-/
theorem inevitable_of_measure
    {I P : S → Prop}
    (μ : S → Nat)
    (hStep :
      ∀ s l t, I s → C s l → M.step s l = some t →
        I t ∧ μ t < μ s)
    (hProgress :
      ∀ s, I s → ¬ P s → ∃ l t, C s l ∧ M.step s l = some t)
    {s : S}
    (hs : I s) :
    M.Inevitable C P s := by
  induction hn : μ s using Nat.strongRecOn generalizing s with
  | ind n ih =>
      by_cases hP : P s
      · exact .here hP
      · refine .next (hProgress s hs hP) ?_
        intro l t hC hNext
        rcases hStep s l t hs hC hNext with ⟨ht, hLess⟩
        exact ih (μ t) (hn ▸ hLess) ht rfl

/- A label list with a condition that its steps meet. -/
theorem reachableWhere_of_run
    (ls : List L)
    (hs : M.init s)
    (h : M.run s ls = some t)
    (hMeets : M.Meets C s ls) :
    M.ReachableWhere C t :=
  ⟨s, hs, path_of_meets hMeets h⟩

/- A label list from an initial state reaches its end. -/
theorem reachable_of_run
    (ls : List L)
    (hs : M.init s)
    (h : M.run s ls = some t) :
    M.Reachable t := by
  refine reachableWhere_of_run ls hs h ?_
  clear hs h
  induction ls generalizing s with
  | nil => trivial
  | cons l ls ih => exact ⟨trivial, fun u _ => ih⟩

end System

end Lib

end Winunitd
