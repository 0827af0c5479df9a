import Winunitd.Lib.Table
import Winunitd.Lib.Transition

/-
  The gates of the units.

  Starts, stops and restarts of one unit are kept apart by a
  gate under the unit's name: a channel with room for one
  token, which whoever holds the gate has put there.  The gates
  are made when they are first asked for and given up with
  their last holder or waiter, so each caller pins its gate
  before it waits.  All calls run at the same time, and a
  context may be cancelled at any moment.

  Key definitions include:
    * `UnitOps`, `UnitOps.retain`, `UnitOps.release`
    * `Call`, `UnitOps.turn`
    * `unitGates`
    * `Gates.Counted`

  Key theorems include:
    * `Gates.Counted.step`
    * `Gates.one_gate`
-/

------------------------------------------------------------
-- Gates
------------------------------------------------------------

namespace Winunitd

namespace Manager

open Lib

abbrev GateId := Nat

/- A gate: whether its token is there, and who pins it. -/
structure UnitOp where
  gate : Bool
  refs : Int
deriving DecidableEq, Repr

structure UnitOps (N : Type) where
  byName : Table N GateId
  ops : GateId → UnitOp
  next : GateId

variable {N : Type}
variable [DecidableEq N]

namespace UnitOps

def empty : UnitOps N where
  byName := ∅
  ops := fun _ => ⟨false, 0⟩
  next := 0

/- Pin the gate of a name, or make it. -/
def retain (o : UnitOps N) (name : N) : GateId × UnitOps N :=
  match o.byName.lookup name with
  | some u =>
      (u,
        { o with
          ops :=
            Function.update o.ops u
              { o.ops u with refs := (o.ops u).refs + 1 } })
  | none =>
      (o.next,
        { byName := o.byName.insert name o.next
          ops := Function.update o.ops o.next ⟨false, 1⟩
          next := o.next + 1 })

/- Unpin a gate, and give it up if nobody pins it. -/
def release (o : UnitOps N) (name : N) (u : GateId) : UnitOps N :=
  { o with
    byName :=
      if (o.ops u).refs - 1 = 0 then o.byName.erase name
      else o.byName
    ops :=
      Function.update o.ops u
        { o.ops u with refs := (o.ops u).refs - 1 } }

def setGate (o : UnitOps N) (u : GateId) (full : Bool) : UnitOps N :=
  { o with
    ops := Function.update o.ops u { o.ops u with gate := full } }

end UnitOps

------------------------------------------------------------
-- Calls
------------------------------------------------------------

inductive CallKind where
| lock
| lockContext
| tryLock
deriving DecidableEq, Repr

/- How far a call has come, with the gate that it pins. -/
inductive CallState where
| begun
| checked
| waiting (u : GateId)
| sent (u : GateId)
| holding (u : GateId)
| receiving (u : GateId)
| releasing (u : GateId)
| returned
deriving DecidableEq, Repr

/- A call; the context of `lock` is never cancelled. -/
structure Call (N : Type) where
  kind : CallKind
  name : N
  cancelled : Bool
  state : CallState
deriving DecidableEq, Repr

def CallState.pinned : CallState → Option GateId
| .waiting u => some u
| .sent u => some u
| .holding u => some u
| .receiving u => some u
| .releasing u => some u
| _ => none

/- The token in the gate is that of the call. -/
def CallState.owned : CallState → Option GateId
| .sent u => some u
| .holding u => some u
| .receiving u => some u
| _ => none

/-
  The next step of a call by itself.  A `select` with two ways
  to go on takes either; `tryLock` goes on without the gate only
  if the gate is taken.  A holder goes on by its unlock.
-/
def UnitOps.turn (o : UnitOps N) (c : Call N) (sends : Bool) :
    Option (UnitOps N × CallState) :=
  match c.state with
  | .begun =>
      if c.cancelled then some (o, .returned) else some (o, .checked)
  | .checked =>
      let r := o.retain c.name
      some (r.2, .waiting r.1)
  | .waiting u =>
      if sends then
        if (o.ops u).gate then none
        else if c.kind = .tryLock then
          some (o.setGate u true, .holding u)
        else some (o.setGate u true, .sent u)
      else if c.kind = .tryLock then
        if (o.ops u).gate then some (o, .releasing u) else none
      else if c.cancelled then some (o, .releasing u)
      else none
  | .sent u =>
      if c.cancelled then some (o, .receiving u)
      else some (o, .holding u)
  | .holding _ => none
  | .receiving u =>
      if (o.ops u).gate then some (o.setGate u false, .releasing u)
      else none
  | .releasing u => some (o.release c.name u, .returned)
  | .returned => none

/- The gates with all calls there have been. -/
structure Gates (N : Type) where
  ops : UnitOps N
  calls : List (Call N)

inductive GateLabel (N : Type) where
| call (kind : CallKind) (name : N) (cancelled : Bool)
| cancel (i : Nat)
| turn (i : Nat) (sends : Bool)
| unlock (i : Nat)

namespace Gates

def call
    (s : Gates N)
    (kind : CallKind)
    (name : N)
    (cancelled : Bool) : Gates N :=
  { s with
    calls := s.calls ++
      [{ kind := kind
         name := name
         cancelled := decide (kind = .lockContext) && cancelled
         state := if kind = .tryLock then .checked else .begun }] }

def step (s : Gates N) : GateLabel N → Option (Gates N)
| .call kind name cancelled => some (s.call kind name cancelled)
| .cancel i =>
    match s.calls[i]? with
    | none => none
    | some c =>
        if c.kind = .lockContext then
          some
            { s with calls := s.calls.set i { c with cancelled := true } }
        else none
| .turn i sends =>
    match s.calls[i]? with
    | none => none
    | some c =>
        match s.ops.turn c sends with
        | none => none
        | some (o, state) =>
            some
              { ops := o
                calls := s.calls.set i { c with state := state } }
| .unlock i =>
    match s.calls[i]? with
    | none => none
    | some c =>
        match c.state with
        | .holding u =>
            some
              { s with
                calls :=
                  s.calls.set i { c with state := .receiving u } }
        | _ => none

end Gates

def unitGates (N : Type) [DecidableEq N] : System (Gates N) (GateLabel N) where
  init := fun s => s = ⟨.empty, []⟩
  step := Gates.step

------------------------------------------------------------
-- References And Tokens
------------------------------------------------------------

theorem countP_set_add
    {α : Type}
    {p : α → Bool}
    {l : List α}
    {i : Nat}
    {a : α}
    (b : α)
    (h : l[i]? = some a) :
    (l.set i b).countP p + (p a).toNat =
      l.countP p + (p b).toNat := by
  rcases List.getElem?_eq_some_iff.mp h with ⟨hi, ha⟩
  rw [List.countP_set hi, ha]
  cases hp : p a with
  | false => cases p b <;> simp
  | true =>
      have hPos : 0 < l.countP p :=
        List.countP_pos_iff.mpr ⟨a, List.mem_of_getElem? h, hp⟩
      generalize l.countP p = n at hPos ⊢
      cases p b <;> simp <;> omega

theorem two_le_countP
    {α : Type}
    {p : α → Bool}
    {l : List α}
    {i j : Nat}
    {a b : α}
    (ha : l[i]? = some a)
    (hb : l[j]? = some b)
    (hpa : p a = true)
    (hpb : p b = true)
    (hij : i < j) :
    2 ≤ l.countP p := by
  have hFirst : 0 < (l.take j).countP p := by
    apply List.countP_pos_iff.mpr
    refine ⟨a, List.mem_of_getElem? (i := i) ?_, hpa⟩
    rw [List.getElem?_take_of_lt hij, ha]
  have hSecond : 0 < (l.drop j).countP p := by
    apply List.countP_pos_iff.mpr
    refine ⟨b, List.mem_of_getElem? (i := 0) ?_, hpb⟩
    rw [List.getElem?_drop, Nat.add_zero, hb]
  have hSum : l.countP p = (l.take j).countP p + (l.drop j).countP p := by
    rw [← List.countP_append, List.take_append_drop]
  omega

namespace Gates

/- The calls that pin a gate. -/
def pins (s : Gates N) (u : GateId) : Nat :=
  s.calls.countP (fun c => c.state.pinned = some u)

/- The calls whose token is in a gate. -/
def owners (s : Gates N) (u : GateId) : Nat :=
  s.calls.countP (fun c => c.state.owned = some u)

/- A gate knows its pins, and its token is that of an owner. -/
def Balanced (op : UnitOp) (pins owners : Nat) : Prop :=
  op.refs = pins ∧ 0 < pins ∧ owners = op.gate.toNat

/-
  The gate of a name is the one that its callers pin, it knows
  how many there are, and its token is that of one of them.
-/
structure Counted (s : Gates N) : Prop where
  pinned :
    ∀ c ∈ s.calls, ∀ u, c.state.pinned = some u →
      s.ops.byName.lookup c.name = some u
  fresh :
    ∀ name u, s.ops.byName.lookup name = some u → u < s.ops.next
  apart :
    ∀ name other u,
      s.ops.byName.lookup name = some u →
      s.ops.byName.lookup other = some u → name = other
  balanced :
    ∀ name u, s.ops.byName.lookup name = some u →
      Balanced (s.ops.ops u) (s.pins u) (s.owners u)

end Gates

variable {state : CallState}

theorem CallState.pinned_of_owned
    {u : GateId}
    (h : state.owned = some u) :
    state.pinned = some u := by
  cases state <;> simp_all [CallState.owned, CallState.pinned]

namespace Gates.Counted

variable {s : Gates N}
variable {i : Nat}
variable {c : Call N}

theorem pins_eq_zero
    (h : s.Counted)
    {u : GateId}
    (hu : ∀ name, s.ops.byName.lookup name ≠ some u) :
    s.pins u = 0 := by
  apply List.countP_eq_zero.mpr
  intro d hd hPin
  exact hu d.name (h.pinned d hd u (of_decide_eq_true hPin))

theorem owners_eq_zero
    (h : s.Counted)
    {u : GateId}
    (hu : ∀ name, s.ops.byName.lookup name ≠ some u) :
    s.owners u = 0 := by
  apply List.countP_eq_zero.mpr
  intro d hd hOwn
  exact hu d.name
    (h.pinned d hd u
      (CallState.pinned_of_owned (of_decide_eq_true hOwn)))

/- The pins and owners where one call has changed. -/
omit [DecidableEq N] in
theorem pins_set
    (hi : s.calls[i]? = some c)
    (d : Call N)
    (o : UnitOps N)
    (u : GateId) :
    (⟨o, s.calls.set i d⟩ : Gates N).pins u +
        (decide (c.state.pinned = some u)).toNat =
      s.pins u + (decide (d.state.pinned = some u)).toNat :=
  countP_set_add d hi

omit [DecidableEq N] in
theorem owners_set
    (hi : s.calls[i]? = some c)
    (d : Call N)
    (o : UnitOps N)
    (u : GateId) :
    (⟨o, s.calls.set i d⟩ : Gates N).owners u +
        (decide (c.state.owned = some u)).toNat =
      s.owners u + (decide (d.state.owned = some u)).toNat :=
  countP_set_add d hi

section

variable (h : s.Counted)
variable (hi : s.calls[i]? = some c)

include h hi

/-
  A call that keeps its gate: the token moves in and out of the
  gate with its owner, and nothing else changes.
-/
theorem replace
    (d : Call N)
    (o : UnitOps N)
    (hName : d.name = c.name)
    (hPin : d.state.pinned = c.state.pinned)
    (hBy : o.byName = s.ops.byName)
    (hNext : o.next = s.ops.next)
    (hRefs : ∀ u, (o.ops u).refs = (s.ops.ops u).refs)
    (hToken :
      ∀ u,
        (o.ops u).gate.toNat +
            (decide (c.state.owned = some u)).toNat =
          (s.ops.ops u).gate.toNat +
            (decide (d.state.owned = some u)).toNat) :
    (⟨o, s.calls.set i d⟩ : Gates N).Counted := by
  refine ⟨?_, ?_, ?_, ?_⟩
  · intro e he u hu
    rw [hBy]
    rcases List.mem_or_eq_of_mem_set he with hOld | hNew
    · exact h.pinned e hOld u hu
    · rw [hNew] at hu ⊢
      rw [hName]
      exact h.pinned c (List.mem_of_getElem? hi) u (hPin ▸ hu)
  · intro name u hu
    rw [hBy] at hu
    rw [hNext]
    exact h.fresh name u hu
  · intro name other u hu hv
    rw [hBy] at hu hv
    exact h.apart name other u hu hv
  · intro name u hu
    rw [hBy] at hu
    have hOld := h.balanced name u hu
    have hPins := pins_set hi d o u
    have hOwners := owners_set hi d o u
    have hMove := hToken u
    rw [hPin] at hPins
    unfold Balanced at hOld ⊢
    dsimp only
    rw [hRefs]
    omega

/- A call that neither pins nor owns anything new. -/
theorem aside
    (d : Call N)
    (hName : d.name = c.name)
    (hPin : d.state.pinned = c.state.pinned)
    (hOwn : d.state.owned = c.state.owned) :
    ({ s with calls := s.calls.set i d } : Gates N).Counted :=
  h.replace hi d s.ops hName hPin rfl rfl (fun _ => rfl)
    (fun u => by rw [hOwn])

/- A call that pins the gate of its name. -/
theorem retain
    (hPin : c.state.pinned = none) :
    (⟨(s.ops.retain c.name).2,
      s.calls.set i
        { c with state := .waiting (s.ops.retain c.name).1 }⟩ :
        Gates N).Counted := by
  have hOwn : c.state.owned = none := by
    cases hState : c.state <;>
      simp_all [CallState.owned, CallState.pinned]
  generalize hd : ({ c with state := .waiting (s.ops.retain c.name).1 } :
    Call N) = d
  have hName : d.name = c.name := by rw [← hd]
  have hdPin : d.state.pinned = some (s.ops.retain c.name).1 := by
    rw [← hd]
    rfl
  have hdOwn : d.state.owned = none := by
    rw [← hd]
    rfl
  have hPins : ∀ o u, (⟨o, s.calls.set i d⟩ : Gates N).pins u =
      s.pins u + (decide ((s.ops.retain c.name).1 = u)).toNat := by
    intro o u
    simpa [hPin, hdPin] using pins_set hi d o u
  have hOwners : ∀ o u,
      (⟨o, s.calls.set i d⟩ : Gates N).owners u = s.owners u := by
    intro o u
    simpa [hOwn, hdOwn] using owners_set hi d o u
  unfold UnitOps.retain at hdPin hPins ⊢
  cases hLook : s.ops.byName.lookup c.name with
  | some v =>
      simp only [hLook] at hdPin hPins ⊢
      refine ⟨?_, h.fresh, h.apart, ?_⟩
      · intro e he u hu
        rcases List.mem_or_eq_of_mem_set he with hOld | hNew
        · exact h.pinned e hOld u hu
        · rw [hNew, hdPin] at hu
          rw [hNew, hName, ← hu]
          exact hLook
      · intro name u hu
        have hOld := h.balanced name u hu
        unfold Balanced at hOld ⊢
        rw [hPins, hOwners]
        dsimp only
        rw [Function.update_apply]
        by_cases hEq : u = v
        · subst hEq
          simp [hOld]
        · simpa [hEq, Ne.symm hEq] using hOld
  | none =>
      simp only [hLook] at hdPin hPins ⊢
      -- the new gate is not that of any other name
      have hNew : ∀ name,
          s.ops.byName.lookup name ≠ some s.ops.next := by
        intro name hName
        exact Nat.lt_irrefl _ (h.fresh name _ hName)
      have hLookup : ∀ name,
          (s.ops.byName.insert c.name s.ops.next).lookup name =
            if name = c.name then some s.ops.next
            else s.ops.byName.lookup name := by
        intro name
        by_cases hEq : name = c.name
        · rw [if_pos hEq, hEq, AList.lookup_insert]
        · rw [if_neg hEq, AList.lookup_insert_ne hEq]
      have hOther : ∀ name u,
          s.ops.byName.lookup name = some u → u ≠ s.ops.next := by
        intro name u hu hEq
        exact hNew name (hEq ▸ hu)
      refine ⟨?_, ?_, ?_, ?_⟩
      · intro e he u hu
        rw [hLookup]
        rcases List.mem_or_eq_of_mem_set he with hOld | hEq
        · have hFound := h.pinned e hOld u hu
          rw [if_neg, hFound]
          intro hSame
          rw [hSame, hLook] at hFound
          cases hFound
        · rw [hEq, hdPin] at hu
          rw [hEq, if_pos hName, hu]
      · intro name u hu
        rw [hLookup] at hu
        split at hu
        · cases hu
          exact Nat.lt_succ_self _
        · exact Nat.lt_succ_of_lt (h.fresh name u hu)
      · intro name other u hu hv
        rw [hLookup] at hu hv
        split at hu <;> split at hv
        · simp_all
        · cases hu
          exact absurd hv (hNew other)
        · cases hv
          exact absurd hu (hNew name)
        · exact h.apart name other u hu hv
      · intro name u hu
        rw [hLookup] at hu
        unfold Balanced
        rw [hPins, hOwners]
        dsimp only
        split at hu
        · cases hu
          simp [h.pins_eq_zero hNew, h.owners_eq_zero hNew]
        · have hNe := hOther name u hu
          rw [Function.update_of_ne hNe]
          simpa [Ne.symm hNe, Balanced] using h.balanced name u hu

/- A call that unpins the gate of its name. -/
theorem release
    {v : GateId}
    (hState : c.state = .releasing v) :
    (⟨s.ops.release c.name v,
      s.calls.set i { c with state := .returned }⟩ :
        Gates N).Counted := by
  have hFound : s.ops.byName.lookup c.name = some v := by
    apply h.pinned c (List.mem_of_getElem? hi)
    rw [hState]
    rfl
  generalize hd : ({ c with state := .returned } : Call N) = d
  have hNone : d.state = .returned := by rw [← hd]
  have hPins : ∀ u,
      (⟨s.ops.release c.name v, s.calls.set i d⟩ : Gates N).pins u +
        (decide (v = u)).toNat = s.pins u := by
    intro u
    simpa [hState, hNone, CallState.pinned] using pins_set hi d _ u
  have hOwners : ∀ u,
      (⟨s.ops.release c.name v, s.calls.set i d⟩ : Gates N).owners u =
        s.owners u := by
    intro u
    simpa [hState, hNone, CallState.owned] using owners_set hi d _ u
  have hCount := (h.balanced c.name v hFound).1
  have hGone := hPins v
  simp only [decide_true, Bool.toNat_true] at hGone
  -- an entry that is left is that of another name, or still pinned
  have hLookup : ∀ name u,
      (s.ops.release c.name v).byName.lookup name = some u →
        s.ops.byName.lookup name = some u ∧
          (u = v → s.pins v ≠ 1) := by
    intro name u hu
    unfold UnitOps.release at hu
    dsimp only at hu
    split at hu
    · by_cases hEq : name = c.name
      · rw [hEq, AList.lookup_erase] at hu
        cases hu
      · rw [AList.lookup_erase_ne hEq] at hu
        refine ⟨hu, fun hSame => ?_⟩
        rw [hSame] at hu
        exact absurd (h.apart name c.name v hu hFound) hEq
    · refine ⟨hu, fun _ hOne => ?_⟩
      omega
  refine ⟨?_, ?_, ?_, ?_⟩
  · intro e he u hu
    rcases List.mem_or_eq_of_mem_set he with hOld | hNew
    · have hKept := h.pinned e hOld u hu
      unfold UnitOps.release
      dsimp only
      split
      · rename_i hLast
        have hNe : e.name ≠ c.name := by
          intro hEq
          rw [hEq, hFound] at hKept
          cases hKept
          have hPos :
              0 < (⟨s.ops.release c.name v, s.calls.set i d⟩ :
                Gates N).pins v :=
            List.countP_pos_iff.mpr ⟨e, he, decide_eq_true hu⟩
          omega
        rw [AList.lookup_erase_ne hNe]
        exact hKept
      · exact hKept
    · rw [hNew, hNone] at hu
      cases hu
  · intro name u hu
    exact h.fresh name u (hLookup name u hu).1
  · intro name other u hu hv
    exact h.apart name other u (hLookup name u hu).1
      (hLookup other u hv).1
  · intro name u hu
    have hOld := h.balanced name u (hLookup name u hu).1
    have hLast := (hLookup name u hu).2
    have hu' := hPins u
    unfold Balanced at hOld ⊢
    rw [hOwners]
    unfold UnitOps.release at hu' ⊢
    dsimp only at hu' ⊢
    rw [Function.update_apply]
    by_cases hEq : u = v
    · subst hEq
      have hNe := hLast rfl
      simp only [if_true, decide_true, Bool.toNat_true] at hu' ⊢
      omega
    · simp only [hEq, if_false, Ne.symm hEq, decide_false,
        Bool.toNat_false] at hu' ⊢
      omega

variable {state : CallState}

/- A call that puts its token into its gate, or takes it out. -/
theorem setGate
    {v : GateId}
    {full : Bool}
    (hGate : (s.ops.ops v).gate = !full)
    (hPin : state.pinned = c.state.pinned)
    (hBefore : c.state.owned = if full then none else some v)
    (hAfter : state.owned = if full then some v else none) :
    (⟨s.ops.setGate v full,
      s.calls.set i { c with state := state }⟩ : Gates N).Counted := by
  refine h.replace hi _ _ ?_ hPin rfl rfl ?_ ?_
  · rfl
  · intro u
    unfold UnitOps.setGate
    dsimp only
    rw [Function.update_apply]
    split
    · subst u
      rfl
    · rfl
  · intro u
    unfold UnitOps.setGate
    dsimp only
    rw [hBefore, hAfter, Function.update_apply]
    by_cases hEq : u = v
    · subst hEq
      rw [if_pos rfl, hGate]
      cases full <;> simp
    · cases full <;> simp [hEq, Ne.symm hEq]

theorem turn
    {sends : Bool}
    {o : UnitOps N}
    (hTurn : s.ops.turn c sends = some (o, state)) :
    (⟨o, s.calls.set i { c with state := state }⟩ :
      Gates N).Counted := by
  unfold UnitOps.turn at hTurn
  cases hState : c.state with
  | begun | sent u =>
      simp only [hState] at hTurn
      split at hTurn
      all_goals
        cases hTurn
        refine h.aside hi _ ?_ ?_ ?_
        all_goals simp [hState, CallState.pinned, CallState.owned]
  | checked =>
      simp only [hState] at hTurn
      cases hTurn
      apply h.retain hi
      rw [hState]
      rfl
  | waiting u =>
      simp only [hState] at hTurn
      split at hTurn
      · split at hTurn
        · cases hTurn
        · rename_i hGate
          split at hTurn
          all_goals
            cases hTurn
            apply h.setGate hi (by simpa using hGate)
            all_goals simp [hState, CallState.pinned, CallState.owned]
      · -- the wait is given up without the gate
        have hAside :
            ({ s with
                calls :=
                  s.calls.set i { c with state := .releasing u } } :
              Gates N).Counted := by
          refine h.aside hi _ ?_ ?_ ?_
          all_goals simp [hState, CallState.pinned, CallState.owned]
        split at hTurn
        all_goals
          split at hTurn
          all_goals cases hTurn
          exact hAside
  | holding u | returned =>
      simp only [hState] at hTurn
      cases hTurn
  | receiving u =>
      simp only [hState] at hTurn
      split at hTurn
      · rename_i hGate
        cases hTurn
        apply h.setGate hi (by simpa using hGate)
        all_goals simp [hState, CallState.pinned, CallState.owned]
      · cases hTurn
  | releasing u =>
      simp only [hState] at hTurn
      cases hTurn
      exact h.release hi hState

end

/- A new call pins nothing yet. -/
theorem call
    (h : s.Counted)
    (kind : CallKind)
    (name : N)
    (cancelled : Bool) :
    (s.call kind name cancelled).Counted := by
  generalize hd :
    ({ kind := kind
       name := name
       cancelled := decide (kind = .lockContext) && cancelled
       state := if kind = .tryLock then .checked else .begun } :
      Call N) = d
  have hCalls : (s.call kind name cancelled).calls = s.calls ++ [d] := by
    rw [← hd]
    rfl
  have hPin : d.state.pinned = none := by
    rw [← hd]
    dsimp only
    split <;> rfl
  have hOwn : d.state.owned = none := by
    rw [← hd]
    dsimp only
    split <;> rfl
  have hPins : ∀ u, (s.call kind name cancelled).pins u = s.pins u := by
    intro u
    unfold pins
    rw [hCalls, List.countP_append, List.countP_singleton]
    simp [hPin]
  have hOwners : ∀ u,
      (s.call kind name cancelled).owners u = s.owners u := by
    intro u
    unfold owners
    rw [hCalls, List.countP_append, List.countP_singleton]
    simp [hOwn]
  refine ⟨?_, h.fresh, h.apart, ?_⟩
  · intro e he u hu
    rw [hCalls, List.mem_append, List.mem_singleton] at he
    rcases he with hOld | hNew
    · exact h.pinned e hOld u hu
    · rw [hNew, hPin] at hu
      cases hu
  · intro other u hu
    rw [hPins, hOwners]
    exact h.balanced other u hu

end Gates.Counted

------------------------------------------------------------
-- Whole Runs
------------------------------------------------------------

/- With its context ended a call does not come to hold a gate. -/
theorem UnitOps.turn_cancelled
    {o o' : UnitOps N}
    {c : Call N}
    {sends : Bool}
    (hKind : c.kind = .lockContext)
    (hCancelled : c.cancelled = true)
    (h : o.turn c sends = some (o', state))
    (u : GateId) :
    state ≠ .holding u := by
  rintro rfl
  unfold UnitOps.turn at h
  cases hState : c.state with
  | waiting v =>
      simp only [hState, hKind, reduceCtorEq, if_false] at h
      split at h
      · split at h <;> cases h
      · cases h
  | _ => simp [hState, hCancelled] at h

namespace Gates

variable {l : GateLabel N}

/-
  What a step does: it begins a call, or it changes one call
  and nothing of it but its context or its state.
-/
theorem step_rule
    {s t : Gates N}
    {P : Gates N → Prop}
    (hCall :
      ∀ kind name cancelled, P (s.call kind name cancelled))
    (hCancel :
      ∀ (i : Nat) (c : Call N), s.calls[i]? = some c →
        P { s with
          calls := s.calls.set i { c with cancelled := true } })
    (hTurn :
      ∀ (i : Nat) (c : Call N) sends o state, s.calls[i]? = some c →
        s.ops.turn c sends = some (o, state) →
          P ⟨o, s.calls.set i { c with state := state }⟩)
    (hUnlock :
      ∀ (i : Nat) (c : Call N) u, s.calls[i]? = some c →
        c.state = .holding u →
          P { s with
            calls := s.calls.set i { c with state := .receiving u } })
    (h : s.step l = some t) :
    P t := by
  cases l with
  | call kind name cancelled =>
      cases h
      exact hCall kind name cancelled
  | cancel i =>
      simp only [step] at h
      split at h
      · cases h
      · rename_i c hi
        split at h
        · cases h
          exact hCancel i c hi
        · cases h
  | turn i sends =>
      simp only [step] at h
      split at h
      · cases h
      · rename_i c hi
        split at h
        · cases h
        · rename_i o state hNext
          cases h
          exact hTurn i c sends o state hi hNext
  | unlock i =>
      simp only [step] at h
      split at h
      · cases h
      · rename_i c hi
        split at h
        · rename_i u hState
          cases h
          exact hUnlock i c u hi hState
        · cases h

theorem Counted.step
    {s t : Gates N}
    (h : s.Counted)
    (hStep : s.step l = some t) :
    t.Counted := by
  refine step_rule h.call ?_ ?_ ?_ hStep
  · intro i c hi
    refine h.aside hi _ ?_ ?_ ?_ <;> rfl
  · intro i c sends o state hi hTurn
    exact h.turn hi hTurn
  · intro i c u hi hState
    refine h.aside hi _ ?_ ?_ ?_
    all_goals simp [hState, CallState.pinned, CallState.owned]

variable {s : Gates N}

theorem counted_of_reachable
    (hs : (unitGates N).Reachable s) :
    s.Counted := by
  apply System.reachable_invariant (I := Counted) ?_ ?_ hs
  · intro s₀ hInit
    cases hInit
    refine ⟨?_, ?_, ?_, ?_⟩ <;> simp [UnitOps.empty]
  · intro s l t _ h hStep
    exact h.step hStep

/- A call whose context ended before it had the gate. -/
def Abandons (i : Nat) (s : Gates N) : Prop :=
  ∃ c,
    s.calls[i]? = some c ∧ c.kind = .lockContext ∧
      c.cancelled = true ∧ ∀ u, c.state ≠ .holding u

theorem Abandons.step
    {i : Nat}
    {s t : Gates N}
    (h : Abandons i s)
    (hStep : s.step l = some t) :
    Abandons i t := by
  rcases h with ⟨c, hi, hKind, hCancelled, hOut⟩
  have hLt := (List.getElem?_eq_some_iff.mp hi).1
  -- a change of another call leaves this one alone
  have hSet : ∀ {o : UnitOps N} {j : Nat} {e d : Call N},
      s.calls[j]? = some e →
      (e = c → d.kind = .lockContext ∧ d.cancelled = true ∧
        ∀ u, d.state ≠ .holding u) →
      Abandons i ⟨o, s.calls.set j d⟩ := by
    intro o j e d hj hd
    by_cases hEq : j = i
    · subst hEq
      rw [hi] at hj
      cases hj
      exact ⟨d, List.getElem?_set_self hLt, hd rfl⟩
    · exact ⟨c, (List.getElem?_set_ne hEq).trans hi, hKind, hCancelled,
        hOut⟩
  refine step_rule ?_ ?_ ?_ ?_ hStep
  · intro kind name cancelled
    exact ⟨c, (List.getElem?_append_left hLt).trans hi, hKind,
      hCancelled, hOut⟩
  · intro j d hj
    refine hSet hj ?_
    rintro rfl
    exact ⟨hKind, rfl, hOut⟩
  · intro j d sends o state hj hTurn
    refine hSet hj ?_
    rintro rfl
    exact ⟨hKind, hCancelled,
      UnitOps.turn_cancelled hKind hCancelled hTurn⟩
  · intro j d u hj hState
    refine hSet hj ?_
    rintro rfl
    exact absurd hState (hOut u)

variable {u : GateId}

/- Two owners of one gate are the same call. -/
theorem Counted.owner_unique
    (h : s.Counted)
    {i j : Nat}
    {c d : Call N}
    (hi : s.calls[i]? = some c)
    (hj : s.calls[j]? = some d)
    (hc : c.state.owned = some u)
    (hd : d.state.owned = some u) :
    i = j := by
  have hGate :=
    h.balanced c.name u
      (h.pinned c (List.mem_of_getElem? hi) u
        (CallState.pinned_of_owned hc))
  have hLe : s.owners u ≤ 1 := by
    rw [hGate.2.2]
    exact Bool.toNat_le _
  rcases Nat.lt_trichotomy i j with hLt | hEq | hGt
  · have hTwo : 2 ≤ s.owners u :=
      two_le_countP hi hj (decide_eq_true hc) (decide_eq_true hd) hLt
    omega
  · exact hEq
  · have hTwo : 2 ≤ s.owners u :=
      two_le_countP hj hi (decide_eq_true hd) (decide_eq_true hc) hGt
    omega

/- The gate of an owner is full. -/
theorem Counted.gate_of_owned
    (h : s.Counted)
    {c : Call N}
    (hMem : c ∈ s.calls)
    (hOwn : c.state.owned = some u) :
    (s.ops.ops u).gate = true := by
  have hBalanced :=
    h.balanced c.name u
      (h.pinned c hMem u (CallState.pinned_of_owned hOwn))
  have hPos : 0 < s.owners u :=
    List.countP_pos_iff.mpr ⟨c, hMem, decide_eq_true hOwn⟩
  cases hGate : (s.ops.ops u).gate with
  | true => rfl
  | false =>
      rw [hBalanced.2.2, hGate] at hPos
      cases hPos

theorem Counted.retain_eq
    (h : s.Counted)
    {c : Call N}
    (hMem : c ∈ s.calls)
    (hPin : c.state.pinned = some u) :
    (s.ops.retain c.name).1 = u := by
  unfold UnitOps.retain
  rw [h.pinned c hMem u hPin]

theorem Counted.entry_iff
    (h : s.Counted)
    (name : N) :
    (s.ops.byName.lookup name).isSome = true ↔
      ∃ c ∈ s.calls, c.name = name ∧ c.state.pinned.isSome = true := by
  constructor
  · intro hSome
    rcases Option.isSome_iff_exists.mp hSome with ⟨u, hu⟩
    rcases List.countP_pos_iff.mp (h.balanced name u hu).2.1 with
      ⟨c, hMem, hPin⟩
    have hPinned := of_decide_eq_true hPin
    refine ⟨c, hMem, ?_, ?_⟩
    · exact h.apart c.name name u (h.pinned c hMem u hPinned) hu
    · rw [hPinned]
      rfl
  · rintro ⟨c, hMem, rfl, hPin⟩
    rcases Option.isSome_iff_exists.mp hPin with ⟨u, hu⟩
    rw [h.pinned c hMem u hu]
    rfl

/-
  Whatever the calls do, a name has one gate with one owner.
  The gate stays under its name while some call pins it, and a
  call whose context ended leaves the gate of its owner alone.
-/
theorem one_gate
    {s : Gates N}
    (hs : (unitGates N).Reachable s) :
    (∀ (i j : Nat) (c d : Call N),
        s.calls[i]? = some c → s.calls[j]? = some d →
        c.name = d.name → c.state.owned.isSome = true →
        d.state.owned.isSome = true → i = j) ∧
      (∀ c ∈ s.calls, ∀ u, c.state.pinned = some u →
        (s.ops.retain c.name).1 = u ∧
          ∀ d ∈ s.calls, d.name = c.name →
            ∀ v, d.state.pinned = some v → v = u) ∧
      (∀ i, Abandons i s →
        (∀ t, (unitGates N).Path (fun _ _ => True) s t →
          ∀ c : Call N,
            t.calls[i]? = some c → ∀ u, c.state ≠ .holding u) ∧
        ∀ sends t, s.step (.turn i sends) = some t →
          ∀ (j : Nat) (d : Call N) (u : GateId),
            j ≠ i → s.calls[j]? = some d →
            d.state.owned = some u →
              t.calls[j]? = some d ∧ (t.ops.ops u).gate = true ∧
                t.ops.byName.lookup d.name = some u ∧
                ∀ c : Call N,
                  t.calls[i]? = some c → c.state.owned ≠ some u) ∧
      ∀ name,
        (s.ops.byName.lookup name).isSome = true ↔
          ∃ c ∈ s.calls,
            c.name = name ∧ c.state.pinned.isSome = true := by
  have h := counted_of_reachable hs
  refine ⟨?_, ?_, ?_, h.entry_iff⟩
  · intro i j c d hi hj hName hc hd
    rcases Option.isSome_iff_exists.mp hc with ⟨u, hu⟩
    rcases Option.isSome_iff_exists.mp hd with ⟨v, hv⟩
    have hLookC :=
      h.pinned c (List.mem_of_getElem? hi) u
        (CallState.pinned_of_owned hu)
    have hLookD :=
      h.pinned d (List.mem_of_getElem? hj) v
        (CallState.pinned_of_owned hv)
    rw [hName, hLookD] at hLookC
    cases hLookC
    exact h.owner_unique hi hj hu hv
  · intro c hMem u hPin
    refine ⟨h.retain_eq hMem hPin, ?_⟩
    intro d hd hName v hv
    have hLook := h.pinned d hd v hv
    rw [hName, h.pinned c hMem u hPin] at hLook
    exact (Option.some.inj hLook).symm
  · intro i hAbandons
    constructor
    · intro t hPath c hi u
      have hLater : Abandons i t :=
        System.path_invariant (I := Abandons i)
          (fun _ _ _ hIn _ hStep => hIn.step hStep) hPath hAbandons
      rcases hLater with ⟨c', hi', _, _, hOut⟩
      rw [hi] at hi'
      cases hi'
      exact hOut u
    · intro sends t hStep j d u hNe hj hOwn
      have ht := h.step hStep
      have hj' : t.calls[j]? = some d := by
        simp only [step] at hStep
        split at hStep
        · cases hStep
        · split at hStep
          · cases hStep
          · cases hStep
            rw [List.getElem?_set_ne (Ne.symm hNe), hj]
      have hMem := List.mem_of_getElem? hj'
      refine ⟨hj', ht.gate_of_owned hMem hOwn, ?_, ?_⟩
      · exact ht.pinned d hMem u (CallState.pinned_of_owned hOwn)
      · intro c hi hc
        exact hNe (ht.owner_unique hj' hi hOwn hc)

/- A stop waits for a start of its unit and is cancelled. -/
def contention : List (GateLabel String) :=
  [.call .lock "web.service" false, .turn 0 true, .turn 0 true,
    .turn 0 true, .turn 0 true,
    .call .lockContext "web.service" false, .turn 1 true,
    .turn 1 true, .cancel 1]

theorem one_gate_contended :
    ∃ s,
      (unitGates String).run ⟨.empty, []⟩ contention = some s ∧
        Abandons 1 s ∧
        (s.ops.byName.lookup "web.service").isSome = true ∧
        ∃ t,
          s.step (.turn 1 false) = some t ∧
            (t.ops.ops 0).gate = true := by
  refine ⟨_, rfl, ?_, ?_, _, rfl, ?_⟩
  · exact ⟨_, rfl, rfl, rfl, nofun⟩
  · refine ((one_gate
      (System.reachable_of_run contention rfl rfl)).2.2.2 _).mpr ?_
    exact ⟨_, List.mem_cons_self, rfl, rfl⟩
  · exact (((one_gate
      (System.reachable_of_run contention rfl rfl)).2.2.1 1
        ⟨_, rfl, rfl, rfl, nofun⟩).2
          false _ rfl 0 _ 0 (by decide) rfl rfl).2.1

def GoesOn (s : Gates N) (i : Nat) (c : Call N) : Prop :=
  (∃ l ∈ [.unlock i, .turn i true, .turn i false],
      (s.step l).isSome = true) ∨
    ∃ u, c.state = .waiting u ∧
      ∃ d ∈ s.calls, d.name = c.name ∧ d.state.owned = some u

/- A call goes on, or the gate that it waits for has an owner. -/
theorem call_goes_on
    {s : Gates N}
    (hs : (unitGates N).Reachable s)
    {i : Nat}
    {c : Call N}
    (hi : s.calls[i]? = some c)
    (hLive : c.state ≠ .returned) :
    s.GoesOn i c := by
  have h := counted_of_reachable hs
  have hMem := List.mem_of_getElem? hi
  cases hState : c.state with
  | waiting u =>
      have hu := h.pinned c hMem u (by rw [hState]; rfl)
      cases hGate : (s.ops.ops u).gate with
      | false =>
          by_cases hKind : c.kind = .tryLock <;>
            simp [GoesOn, step, hi, UnitOps.turn, hState, hGate, hKind]
      | true =>
          have hOwner : 0 < s.owners u := by
            simp [(h.balanced _ u hu).2.2, hGate]
          rcases List.countP_pos_iff.mp hOwner with ⟨d, hd, hOwn⟩
          have hOwn := of_decide_eq_true hOwn
          have hd' := h.pinned d hd u (CallState.pinned_of_owned hOwn)
          exact .inr ⟨u, hState, d, hd, h.apart _ _ u hd' hu, hOwn⟩
  | receiving u =>
      have hGate := h.gate_of_owned hMem (by rw [hState]; rfl)
      simp [GoesOn, step, hi, UnitOps.turn, hState, hGate]
  | returned => exact absurd hState hLive
  | _ =>
      cases hEnd : c.cancelled <;>
        simp [GoesOn, step, hi, UnitOps.turn, hState, hEnd]

theorem call_goes_on_contended :
    ∃ (s : Gates String) (c : Call String),
      s.calls[1]? = some c ∧ c.state = .waiting 0 ∧ s.GoesOn 1 c :=
  ⟨_, _, rfl, rfl,
    call_goes_on (System.reachable_of_run contention rfl rfl) rfl
      (by decide)⟩

end Gates

end Manager

end Winunitd
