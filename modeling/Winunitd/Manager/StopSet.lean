import Winunitd.Lib.Table
import Winunitd.Lib.Transition

/-
  One stop attempt for each target.

  A stop may block inside the system for longer than its caller
  waits.  So each target has at most one attempt at a time: a
  call joins the attempt that is pending for its key, or makes
  one.  The goroutine of an attempt keeps the result of the
  stop function, takes the attempt out of the map and wakes
  the callers, in separate steps.

  Key definitions include:
    * `StopSet`, `StopSet.join`
    * `StopCall`, `StopSet.turn`
    * `stopping`
    * `Stops.Kept`

  Key theorems include:
    * `Stops.Kept.step`
    * `Stops.one_attempt`
-/

------------------------------------------------------------
-- Attempts
------------------------------------------------------------

namespace Winunitd

namespace Manager

open Lib

/- How far the goroutine is, with the stop function's result. -/
inductive StopPhase where
| running
| returned (err : Option String)
| retired (err : Option String)
| closed (err : Option String)
deriving DecidableEq, Repr

structure StopAttempt (K : Type) where
  key : K
  phase : StopPhase
deriving DecidableEq, Repr

/- The map of a stop set, and all attempts that it has made. -/
structure StopSet (K : Type) where
  pending : Table K Nat
  attempts : List (StopAttempt K)

/- The attempt is in the map. -/
def StopPhase.Pending : StopPhase → Prop
| .running => True
| .returned _ => True
| .retired _ => False
| .closed _ => False

------------------------------------------------------------
-- Calls
------------------------------------------------------------

/- How far a call is; at its end, with the attempt it heard from. -/
inductive WaitPhase where
| begun
| checked
| waiting (a : Nat)
| returned (a : Option Nat) (err : Option String)
deriving DecidableEq, Repr

/-
  A call of `wait`.  `ctxErr` is the error of its context once
  that is cancelled, and `made` the attempts when it was made.
-/
structure StopCall (K : Type) where
  key : K
  timeout : Int
  ctxErr : Option String
  phase : WaitPhase
  made : List (StopAttempt K)
deriving DecidableEq, Repr

/- The ways on out of a `select`. -/
inductive SelectCase where
| done
| context
| timer
deriving DecidableEq, Repr

variable {K : Type}

namespace StopSet

/- The section under the lock. -/
def join [DecidableEq K] (s : StopSet K) (key : K) :
    Nat × StopSet K :=
  match s.pending.lookup key with
  | some a => (a, s)
  | none =>
      (s.attempts.length,
        { pending := s.pending.insert key s.attempts.length
          attempts := s.attempts ++ [⟨key, .running⟩] })

/- The timer is made for a positive timeout only. -/
def select (s : StopSet K) (c : StopCall K) (a : Nat) :
    SelectCase → Option WaitPhase
| .done =>
    match s.attempts[a]? with
    | some ⟨_, .closed err⟩ => some (.returned (some a) err)
    | _ => none
| .context =>
    c.ctxErr.map (fun err => .returned none (some err))
| .timer =>
    if 0 < c.timeout then
      some (.returned none (some "TimeoutStopSec exceeded"))
    else none

/- The next step of a call. -/
def turn [DecidableEq K]
    (s : StopSet K)
    (c : StopCall K)
    (way : SelectCase) :
    Option (StopSet K × WaitPhase) :=
  match c.phase with
  | .begun =>
      match c.ctxErr with
      | some err => some (s, .returned none (some err))
      | none => some (s, .checked)
  | .checked =>
      let r := s.join c.key
      some (r.2, .waiting r.1)
  | .waiting a => (s.select c a way).map (fun phase => (s, phase))
  | .returned _ _ => none

/- The next step of an attempt's goroutine. -/
def work [DecidableEq K]
    (s : StopSet K)
    (a : Nat)
    (result : Option String) :
    Option (StopSet K) :=
  match s.attempts[a]? with
  | none => none
  | some t =>
      match t.phase with
      | .running =>
          some
            { s with
              attempts :=
                s.attempts.set a { t with phase := .returned result } }
      | .returned err =>
          some
            { pending := s.pending.erase t.key
              attempts :=
                s.attempts.set a { t with phase := .retired err } }
      | .retired err =>
          some
            { s with
              attempts :=
                s.attempts.set a { t with phase := .closed err } }
      | .closed _ => none

end StopSet

/- The attempts with all calls there have been. -/
structure Stops (K : Type) where
  set : StopSet K
  calls : List (StopCall K)

/- `work` has the result of the stop function if it returns. -/
inductive StopLabel (K : Type) where
| call (key : K) (timeout : Int)
| cancel (i : Nat) (err : String)
| turn (i : Nat) (way : SelectCase)
| work (a : Nat) (result : Option String)
deriving DecidableEq, Repr

namespace Stops

variable [DecidableEq K]

def step (s : Stops K) : StopLabel K → Option (Stops K)
| .call key timeout =>
    some
      { s with
        calls :=
          s.calls ++
            [{ key := key
               timeout := timeout
               ctxErr := none
               phase := .begun
               made := s.set.attempts }] }
| .cancel i err =>
    match s.calls[i]? with
    | none => none
    | some c =>
        if c.ctxErr = none then
          some
            { s with
              calls := s.calls.set i { c with ctxErr := some err } }
        else none
| .turn i way =>
    match s.calls[i]? with
    | none => none
    | some c =>
        match s.set.turn c way with
        | none => none
        | some (set, phase) =>
            some
              { set := set
                calls := s.calls.set i { c with phase := phase } }
| .work a result =>
    (s.set.work a result).map (fun set => { s with set := set })

end Stops

def stopping (K : Type) [DecidableEq K] :
    System (Stops K) (StopLabel K) where
  init := fun s => s = ⟨⟨∅, []⟩, []⟩
  step := Stops.step

------------------------------------------------------------
-- Attempts Go On
------------------------------------------------------------

/- The attempt may have gone on, but not back into the map. -/
structure StopAttempt.Goes (t u : StopAttempt K) : Prop where
  key : u.key = t.key
  pending : u.phase.Pending → t.phase.Pending
  closed : ∀ err, t.phase = .closed err → u.phase = .closed err

def Onward (old new : List (StopAttempt K)) : Prop :=
  ∀ (a : Nat) (t : StopAttempt K), old[a]? = some t →
    ∃ u, new[a]? = some u ∧ t.Goes u

theorem StopAttempt.Goes.refl (t : StopAttempt K) : t.Goes t :=
  ⟨rfl, id, fun _ h => h⟩

theorem StopAttempt.Goes.trans
    {t u v : StopAttempt K}
    (h : t.Goes u)
    (h' : u.Goes v) :
    t.Goes v :=
  ⟨h'.key.trans h.key, fun hv => h.pending (h'.pending hv),
    fun err ht => h'.closed err (h.closed err ht)⟩

namespace Onward

variable {old mid new : List (StopAttempt K)}

theorem refl (old : List (StopAttempt K)) : Onward old old :=
  fun _ t ht => ⟨t, ht, .refl t⟩

theorem trans
    (h : Onward old mid)
    (h' : Onward mid new) :
    Onward old new := by
  intro a t ht
  rcases h a t ht with ⟨u, hu, hGoes⟩
  rcases h' a u hu with ⟨v, hv, hGoes'⟩
  exact ⟨v, hv, hGoes.trans hGoes'⟩

theorem append
    (old more : List (StopAttempt K)) :
    Onward old (old ++ more) := by
  intro a t ht
  refine ⟨t, ?_, .refl t⟩
  rw [List.getElem?_append_left (List.getElem?_eq_some_iff.mp ht).1]
  exact ht

theorem set
    {a : Nat}
    {t u : StopAttempt K}
    (ht : old[a]? = some t)
    (hGoes : t.Goes u) :
    Onward old (old.set a u) := by
  intro b v hv
  by_cases hEq : a = b
  · subst hEq
    cases ht.symm.trans hv
    refine ⟨u, ?_, hGoes⟩
    exact List.getElem?_set_self (List.getElem?_eq_some_iff.mp ht).1
  · refine ⟨v, ?_, .refl v⟩
    rw [List.getElem?_set_ne hEq]
    exact hv

end Onward

------------------------------------------------------------
-- What Is Kept
------------------------------------------------------------

/- The attempt that a call has joined. -/
def WaitPhase.attempt : WaitPhase → Option Nat
| .waiting a => some a
| .returned a _ => a
| _ => none

/- What holds of an attempt that a call has joined. -/
structure StopCall.Joined
    (c : StopCall K)
    (attempts : List (StopAttempt K))
    (a : Nat) : Prop where
  found : ∃ t, attempts[a]? = some t ∧ t.key = c.key
  heard :
    ∀ err, c.phase = .returned (some a) err →
      ∃ t, attempts[a]? = some t ∧ t.phase = .closed err
  made : ∀ t, c.made[a]? = some t → t.phase.Pending

/- A call saw the attempts earlier, and joined a pending one. -/
structure StopCall.Kept
    (c : StopCall K)
    (attempts : List (StopAttempt K)) : Prop where
  since : Onward c.made attempts
  joined : ∀ a, c.phase.attempt = some a → c.Joined attempts a

/- The attempt is for the key and has not been retired. -/
def Held
    (attempts : List (StopAttempt K))
    (key : K)
    (a : Nat) : Prop :=
  ∃ t, attempts[a]? = some t ∧ t.key = key ∧ t.phase.Pending

/- The map holds the attempts that have not been retired. -/
def StopSet.Exact [DecidableEq K] (s : StopSet K) : Prop :=
  ∀ key a, s.pending.lookup key = some a ↔ Held s.attempts key a

structure Stops.Kept [DecidableEq K] (s : Stops K) : Prop where
  exact : s.set.Exact
  calls : ∀ c ∈ s.calls, c.Kept s.set.attempts

theorem StopCall.Kept.onward
    {c : StopCall K}
    {old new : List (StopAttempt K)}
    (h : c.Kept old)
    (hOn : Onward old new) :
    c.Kept new := by
  refine ⟨h.since.trans hOn, fun a ha => ?_⟩
  rcases h.joined a ha with ⟨⟨t, ht, hKey⟩, hHeard, hMade⟩
  refine ⟨?_, fun err hErr => ?_, hMade⟩
  · rcases hOn a t ht with ⟨u, hu, hGoes⟩
    exact ⟨u, hu, hGoes.key.trans hKey⟩
  · rcases hHeard err hErr with ⟨v, hv, hClosed⟩
    rcases hOn a v hv with ⟨u, hu, hGoes⟩
    exact ⟨u, hu, hGoes.closed err hClosed⟩

/- A pending attempt was pending when the call was made. -/
theorem StopCall.Kept.pending_made
    {c : StopCall K}
    {attempts : List (StopAttempt K)}
    (h : c.Kept attempts)
    {a : Nat}
    {t : StopAttempt K}
    (ht : attempts[a]? = some t)
    (hPending : t.phase.Pending)
    (u : StopAttempt K)
    (hu : c.made[a]? = some u) :
    u.phase.Pending := by
  rcases h.since a u hu with ⟨v, hv, hGoes⟩
  cases ht.symm.trans hv
  exact hGoes.pending hPending

/- A new attempt is held for its key. -/
theorem held_append
    {attempts : List (StopAttempt K)}
    {key new : K}
    {a : Nat} :
    Held (attempts ++ [⟨new, .running⟩]) key a ↔
      Held attempts key a ∨ new = key ∧ a = attempts.length := by
  unfold Held
  rcases Nat.lt_trichotomy a attempts.length with hLt | rfl | hGt
  · rw [List.getElem?_append_left hLt]
    simp only [Nat.ne_of_lt hLt, and_false, or_false]
  · rw [List.getElem?_concat_length,
      List.getElem?_eq_none (Nat.le_refl _)]
    simp [StopPhase.Pending]
  · rw [List.getElem?_eq_none hGt.le,
      List.getElem?_eq_none (by simpa using Nat.succ_le_of_lt hGt)]
    simp only [Nat.ne_of_gt hGt, and_false, or_false]

/- Another attempt is held as before. -/
theorem held_set
    {attempts : List (StopAttempt K)}
    {key : K}
    {a b : Nat}
    {t u : StopAttempt K}
    (ht : attempts[a]? = some t) :
    Held (attempts.set a u) key b ↔
      if b = a then u.key = key ∧ u.phase.Pending
      else Held attempts key b := by
  unfold Held
  split
  · rename_i hEq
    have hLt := (List.getElem?_eq_some_iff.mp ht).1
    rw [hEq, List.getElem?_set_self hLt]
    simp
  · rename_i hNe
    rw [List.getElem?_set_ne (Ne.symm hNe)]

theorem held_self
    {attempts : List (StopAttempt K)}
    {key : K}
    {a : Nat}
    {t : StopAttempt K}
    (ht : attempts[a]? = some t) :
    Held attempts key a ↔ t.key = key ∧ t.phase.Pending := by
  simp [Held, ht]

/- A call hears from its own attempt when that is closed. -/
theorem StopSet.select_cases
    {s : StopSet K}
    {a : Nat}
    {c : StopCall K}
    {way : SelectCase}
    {phase : WaitPhase}
    (hSelect : s.select c a way = some phase) :
    (∃ t err, s.attempts[a]? = some t ∧ t.phase = .closed err ∧
        phase = .returned (some a) err) ∨
      ∃ err, phase = .returned none err := by
  cases way with
  | done =>
      simp only [StopSet.select] at hSelect
      split at hSelect
      · rename_i key err ht
        cases hSelect
        exact Or.inl ⟨_, err, ht, rfl, rfl⟩
      · cases hSelect
  | context =>
      rcases Option.map_eq_some_iff.mp hSelect with ⟨err, _, rfl⟩
      exact Or.inr ⟨_, rfl⟩
  | timer =>
      simp only [StopSet.select] at hSelect
      split at hSelect
      · cases hSelect
        exact Or.inr ⟨_, rfl⟩
      · cases hSelect

namespace StopSet

variable [DecidableEq K]
variable {s s' : StopSet K}
variable {a : Nat}
variable {key : K}
variable {t u : StopAttempt K}

/- The call is in the pending attempt of its key. -/
theorem join_rule
    (h : s.Exact)
    (key : K) :
    (s.join key).2.Exact ∧
      Onward s.attempts (s.join key).2.attempts ∧
      Held (s.join key).2.attempts key (s.join key).1 := by
  unfold join
  split
  · rename_i a hPending
    exact ⟨h, .refl _, (h key a).mp hPending⟩
  · rename_i hNone
    refine ⟨?_, .append _ _, held_append.mpr (Or.inr ⟨rfl, rfl⟩)⟩
    intro key' b
    rw [held_append, ← h key' b]
    by_cases hKey : key' = key
    · subst hKey
      rw [AList.lookup_insert, hNone]
      simp [eq_comm]
    · rw [AList.lookup_insert_ne hKey]
      simp [Ne.symm hKey]

/- An attempt goes on and stays as it is in the map. -/
theorem Exact.set
    (h : s.Exact)
    (ht : s.attempts[a]? = some t)
    (hKey : u.key = t.key)
    (hPending : u.phase.Pending ↔ t.phase.Pending) :
    Exact { s with attempts := s.attempts.set a u } := by
  intro key b
  rw [held_set ht, h key b]
  split
  · rename_i hEq
    rw [hEq, held_self ht, hKey, hPending]
  · rfl

/- An attempt is taken out of the map. -/
theorem Exact.retire
    (h : s.Exact)
    (ht : s.attempts[a]? = some t)
    (hWas : t.phase.Pending)
    (hGone : ¬ u.phase.Pending) :
    Exact
      { pending := s.pending.erase t.key
        attempts := s.attempts.set a u } := by
  have hOwn : s.pending.lookup t.key = some a :=
    (h t.key a).mpr ((held_self ht).mpr ⟨rfl, hWas⟩)
  intro key b
  rw [held_set ht]
  by_cases hKey : key = t.key
  · rw [hKey, AList.lookup_erase]
    refine iff_of_false nofun ?_
    split
    · exact fun hu => hGone hu.2
    · rename_i hNe
      intro hb
      have hTwo := (h t.key b).mpr hb
      rw [hOwn] at hTwo
      exact hNe (Option.some.inj hTwo).symm
  · rw [AList.lookup_erase_ne hKey, h key b]
    split
    · rename_i hEq
      rw [hEq, held_self ht]
      exact iff_of_false (fun ha => hKey ha.1.symm)
        (fun hu => hGone hu.2)
    · rfl

/- An attempt goes on, and leaves the map if it is retired. -/
theorem work_rule
    (h : s.Exact)
    {result : Option String}
    (hWork : s.work a result = some s') :
    s'.Exact ∧ Onward s.attempts s'.attempts := by
  unfold work at hWork
  split at hWork
  · cases hWork
  · rename_i t ht
    split at hWork
    · rename_i hPhase
      cases hWork
      refine ⟨h.set ht rfl ?_, .set ht ⟨rfl, ?_, ?_⟩⟩ <;>
        simp [hPhase, StopPhase.Pending]
    · rename_i err hPhase
      cases hWork
      refine ⟨h.retire ht ?_ ?_, .set ht ⟨rfl, ?_, ?_⟩⟩ <;>
        simp [hPhase, StopPhase.Pending]
    · rename_i err hPhase
      cases hWork
      refine ⟨h.set ht rfl ?_, .set ht ⟨rfl, ?_, ?_⟩⟩ <;>
        simp [hPhase, StopPhase.Pending]
    · cases hWork

end StopSet

------------------------------------------------------------
-- One Attempt At A Time
------------------------------------------------------------

variable [DecidableEq K]

/- One step of a call. -/
theorem StopSet.turn_rule
    {s s' : StopSet K}
    {c : StopCall K}
    {way : SelectCase}
    {phase : WaitPhase}
    (h : s.Exact)
    (hc : c.Kept s.attempts)
    (hTurn : s.turn c way = some (s', phase)) :
    s'.Exact ∧ Onward s.attempts s'.attempts ∧
      StopCall.Kept { c with phase := phase } s'.attempts := by
  unfold StopSet.turn at hTurn
  split at hTurn
  · -- the context is looked at
    split at hTurn <;>
    · cases hTurn
      exact ⟨h, .refl _, hc.since, nofun⟩
  · -- an attempt is joined or made
    cases hTurn
    rcases StopSet.join_rule h c.key with
      ⟨hExact, hOn, t, ht, hKey, hPending⟩
    refine ⟨hExact, hOn, hc.since.trans hOn, ?_⟩
    rintro a ha
    cases ha
    have hMade := (hc.onward hOn).pending_made ht hPending
    exact ⟨⟨t, ht, hKey⟩, nofun, hMade⟩
  · -- the select goes on
    rename_i a hPhase
    rcases Option.map_eq_some_iff.mp hTurn with ⟨phase', hSelect, hEq⟩
    cases hEq
    have hJoined := hc.joined a (by rw [hPhase]; rfl)
    refine ⟨h, .refl _, hc.since, fun b hb => ?_⟩
    rcases StopSet.select_cases hSelect with
      ⟨t, err, ht, hClosed, rfl⟩ | ⟨err, rfl⟩
    · cases hb
      refine ⟨hJoined.found, ?_, hJoined.made⟩
      rintro err' hErr
      cases hErr
      exact ⟨t, ht, hClosed⟩
    · cases hb
  · cases hTurn

theorem Stops.Kept.step
    {s s' : Stops K}
    (h : s.Kept)
    {l : StopLabel K}
    (hStep : s.step l = some s') :
    s'.Kept := by
  cases l with
  | call key timeout =>
      cases hStep
      refine ⟨h.exact, fun c hc => ?_⟩
      rcases List.mem_append.mp hc with hOld | hNew
      · exact h.calls c hOld
      · rw [List.mem_singleton.mp hNew]
        exact ⟨.refl _, nofun⟩
  | cancel i err =>
      simp only [Stops.step] at hStep
      split at hStep
      · cases hStep
      · rename_i c hc
        split at hStep
        · cases hStep
          refine ⟨h.exact, fun d hd => ?_⟩
          rcases List.mem_or_eq_of_mem_set hd with hOld | rfl
          · exact h.calls d hOld
          · have hKept := h.calls c (List.mem_of_getElem? hc)
            exact ⟨hKept.since, fun a ha =>
              ⟨(hKept.joined a ha).found, (hKept.joined a ha).heard,
                (hKept.joined a ha).made⟩⟩
        · cases hStep
  | turn i way =>
      simp only [Stops.step] at hStep
      split at hStep
      · cases hStep
      · rename_i c hc
        split at hStep
        · cases hStep
        · rename_i set phase hTurn
          cases hStep
          have hKept := h.calls c (List.mem_of_getElem? hc)
          rcases StopSet.turn_rule h.exact hKept hTurn with
            ⟨hExact, hOn, hCall⟩
          refine ⟨hExact, fun d hd => ?_⟩
          rcases List.mem_or_eq_of_mem_set hd with hOld | rfl
          · exact (h.calls d hOld).onward hOn
          · exact hCall
  | work a result =>
      rcases Option.map_eq_some_iff.mp hStep with ⟨set, hWork, rfl⟩
      rcases StopSet.work_rule h.exact hWork with ⟨hExact, hOn⟩
      exact ⟨hExact, fun c hc => (h.calls c hc).onward hOn⟩

/-
  In every order of calls, cancellations, timers and returns:
  at most one stop function runs for a key; a call that returns
  the result of an attempt has that of an attempt for its key
  which had not been retired when the call was made, or which
  is later; and the map holds a key while its attempt has not
  been retired.
-/
theorem Stops.one_attempt
    {s : Stops K}
    (h : (stopping K).Reachable s) :
    (∀ (a b : Nat) (t u : StopAttempt K),
        s.set.attempts[a]? = some t → s.set.attempts[b]? = some u →
        t.key = u.key → t.phase = .running → u.phase = .running →
        a = b) ∧
      (∀ c ∈ s.calls, ∀ a err, c.phase = .returned (some a) err →
        ∃ t, s.set.attempts[a]? = some t ∧ t.key = c.key ∧
          t.phase = .closed err ∧
          ∀ u, c.made[a]? = some u → u.phase.Pending) ∧
      ∀ key a, s.set.pending.lookup key = some a ↔
        ∃ t, s.set.attempts[a]? = some t ∧ t.key = key ∧
          t.phase.Pending := by
  have hKept : s.Kept := by
    refine System.reachable_invariant ?_ ?_ h
    · rintro s rfl
      refine ⟨fun key a => ?_, nofun⟩
      simp [Held]
    · exact fun s l t _ hs hStep => hs.step hStep
  refine ⟨?_, fun c hc a err hPhase => ?_, hKept.exact⟩
  · intro a b t u ht hu hKey hRuns hRuns'
    have hPending : t.phase.Pending ∧ u.phase.Pending := by
      rw [hRuns, hRuns']
      exact ⟨trivial, trivial⟩
    have ha := (hKept.exact t.key a).mpr ⟨t, ht, rfl, hPending.1⟩
    have hb := (hKept.exact t.key b).mpr ⟨u, hu, hKey.symm, hPending.2⟩
    exact Option.some.inj (ha.symm.trans hb)
  · rcases (hKept.calls c hc).joined a (by rw [hPhase]; rfl) with
      ⟨⟨t, ht, hKey⟩, hHeard, hMade⟩
    rcases hHeard err hPhase with ⟨u, hu, hClosed⟩
    cases ht.symm.trans hu
    exact ⟨t, ht, hKey, hClosed, hMade⟩

/- The second call times out, and the third joins the attempt. -/
def joinedRun : List (StopLabel String) :=
  [.call "a" 0, .turn 0 .done, .turn 0 .done,
    .call "a" 5, .turn 1 .done, .turn 1 .done, .turn 1 .timer,
    .call "a" 0, .turn 2 .done, .turn 2 .done,
    .work 0 (some "busy"), .work 0 none, .work 0 none,
    .turn 2 .done]

/-
  The stop function has returned when the second call is made,
  and its attempt is still in the map.
-/
def returnedRun : List (StopLabel String) :=
  [.call "a" 0, .turn 0 .done, .turn 0 .done,
    .work 0 (some "busy"),
    .call "a" 0, .turn 1 .done, .turn 1 .done,
    .work 0 none, .work 0 none, .turn 1 .done]

theorem one_attempt_joined :
    ∃ s c t, (stopping String).Reachable s ∧ c ∈ s.calls ∧
      c.phase = .returned (some 0) (some "busy") ∧
      s.set.attempts[0]? = some t ∧ t.key = c.key ∧
      ∀ u, c.made[0]? = some u → u.phase.Pending := by
  have hRun :
      ((stopping String).run ⟨⟨∅, []⟩, []⟩ joinedRun).bind
          (fun s => s.calls[2]?.map (·.phase)) =
        some (.returned (some 0) (some "busy")) := by
    decide +kernel
  rcases Option.bind_eq_some_iff.mp hRun with ⟨s, hs, hCall⟩
  rcases Option.map_eq_some_iff.mp hCall with ⟨c, hc, hPhase⟩
  have hReach := System.reachable_of_run joinedRun rfl hs
  have hMem := List.mem_of_getElem? hc
  rcases (Stops.one_attempt hReach).2.1 c hMem 0 _ hPhase with
    ⟨t, ht, hKey, _, hMade⟩
  exact ⟨s, c, t, hReach, hMem, hPhase, ht, hKey, hMade⟩

theorem returned_attempt_joined :
    ∃ s c, (stopping String).Reachable s ∧ c ∈ s.calls ∧
      c.phase = .returned (some 0) (some "busy") ∧
      c.made[0]? = some ⟨"a", .returned (some "busy")⟩ := by
  have hRun :
      ((stopping String).run ⟨⟨∅, []⟩, []⟩ returnedRun).bind
          (fun s => s.calls[1]?.map (fun c => (c.phase, c.made[0]?))) =
        some (.returned (some 0) (some "busy"),
          some ⟨"a", .returned (some "busy")⟩) := by
    decide +kernel
  rcases Option.bind_eq_some_iff.mp hRun with ⟨s, hs, hCall⟩
  rcases Option.map_eq_some_iff.mp hCall with ⟨c, hc, hEq⟩
  rcases Prod.mk.inj hEq with ⟨hPhase, hMade⟩
  exact ⟨s, c, System.reachable_of_run returnedRun rfl hs,
    List.mem_of_getElem? hc, hPhase, hMade⟩

end Manager

end Winunitd
