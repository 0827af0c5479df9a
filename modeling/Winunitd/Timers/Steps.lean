import Winunitd.Timers.Work

/-
  What the steps of the timer engine can do.

  Each handler finds one timer, changes it and plans it again.
  The lemmas here say so once: a plan changes the queue and the
  plan fields of its timer, and each handler is one of a few
  cases, with the guards it has checked.

  Key definitions include:
    * `SameArm`
    * `Engine.Kept`
    * `Engine.FireMove`, `Engine.LoadMove`
    * `Engine.Carries`, `Engine.Reworks`

  Key theorems include:
    * `Engine.rescheduleLocked_eq`
    * `Engine.launch_eq`
    * `Engine.arm_cases`, `Engine.planPublish_cases`
    * `Engine.fireDone_rule`, `Engine.loadApply_rule`
    * `Engine.fireStep_move`, `Engine.resultStep_move`
    * `Engine.Carries.step`, `Engine.Reworks.step`
    * `Engine.kept_reschedule`, `Engine.kept_noteActive`
-/

------------------------------------------------------------
-- Armed Timers
------------------------------------------------------------

namespace Winunitd

namespace Timers

variable {K : Type}

namespace Engine

variable {s : Engine K}

variable {a : Armed K}
variable {name : String}

theorem name_of_find
    (h : s.find name = some a) :
    a.name = name := by
  unfold find at h
  exact Lib.Keyed.key_of_find h

theorem mem_of_find
    (h : s.find name = some a) :
    a ∈ s.armed :=
  Lib.Keyed.mem_of_find h

theorem find_put_self
    {a b : Armed K}
    (h : s.find a.name = some b) :
    (s.put a).find a.name = some a := by
  unfold find at h
  unfold find put
  rw [Lib.Keyed.find_modify_self (fun _ _ => rfl), h]
  rfl

theorem find_put_ne
    (h : name ≠ a.name) :
    (s.put a).find name = s.find name := by
  unfold find put
  exact Lib.Keyed.find_modify_ne (fun _ _ => rfl) h s.armed

/- Only counters, the armed timers and the loader change. -/
theorem enrol_eq
    (s : Engine K)
    (nextRef : Nat)
    (arms : List (Armed K))
    (load : Prop)
    [Decidable load] :
    ∃ loader,
      (loader = s.loader ∨ loader = some .pick) ∧
      s.enrol nextRef arms load =
        { s with
          nextArm := s.nextArm + 1
          nextRef := nextRef
          armed := arms
          loader := loader } := by
  unfold enrol startLoader
  dsimp only
  split
  · split
    · exact ⟨_, Or.inr rfl, rfl⟩
    · exact ⟨s.loader, Or.inl rfl, rfl⟩
  · exact ⟨s.loader, Or.inl rfl, rfl⟩

theorem refreshed_eq
    (a : Armed K)
    (token : Nat)
    (spec : Spec K) :
    ∃ loading error,
      refreshed a token spec =
        { a with
          token := token
          firing := false
          retry := none
          spec := spec
          loading := loading
          storageError := error } := by
  unfold refreshed
  dsimp only
  split
  · exact ⟨_, _, rfl⟩
  · exact ⟨a.loading, a.storageError, rfl⟩

/- A timer is armed under a new name. -/
theorem find_append
    (hNew : s.find a.name = none)
    (name : String) :
    find { s with armed := s.armed ++ [a] } name =
      if name = a.name then some a else s.find name := by
  unfold find at hNew ⊢
  unfold Lib.Keyed.find at hNew ⊢
  rw [List.find?_append]
  by_cases hName : name = a.name
  · subst hName
    rw [hNew, if_pos rfl]
    simp
  · have hOther : a.name ≠ name := Ne.symm hName
    rw [if_neg hName]
    simp [hOther]

theorem names_put
    (a : Armed K) :
    (s.put a).names = s.names := by
  unfold names put
  exact Lib.Keyed.map_key_modify (fun _ _ => rfl)

end Engine

------------------------------------------------------------
-- Plans
------------------------------------------------------------

/- The same timer, but for its plan. -/
structure SameArm (a a' : Armed K) : Prop where
  ref : a'.ref = a.ref
  loading : a'.loading = a.loading
  storageError : a'.storageError = a.storageError
  firing : a'.firing = a.firing
  retry : a'.retry = a.retry
  token : a'.token = a.token
  spec : a'.spec = a.spec
  rt : a'.rt = a.rt

theorem SameArm.name
    {a a' : Armed K}
    (h : SameArm a a') :
    a'.name = a.name := by
  rw [Armed.name, h.spec]

namespace Engine

variable {s : Engine K}

/- A new plan is made in the queue and in the timer alone. -/
theorem reschedule_cases
    [Calendar K]
    (s : Engine K)
    (a : Armed K) :
    ∃ a' p, SameArm a a' ∧ a'.item = none ∧
      a'.gen = s.nextGen + 1 ∧
      (a'.planning = true → a.loading = false ∧ a.storageError = "") ∧
      ((p = s.planner ∨ p = some .pick) ∧
          s.reschedule a =
            ({ s with
                pq := s.dequeued a
                nextGen := s.nextGen + 1
                planner := p },
              a') ∨
        a'.planning = false ∧ a.loading = false ∧
          a.storageError = "" ∧
          ∃ when,
            ((∃ d : Int, when = s.clock.now + d) ∨
              (nextDeadline a.spec a.rt s.clock).next = some when) ∧
            s.reschedule a =
              { s with
                pq := s.dequeued a
                nextGen := s.nextGen + 1 }.enqueue a' when a'.gen) := by
  unfold reschedule removeDeadline
  dsimp only
  split
  · refine ⟨_, s.planner, ?_, ?_, ?_, ?_, Or.inl ⟨Or.inl rfl, rfl⟩⟩
    · exact ⟨rfl, rfl, rfl, rfl, rfl, rfl, rfl, rfl⟩
    · rfl
    · rfl
    · exact fun hPlan => by cases hPlan
  · rename_i hReady
    rw [not_or, Bool.not_eq_true, not_not] at hReady
    split
    · refine ⟨_, s.planner, ?_, ?_, ?_, fun _ => hReady,
        Or.inr ⟨?_, hReady.1, hReady.2, _, Or.inl ⟨_, rfl⟩, rfl⟩⟩
      · exact ⟨rfl, rfl, rfl, rfl, rfl, rfl, rfl, rfl⟩
      · rfl
      · rfl
      · rfl
    · split
      · unfold startPlanner
        dsimp only
        split
        · refine ⟨_, _, ?_, ?_, ?_, fun _ => hReady,
            Or.inl ⟨Or.inr rfl, rfl⟩⟩
          · exact ⟨rfl, rfl, rfl, rfl, rfl, rfl, rfl, rfl⟩
          · rfl
          · rfl
        · refine ⟨_, s.planner, ?_, ?_, ?_, fun _ => hReady,
            Or.inl ⟨Or.inl rfl, rfl⟩⟩
          · exact ⟨rfl, rfl, rfl, rfl, rfl, rfl, rfl, rfl⟩
          · rfl
          · rfl
      · split
        · rename_i hNext
          refine ⟨_, s.planner, ?_, ?_, ?_, fun _ => hReady,
            Or.inr ⟨?_, hReady.1, hReady.2, _, Or.inr hNext, rfl⟩⟩
          · exact ⟨rfl, rfl, rfl, rfl, rfl, rfl, rfl, rfl⟩
          · rfl
          · rfl
          · rfl
        · refine ⟨_, s.planner, ?_, ?_, ?_, fun _ => hReady,
            Or.inl ⟨Or.inl rfl, rfl⟩⟩
          · exact ⟨rfl, rfl, rfl, rfl, rfl, rfl, rfl, rfl⟩
          · rfl
          · rfl

/- What a new plan can change. -/
theorem rescheduleLocked_eq
    [Calendar K]
    (s : Engine K)
    (a : Armed K) :
    ∃ a' pq items nextItem p, SameArm a a' ∧
      a'.gen = s.nextGen + 1 ∧
      s.rescheduleLocked a =
        { s with
          pq := pq
          items := items
          nextItem := nextItem
          nextGen := s.nextGen + 1
          planner := p
          armed := (s.put a').armed } := by
  unfold rescheduleLocked
  rcases reschedule_cases s a with
    ⟨a', p, hSame, _, hGen, _, ⟨_, hEq⟩ | ⟨_, _, _, when, _, hEq⟩⟩
  · rw [hEq]
    exact ⟨a', _, _, _, p, hSame, hGen, rfl⟩
  · rw [hEq]
    refine ⟨_, _, _, _, s.planner, ?_, ?_, rfl⟩
    · exact { hSame with }
    · exact hGen

/- Everything but the armed timers, the queue and the planner. -/
structure Kept (s s' : Engine K) : Prop where
  clock : s'.clock = s.clock
  nextRef : s'.nextRef = s.nextRef
  nextActivation : s'.nextActivation = s.nextActivation
  nextArm : s'.nextArm = s.nextArm
  clockGen : s'.clockGen = s.clockGen
  activeFires : s'.activeFires = s.activeFires
  running : s'.running = s.running
  loader : s'.loader = s.loader
  storageIO : s'.storageIO = s.storageIO
  disk : s'.disk = s.disk
  fires : s'.fires = s.fires
  results : s'.results = s.results
  saved : s'.saved = s.saved
  consumed : s'.consumed = s.consumed

theorem Kept.refl
    (s : Engine K) :
    s.Kept s :=
  ⟨rfl, rfl, rfl, rfl, rfl, rfl, rfl, rfl, rfl, rfl, rfl, rfl, rfl, rfl⟩

theorem kept_reschedule
    [Calendar K]
    (s : Engine K)
    (a : Armed K) :
    s.Kept (s.rescheduleLocked a) := by
  rcases rescheduleLocked_eq s a with ⟨_, _, _, _, _, _, _, hEq⟩
  rw [hEq]
  exact { Kept.refl s with }

/- The timer that is planned again, and the others. -/
theorem find_reschedule_self
    [Calendar K]
    {a b : Armed K}
    (h : s.find a.name = some b) :
    (s.rescheduleLocked a).find a.name = some (s.reschedule a).2 ∧
      SameArm a (s.reschedule a).2 := by
  rcases reschedule_cases s a with
    ⟨a', p, hSame, _, _, _, ⟨_, hEq⟩ | ⟨_, _, _, when, _, hEq⟩⟩
  · unfold rescheduleLocked
    rw [hEq, ← hSame.name]
    rw [← hSame.name] at h
    exact ⟨find_put_self h, hSame⟩
  · unfold rescheduleLocked
    rw [hEq, ← hSame.name]
    rw [← hSame.name] at h
    refine ⟨find_put_self (a := (enqueue _ a' when a'.gen).2) h, ?_⟩
    exact { hSame with }

variable {name : String}
variable {a : Armed K}

theorem find_reschedule_ne
    [Calendar K]
    (h : name ≠ a.name) :
    (s.rescheduleLocked a).find name = s.find name := by
  rcases rescheduleLocked_eq s a with
    ⟨a', pq, items, k, p, hSame, _, hEq⟩
  rw [hEq]
  rw [← hSame.name] at h
  exact find_put_ne h

variable {Q : String → Armed K → Prop}

/-
  What holds of every timer and of the changed one, whatever
  its plan, holds afterwards.
-/
theorem forall_put
    {a b : Armed K}
    (h : ∀ name a, s.find name = some a → Q name a)
    (hFind : s.find a.name = some b)
    (ha : Q a.name a) :
    ∀ name c, (s.put a).find name = some c → Q name c := by
  intro name c hc
  by_cases hName : name = a.name
  · subst hName
    rw [find_put_self hFind] at hc
    cases hc
    exact ha
  · rw [find_put_ne hName] at hc
    exact h name c hc

theorem forall_reschedule
    [Calendar K]
    {a b : Armed K}
    (hSame : ∀ name a a', SameArm a a' → Q name a → Q name a')
    (h : ∀ name a, s.find name = some a → Q name a)
    (hFind : s.find a.name = some b)
    (ha : Q a.name a) :
    ∀ name c, (s.rescheduleLocked a).find name = some c →
      Q name c := by
  intro name c hc
  by_cases hName : name = a.name
  · subst hName
    rcases find_reschedule_self hFind with ⟨hFound, hPlan⟩
    rw [hFound] at hc
    cases hc
    exact hSame _ a _ hPlan ha
  · rw [find_reschedule_ne hName] at hc
    exact h name c hc

theorem find_disarm_ne
    {name other : String}
    (h : other ≠ name) :
    (s.disarm name).find other = s.find other := by
  unfold disarm
  split
  · rfl
  · exact Lib.Keyed.find_remove_ne h s.armed

/- The timers that are left are as they were. -/
theorem find_disarm
    {name other : String}
    (h : (s.disarm name).find other = some a) :
    s.find other = some a ∧ (other = name → s.find name = none) := by
  unfold disarm at h
  split at h
  · rename_i hNone
    exact ⟨h, fun _ => hNone⟩
  · have hFind :
        Lib.Keyed.find Armed.name other
          (Lib.Keyed.remove Armed.name name s.armed) = some a := h
    by_cases hName : other = name
    · subst hName
      rw [Lib.Keyed.find_remove_self] at hFind
      cases hFind
    · rw [Lib.Keyed.find_remove_ne hName] at hFind
      exact ⟨hFind, fun hEq => absurd hEq hName⟩

------------------------------------------------------------
-- Fires
------------------------------------------------------------

/- Acceptance changes the record and the retry alone. -/
theorem accept_arm
    (cfg : Config)
    (a : Armed K)
    (due : DueTimer)
    (actual : Time) :
    ∃ rt, (s.accept cfg a due actual).2.1 =
      { a with retry := none, rt := rt } := by
  unfold accept
  split
  · exact ⟨_, rfl⟩
  · rename_i hRetry
    split
    · exact ⟨_, by rw [← hRetry]⟩
    · exact ⟨_, by rw [← hRetry]⟩

theorem accept_active
    (cfg : Config)
    (a : Armed K)
    (due : DueTimer)
    (actual : Time) :
    (s.accept cfg a due actual).2.1.rt.lastUnitActive =
      a.rt.lastUnitActive := by
  unfold accept
  split
  · dsimp only
    split <;> rfl
  · dsimp only
    split <;> rfl

/- What the start of a callback can change. -/
theorem launch_eq
    [Calendar K]
    (cfg : Config)
    (s : Engine K)
    (a : Armed K)
    (due : DueTimer)
    (actual : Time) :
    ∃ rt a' n event pq items nextItem nextGen p,
      (s.accept cfg a due actual).1 = event ∧
      (s.accept cfg a due actual).2.1.rt = rt ∧
      SameArm { a with retry := none, rt := rt, firing := true } a' ∧
      s.launch cfg a due actual =
        { s with
          nextActivation := n
          activeFires := s.activeFires + 1
          fires :=
            s.fires ++
              [{ event := event
                 rt := rt
                 ref := a.ref
                 phase := .check }]
          consumed := s.consumed ++ [s.taken a event]
          pq := pq
          items := items
          nextItem := nextItem
          nextGen := nextGen
          planner := p
          armed := (s.put a').armed } := by
  rcases accept_arm (s := s) cfg a due actual with ⟨rt, hArm⟩
  unfold launch
  dsimp only
  rw [hArm]
  split
  · rcases rescheduleLocked_eq
        { s with
          nextActivation := (s.accept cfg a due actual).2.2
          activeFires := s.activeFires + 1
          fires :=
            s.fires ++
              [{ event := (s.accept cfg a due actual).1
                 rt := rt
                 ref := a.ref
                 phase := .check }]
          consumed :=
            s.consumed ++
              [s.taken a (s.accept cfg a due actual).1] }
        { a with retry := none, rt := rt, firing := true } with
      ⟨a', pq, items, k, p, hSame, _, hEq⟩
    exact ⟨rt, a', _, _, pq, items, k, _, p, rfl, rfl, hSame, hEq⟩
  · exact ⟨rt, _, _, _, _, _, _, _, _, rfl, rfl,
      ⟨rfl, rfl, rfl, rfl, rfl, rfl, rfl, rfl⟩, rfl⟩

------------------------------------------------------------
-- Requests
------------------------------------------------------------

theorem arm_cases
    [Calendar K]
    (cfg : Config)
    (s : Engine K)
    (spec : Spec K) :
    s.arm cfg spec = s ∨
      ∃ loader, s.running = true ∧
        (loader = s.loader ∨ loader = some .pick) ∧
        ((∃ a, s.find spec.name = some a ∧
            s.arm cfg spec =
              { s with
                nextArm := s.nextArm + 1
                loader := loader }.rescheduleLocked
                (refreshed a (s.nextArm + 1) spec)) ∨
          s.find spec.name = none ∧
            s.arm cfg spec =
              { s with
                nextArm := s.nextArm + 1
                nextRef := s.nextRef + 1
                armed := s.armed ++ [newArm cfg s spec]
                loader := loader }.rescheduleLocked
                (newArm cfg s spec)) := by
  unfold arm
  split
  · exact Or.inl rfl
  · rename_i hValid
    rw [not_or, not_or, Bool.not_eq_false] at hValid
    split
    · rename_i a hFind
      rcases enrol_eq s s.nextRef s.armed (NeedsLoad a) with
        ⟨loader, hLoader, hEnrol⟩
      rw [hEnrol]
      exact Or.inr
        ⟨loader, hValid.2.2, hLoader, Or.inl ⟨a, hFind, rfl⟩⟩
    · rename_i hNew
      split
      · exact Or.inl rfl
      · rcases enrol_eq s (s.nextRef + 1)
            (s.armed ++ [newArm cfg s spec]) (cfg.stored = true) with
          ⟨loader, hLoader, hEnrol⟩
        rw [hEnrol]
        exact Or.inr
          ⟨loader, hValid.2.2, hLoader, Or.inr ⟨hNew, rfl⟩⟩

------------------------------------------------------------
-- Workers
------------------------------------------------------------

/- An invalid record has a text. -/
theorem invalid_text
    {rt : Runtime} :
    rt.invalid ≠ some "" := by
  unfold Runtime.invalid validateActivation
  split
  · simp
  · split
    · simp
    · split
      · simp
      · simp

variable {cfg : Config}

theorem load_text
    {r : StoreResult} :
    s.load cfg name r ≠ some (.error "") := by
  intro h
  unfold load at h
  split at h
  · cases h
  · split at h
    · split at h
      · cases h
      · rename_i hText
        cases h
        exact hText rfl
    · split at h
      · rename_i text hInvalid
        cases h
        exact invalid_text hInvalid
      · cases h

variable {r : StoreResult}
variable {rt : Runtime}

/- A pending record that is read has an identifier. -/
theorem load_identified
    (h : s.load cfg name r = some (.ok rt))
    (hPending : rt.activation.result = .pending) :
    rt.activation.id ≠ "" := by
  unfold load at h
  split at h
  · cases h
    cases hPending
  · split at h
    · split at h
      · cases h
      · cases h
    · split at h
      · cases h
      · rename_i hValid
        cases h
        unfold Runtime.invalid at hValid
        split at hValid
        · rename_i hEmpty
          rw [hEmpty] at hPending
          cases hPending
        · unfold validateActivation at hValid
          split at hValid
          · cases hValid
          · rename_i hForm
            rw [not_or] at hForm
            exact hForm.1

variable {s' : Engine K}
variable {err : Option String}

/- A record is written to the disk alone. -/
theorem save_eq
    (h : s.save cfg name rt r = some (s', err)) :
    ∃ disk, s' = { s with disk := disk } := by
  unfold save at h
  dsimp only at h
  split at h
  · cases h
    exact ⟨s.disk, rfl⟩
  · split at h
    · cases h
      exact ⟨s.disk, rfl⟩
    · cases h
      exact ⟨_, rfl⟩
    · split at h
      · cases h
      · split at h
        · cases h
          exact ⟨_, rfl⟩
        · cases h
          exact ⟨s.disk, rfl⟩

/- An error of the store has a text. -/
theorem save_text
    (h : s.save cfg name rt r = some (s', err)) :
    err ≠ some "" := by
  unfold save at h
  dsimp only at h
  split at h
  · cases h
    simp
  · split at h
    · rename_i text hInvalid
      cases h
      rintro hEmpty
      cases hEmpty
      exact invalid_text hInvalid
    · cases h
      simp
    · split at h
      · cases h
      · rename_i hText
        split at h
        · cases h
          simpa using hText
        · cases h
          simpa using hText

/- A result that is taken on belongs to the current arm. -/
theorem recordResult_cases
    (s : Engine K)
    (event : Fire)
    (success : Bool) :
    s.recordResult event success = s ∨
      ∃ a rt, s.find event.name = some a ∧ a.token = event.token ∧
        a.loading = false ∧ rt.activation.result ≠ .pending ∧
        (event.activationID ≠ "" →
          a.rt.activation.id = event.activationID) ∧
        s.recordResult event success =
          { s with
            results :=
              s.results ++
                [{ event := event
                   rt := rt
                   ref := a.ref
                   phase := .check }] } := by
  unfold recordResult
  split
  · exact Or.inl rfl
  · rename_i a hFind
    split
    · exact Or.inl rfl
    · rename_i hCurrent
      rw [not_or, not_or, not_or, Bool.not_eq_false, Bool.not_eq_true,
        not_not, not_not] at hCurrent
      dsimp only
      split
      · rename_i hID
        split
        · exact Or.inl rfl
        · rename_i hMatch
          rw [not_or, not_not, not_not] at hMatch
          refine Or.inr ⟨a, _, hFind, hCurrent.2.2.2, hCurrent.2.1, ?_,
            fun _ => hMatch.1, rfl⟩
          cases success <;> simp
      · rename_i hID
        split
        · exact Or.inl rfl
        · rename_i hDone
          rw [not_or] at hDone
          refine Or.inr ⟨a, _, hFind, hCurrent.2.2.2, hCurrent.2.1, ?_,
            fun hNot => absurd hNot hID, rfl⟩
          split
          · exact hDone.1
          · exact hDone.1

/- A call that records a result starts with the call alone. -/
theorem recordResult_eq
    (s : Engine K)
    (event : Fire)
    (success : Bool) :
    ∃ results, s.recordResult event success =
      { s with results := results } := by
  rcases recordResult_cases s event success with
    hEq | ⟨_, _, _, _, _, _, _, hEq⟩
  · exact ⟨s.results, hEq⟩
  · exact ⟨_, hEq⟩

theorem finished_eq
    (a : Armed K) :
    ∃ error,
      finished a =
        { a with firing := false, storageError := error } := by
  unfold finished
  split
  · exact ⟨_, rfl⟩
  · exact ⟨a.storageError, rfl⟩

/- A load keeps the timer's identity; one that fails leaves the
   record alone. -/
theorem loaded_same
    (c : Reading)
    (a : Armed K)
    (result : Except String Runtime) :
    (loaded c a result).spec = a.spec ∧
      (loaded c a result).token = a.token ∧
      (loaded c a result).item = a.item ∧
      (loaded c a result).ref = a.ref ∧
      (loaded c a result).rt.lastUnitActive = a.rt.lastUnitActive ∧
      ((∃ rt, result = .ok rt) ∨ (loaded c a result).rt = a.rt) := by
  unfold loaded
  dsimp only
  split
  · exact ⟨rfl, rfl, rfl, rfl, rfl, Or.inr rfl⟩
  · split
    · split
      · exact ⟨rfl, rfl, rfl, rfl, rfl, Or.inl ⟨_, rfl⟩⟩
      · exact ⟨rfl, rfl, rfl, rfl, rfl, Or.inl ⟨_, rfl⟩⟩
    · exact ⟨rfl, rfl, rfl, rfl, rfl, Or.inl ⟨_, rfl⟩⟩

variable {event : Fire}

/- The current arm is the one that is changed. -/
theorem persistSettle_current
    [Calendar K]
    (hRun : s.running = true)
    (hFind : s.find event.name = some a)
    (hToken : a.token = event.token)
    (text : String) :
    s.persistSettle event a.ref (some text) =
      ({ s with storageIO := false }.rescheduleLocked
          { a with storageError := text },
        false) := by
  have hFree :
      find { s with storageIO := false } event.name = some a := hFind
  unfold persistSettle
  dsimp only
  rw [hFree]
  dsimp only
  rw [if_neg (by rw [hRun, hToken]; simp)]

/- Only a write without an error is acknowledged. -/
theorem persistSettle_ok
    [Calendar K]
    {ref : Nat}
    (h : (s.persistSettle event ref err).2 = true) :
    err = none := by
  unfold persistSettle at h
  dsimp only at h
  split at h
  · cases h
  · split at h
    · cases h
    · split at h
      · cases h
      · rfl

theorem fireDone_current
    [Calendar K]
    {w : FireWork}
    (hFind : s.find w.event.name = some a)
    (hRef : a.ref = w.ref)
    (hToken : a.token = w.event.token) :
    s.fireDone w =
      if s.running = true then
        { s with
          activeFires := s.activeFires - 1 }.rescheduleLocked (finished a)
      else
        { s with activeFires := s.activeFires - 1 }.put (finished a) := by
  have hLess :
      find { s with activeFires := s.activeFires - 1 } w.event.name =
        some a := hFind
  unfold fireDone
  dsimp only
  rw [hLess]
  dsimp only
  rw [if_neg (by rw [hRef, hToken]; simp)]

theorem loadApply_current
    [Calendar K]
    (hRun : s.running = true)
    (hFind : s.find name = some a)
    (hLoading : a.loading = true)
    (result : Except String Runtime) :
    s.loadApply name a.ref result =
      { s with
        storageIO := false
        loader := some .pick }.rescheduleLocked
        (loaded s.clock a result) := by
  have hFree :
      find { s with storageIO := false, loader := some .pick } name =
        some a := hFind
  unfold loadApply
  dsimp only
  rw [hFree]
  dsimp only
  rw [if_pos ⟨hRun, rfl, hLoading⟩]

/- The timer with the plan that was found. -/
def published (a : Armed K) (clockGen : Nat) (found : Deadline) :
    Armed K :=
  { a with
    planning := false
    next := found.next.getD 0
    ok := found.next.isSome
    schedGen := clockGen
    wallNext := found.wall }

theorem planPublish_cases
    (s : Engine K)
    (name : String)
    (ref gen clockGen : Nat)
    (found : Deadline) :
    s.planPublish name ref gen clockGen found =
        { s with planner := some .pick } ∨
      ∃ a, s.find name = some a ∧ s.running = true ∧ a.ref = ref ∧
        a.gen = gen ∧ s.clockGen = clockGen ∧ a.planning = true ∧
        (s.planPublish name ref gen clockGen found =
            { s with planner := some .pick }.put
              (published a clockGen found) ∨
          ∃ when, found.next = some when ∧
            s.planPublish name ref gen clockGen found =
              ({ s with
                  pq := s.dequeued a
                  planner := some .pick }.enqueue
                  { published a clockGen found with item := none }
                  when gen).1.put
                ({ s with
                  pq := s.dequeued a
                  planner := some .pick }.enqueue
                  { published a clockGen found with item := none }
                  when gen).2) := by
  unfold planPublish
  dsimp only
  split
  · exact Or.inl rfl
  · rename_i a hFind
    split
    · rename_i hCurrent
      refine Or.inr ⟨a, hFind, hCurrent.1, hCurrent.2.1, hCurrent.2.2.1,
        hCurrent.2.2.2.1, hCurrent.2.2.2.2, ?_⟩
      split
      · rename_i when hWhen
        exact Or.inr ⟨when, hWhen, rfl⟩
      · exact Or.inl rfl
    · exact Or.inl rfl

------------------------------------------------------------
-- Moves
------------------------------------------------------------

/- The records saved, after one more write. -/
def savedAfter
    (s : Engine K)
    (event : Fire)
    (rt : Runtime)
    (err : Option String) :
    List (Fire × Runtime) :=
  if err = none then s.saved ++ [(event, rt)] else s.saved

theorem mem_savedAfter
    {x : Fire × Runtime}
    (h : x ∈ s.saved) :
    x ∈ s.savedAfter event rt err := by
  unfold savedAfter
  split
  · exact List.mem_append_left _ h
  · exact h

/- The steps of a callback's worker. -/
inductive FireMove
    [Calendar K]
    (cfg : Config)
    (s : Engine K)
    (i : Nat)
    (w : FireWork) : Engine K → Prop where
| hold :
    w.phase = .check → s.storageIO = false → s.MaySave w.event →
    FireMove cfg s i w
      ({ s with storageIO := true }.setFire i { w with phase := .save })
| pass :
    w.phase = .check → s.storageIO = false → ¬ s.MaySave w.event →
    FireMove cfg s i w (s.setFire i { w with phase := .finish })
| save (r : StoreResult) (disk : String → Runtime)
    (err : Option String) :
    w.phase = .save →
    s.save cfg w.event.name w.rt r =
      some ({ s with disk := disk }, err) →
    FireMove cfg s i w
      ({ s with
          disk := disk
          saved := s.savedAfter w.event w.rt err }.setFire i
        { w with phase := .settle err })
| ready (err : Option String) :
    w.phase = .settle err →
    (s.persistSettle w.event w.ref err).2 = true →
    cfg.callback = true →
    FireMove cfg s i w
      ((s.persistSettle w.event w.ref err).1.setFire i
        { w with phase := .current })
| drop (err : Option String) :
    w.phase = .settle err →
    (s.persistSettle w.event w.ref err).2 = false ∨
      cfg.callback = false →
    FireMove cfg s i w
      ((s.persistSettle w.event w.ref err).1.setFire i
        { w with phase := .finish })
| call :
    w.phase = .current → s.Current w.event.name w.event.token →
    FireMove cfg s i w (s.setFire i { w with phase := .calling })
| late :
    w.phase = .current → ¬ s.Current w.event.name w.event.token →
    FireMove cfg s i w (s.setFire i { w with phase := .finish })
| back :
    w.phase = .calling →
    FireMove cfg s i w (s.setFire i { w with phase := .finish })
| done :
    w.phase = .finish →
    FireMove cfg s i w
      ((s.fireDone w).setFire i { w with phase := .done })

theorem fireStep_move
    [Calendar K]
    {i : Nat}
    (h : s.fireStep cfg i r = some s') :
    ∃ w, s.fires[i]? = some w ∧ FireMove cfg s i w s' := by
  unfold fireStep at h
  split at h
  · cases h
  · rename_i w hw
    refine ⟨w, hw, ?_⟩
    split at h
    · rename_i hPhase
      split at h
      · cases h
      · rename_i hFree
        rw [Bool.not_eq_true] at hFree
        split at h
        · rename_i hMay
          cases h
          exact .hold hPhase hFree hMay
        · rename_i hMay
          cases h
          exact .pass hPhase hFree hMay
    · rename_i hPhase
      split at h
      · cases h
      · rename_i t err hSave
        rcases save_eq hSave with ⟨disk, rfl⟩
        cases h
        exact .save r disk err hPhase hSave
    · rename_i err hPhase
      dsimp only at h
      split at h
      · rename_i hOk
        cases h
        exact .ready err hPhase hOk.1 hOk.2
      · rename_i hOk
        cases h
        refine .drop err hPhase ?_
        rw [not_and_or, Bool.not_eq_true, Bool.not_eq_true] at hOk
        exact hOk
    · rename_i hPhase
      split at h
      · rename_i hCurrent
        cases h
        exact .call hPhase hCurrent
      · rename_i hCurrent
        cases h
        exact .late hPhase hCurrent
    · rename_i hPhase
      cases h
      exact .back hPhase
    · rename_i hPhase
      cases h
      exact .done hPhase
    · cases h

/- The steps of a call that records a result. -/
inductive ResultMove
    [Calendar K]
    (cfg : Config)
    (s : Engine K)
    (i : Nat)
    (w : ResultWork) : Engine K → Prop where
| hold :
    w.phase = .check → s.storageIO = false → s.MaySave w.event →
    ResultMove cfg s i w
      ({ s with storageIO := true }.setResult i
        { w with phase := .save })
| pass :
    w.phase = .check → s.storageIO = false → ¬ s.MaySave w.event →
    ResultMove cfg s i w (s.setResult i { w with phase := .done })
| save (r : StoreResult) (disk : String → Runtime)
    (err : Option String) :
    w.phase = .save →
    s.save cfg w.event.name w.rt r =
      some ({ s with disk := disk }, err) →
    ResultMove cfg s i w
      ({ s with
          disk := disk
          saved := s.savedAfter w.event w.rt err }.setResult i
        { w with phase := .settle err })
| ready (err : Option String) :
    w.phase = .settle err →
    (s.persistSettle w.event w.ref err).2 = true →
    ResultMove cfg s i w
      ((s.persistSettle w.event w.ref err).1.setResult i
        { w with phase := .apply })
| drop (err : Option String) :
    w.phase = .settle err →
    (s.persistSettle w.event w.ref err).2 = false →
    ResultMove cfg s i w
      ((s.persistSettle w.event w.ref err).1.setResult i
        { w with phase := .done })
| apply :
    w.phase = .apply →
    ResultMove cfg s i w
      ((s.applyResult w).setResult i { w with phase := .done })

theorem resultStep_move
    [Calendar K]
    {i : Nat}
    (h : s.resultStep cfg i r = some s') :
    ∃ w, s.results[i]? = some w ∧ ResultMove cfg s i w s' := by
  unfold resultStep at h
  split at h
  · cases h
  · rename_i w hw
    refine ⟨w, hw, ?_⟩
    split at h
    · rename_i hPhase
      split at h
      · cases h
      · rename_i hFree
        rw [Bool.not_eq_true] at hFree
        split at h
        · rename_i hMay
          cases h
          exact .hold hPhase hFree hMay
        · rename_i hMay
          cases h
          exact .pass hPhase hFree hMay
    · rename_i hPhase
      split at h
      · cases h
      · rename_i t err hSave
        rcases save_eq hSave with ⟨disk, rfl⟩
        cases h
        exact .save r disk err hPhase hSave
    · rename_i err hPhase
      dsimp only at h
      split at h
      · rename_i hOk
        cases h
        exact .ready err hPhase hOk
      · rename_i hOk
        cases h
        rw [Bool.not_eq_true] at hOk
        exact .drop err hPhase hOk
    · rename_i hPhase
      cases h
      exact .apply hPhase
    · cases h

/- The steps of the loader. -/
inductive LoadMove
    [Calendar K]
    (cfg : Config)
    (s : Engine K) : Engine K → Prop where
| pick (name : String) (a : Armed K) :
    s.loader = some .pick → s.find name = some a →
    a.loading = true →
    LoadMove cfg s { s with loader := some (.check name a.ref) }
| exit :
    s.loader = some .pick → LoadMove cfg s { s with loader := none }
| hold (name : String) (ref : Nat) :
    s.loader = some (.check name ref) → s.storageIO = false →
    s.Loading name ref →
    LoadMove cfg s
      { s with storageIO := true, loader := some (.read name ref) }
| pass (name : String) (ref : Nat) :
    s.loader = some (.check name ref) → s.storageIO = false →
    ¬ s.Loading name ref →
    LoadMove cfg s { s with loader := some .pick }
| read (name : String) (ref : Nat) (r : StoreResult)
    (result : Except String Runtime) :
    s.loader = some (.read name ref) →
    s.load cfg name r = some result →
    LoadMove cfg s { s with loader := some (.apply name ref result) }
| apply (name : String) (ref : Nat)
    (result : Except String Runtime) :
    s.loader = some (.apply name ref result) →
    LoadMove cfg s (s.loadApply name ref result)

theorem loadStep_move
    [Calendar K]
    (h : s.loadStep cfg name r = some s') :
    LoadMove cfg s s' := by
  unfold loadStep at h
  split at h
  · cases h
  · rename_i hLoader
    split at h
    · split at h
      · cases h
      · rename_i a hFind
        split at h
        · rename_i hLoading
          cases h
          exact .pick name a hLoader hFind hLoading
        · cases h
    · cases h
      exact .exit hLoader
  · rename_i name ref hLoader
    split at h
    · cases h
    · rename_i hFree
      rw [Bool.not_eq_true] at hFree
      split at h
      · rename_i hLoading
        cases h
        exact .hold name ref hLoader hFree hLoading
      · rename_i hLoading
        cases h
        exact .pass name ref hLoader hFree hLoading
  · rename_i name ref hLoader
    split at h
    · cases h
    · rename_i result hLoad
      cases h
      exact .read name ref r result hLoader hLoad
  · rename_i name ref result hLoader
    cases h
    exact .apply name ref result hLoader

/- The steps of the planner. -/
inductive PlanMove
    [Calendar K]
    (s : Engine K) : Engine K → Prop where
| pick (cursor : String) (p : Option (PlanPhase K)) :
    PlanMove s { s with scheduleCursor := cursor, planner := p }
| publish (name : String) (ref gen clockGen : Nat)
    (found : Deadline) :
    s.planner = some (.publish name ref gen clockGen found) →
    PlanMove s (s.planPublish name ref gen clockGen found)

theorem planStep_move
    [Calendar K]
    (h : s.planStep = some s') :
    PlanMove s s' := by
  unfold planStep at h
  split at h
  · cases h
  · dsimp only at h
    split at h
    · cases h
      exact .pick s.scheduleCursor none
    · cases h
      exact .pick _ _
  · cases h
    exact .pick s.scheduleCursor _
  · rename_i name ref gen clockGen found hPlanner
    cases h
    exact .publish name ref gen clockGen found hPlanner

------------------------------------------------------------
-- Frames
------------------------------------------------------------

theorem Kept.trans
    {s' t : Engine K}
    (h : s.Kept s')
    (h' : s'.Kept t) :
    s.Kept t where
  clock := h'.clock.trans h.clock
  nextRef := h'.nextRef.trans h.nextRef
  nextActivation := h'.nextActivation.trans h.nextActivation
  nextArm := h'.nextArm.trans h.nextArm
  clockGen := h'.clockGen.trans h.clockGen
  activeFires := h'.activeFires.trans h.activeFires
  running := h'.running.trans h.running
  loader := h'.loader.trans h.loader
  storageIO := h'.storageIO.trans h.storageIO
  disk := h'.disk.trans h.disk
  fires := h'.fires.trans h.fires
  results := h'.results.trans h.results
  saved := h'.saved.trans h.saved
  consumed := h'.consumed.trans h.consumed

------------------------------------------------------------
-- Rules
------------------------------------------------------------

section Rules

variable {s s' : Engine K}
variable {P : Engine K → Prop}
variable {keep order : List String}
variable {unit : String}
variable {when : Time}
variable {c : Reading}

theorem retain_rule
    (h : P s)
    (hDisarm : ∀ t name, P t → name ∉ keep → P (t.disarm name)) :
    P (s.retain keep order) := by
  refine List.foldlRecOn order _ h ?_
  intro t ht name _
  split
  · exact ht
  · rename_i hDrop
    exact hDisarm t name ht hDrop

variable [Calendar K]

theorem unitActive_rule
    (h : P s)
    (hNote :
      ∀ t name, P t →
        P (noteActive unit (if when = 0 then s.clock.now else when) t
          name)) :
    P (s.unitActive unit when order) := by
  unfold unitActive
  split
  · exact h
  · exact List.foldlRecOn order _ h
      (fun t ht name _ => hNote t name ht)

variable {name : String}

theorem noteActive_rule
    (h : P s)
    (hNext :
      ∀ a, s.find a.name = some a → a.spec.unit = unit →
        a.spec.onUnitActiveSecSet = true →
        P (s.rescheduleLocked
          { a with rt := { a.rt with lastUnitActive := when } })) :
    P (noteActive unit when s name) := by
  unfold noteActive
  split
  · exact h
  · rename_i a hFind
    rw [← name_of_find hFind] at hFind
    split
    · rename_i hUnit
      exact hNext a hFind hUnit.1 hUnit.2
    · exact h

theorem replan_rule
    (h : P s)
    (hPut :
      ∀ a, s.find a.name = some a →
        P (s.put { a with schedGen := s.clockGen }))
    (hNext :
      ∀ a, s.find a.name = some a →
        ¬ (a.item.isSome = true ∧ ItemDue s.clock s.clock.now a) →
        P (s.rescheduleLocked a)) :
    P (s.replan name) := by
  unfold replan
  split
  · exact h
  · rename_i a hFind
    rw [← name_of_find hFind] at hFind
    split
    · exact h
    · split
      · exact hPut a hFind
      · rename_i hDue
        exact hNext a hFind hDue

variable {event : Fire}

theorem retry_rule
    (h : P s)
    (hNext :
      ∀ a after, s.find a.name = some a → event.name = a.name →
        event.token = a.token →
        P (s.rescheduleLocked { a with retry := some ⟨event, after⟩ })) :
    P (s.retry event) := by
  unfold retry
  split
  · exact h
  · rename_i a hFind
    have hName := name_of_find hFind
    rw [← hName] at hFind
    split
    · exact h
    · rename_i hCurrent
      rw [not_or, not_not] at hCurrent
      exact hNext a _ hFind hName.symm hCurrent.2.symm

/- A write that fails suspends the timer it was for. -/
theorem persistSettle_rule
    {ref : Nat}
    (h : P { s with storageIO := false })
    (hNext :
      ∀ a text, err = some text → s.find a.name = some a →
        event.name = a.name → event.token = a.token →
        P ({ s with storageIO := false }.rescheduleLocked
          { a with storageError := text })) :
    P (s.persistSettle event ref err).1 := by
  unfold persistSettle
  dsimp only
  split
  · exact h
  · rename_i a hFind
    have hName : a.name = event.name := name_of_find hFind
    rw [← hName] at hFind
    split
    · exact h
    · rename_i hCurrent
      rw [not_or, not_or, not_not, not_not] at hCurrent
      split
      · exact hNext a _ rfl hFind hName.symm hCurrent.2.2.symm
      · exact h

/- The timer of a callback that is over no longer fires. -/
theorem fireDone_rule
    {w : FireWork}
    (h : P { s with activeFires := s.activeFires - 1 })
    (hNext :
      ∀ a b error, b = { a with firing := false, storageError := error } →
        b = finished a → s.find b.name = some a →
        w.event.name = a.name → w.event.token = a.token →
        P ({ s with activeFires := s.activeFires - 1 }.rescheduleLocked
            b) ∧
          (s.running = false →
            P ({ s with activeFires := s.activeFires - 1 }.put b))) :
    P (s.fireDone w) := by
  unfold fireDone
  dsimp only
  split
  · exact h
  · rename_i a hFind
    have hName : a.name = w.event.name := name_of_find hFind
    rcases finished_eq a with ⟨error, hDone⟩
    have hFound : s.find (finished a).name = some a := by
      rw [hDone]
      rw [← hName] at hFind
      exact hFind
    split
    · exact h
    · rename_i hCurrent
      rw [not_or, not_not, not_not] at hCurrent
      have hBoth :=
        hNext a _ error hDone rfl hFound hName.symm hCurrent.2.symm
      split
      · exact hBoth.1
      · rename_i hStopped
        exact hBoth.2 (eq_false_of_ne_true hStopped)

omit [Calendar K] in
theorem applyResult_rule
    {w : ResultWork}
    (h : P s)
    (hPut :
      ∀ a, s.find a.name = some a → w.event.name = a.name →
        w.event.token = a.token →
        (w.event.activationID = "" ∨
          a.rt.activation.id = w.event.activationID) →
        P (s.put
          { a with
            rt :=
              { a.rt with
                lastSuccess := w.rt.lastSuccess
                activation := w.rt.activation }
            retry := none })) :
    P (s.applyResult w) := by
  unfold applyResult
  split
  · exact h
  · rename_i a hFind
    have hName := name_of_find hFind
    rw [← hName] at hFind
    split
    · rename_i hCurrent
      exact hPut a hFind hName.symm hCurrent.2.2.1.symm hCurrent.2.2.2
    · exact h

theorem loadApply_rule
    {ref : Nat}
    {result : Except String Runtime}
    (h : P { s with storageIO := false, loader := some .pick })
    (hNext :
      ∀ a b, b = loaded s.clock a result → s.find b.name = some a →
        b.name = a.name → name = a.name → ref = a.ref →
        a.loading = true →
        P ({ s with
            storageIO := false
            loader := some .pick }.rescheduleLocked b)) :
    P (s.loadApply name ref result) := by
  unfold loadApply
  dsimp only
  split
  · exact h
  · rename_i a hFind
    have hOwn : a.name = name := name_of_find hFind
    have hName : (loaded s.clock a result).name = a.name := by
      rw [Armed.name, (loaded_same s.clock a result).1]
    rw [← hOwn, ← hName] at hFind
    split
    · rename_i hCurrent
      exact hNext a _ rfl hFind hName hOwn.symm hCurrent.2.1.symm
        hCurrent.2.2
    · exact h

omit [Calendar K] in
/- A plan that is published leaves all but the timer's schedule. -/
theorem planPublish_rule
    {ref gen clockGen : Nat}
    {found : Deadline}
    (h : P { s with planner := some .pick })
    (hPut :
      ∀ a item pq items k, s.find a.name = some a →
        a.name = name ∧ a.gen = gen ∧ a.planning = true →
        P ({ s with
            planner := some .pick
            pq := pq
            items := items
            nextItem := k }.put
          { published a clockGen found with item := item })) :
    P (s.planPublish name ref gen clockGen found) := by
  rcases planPublish_cases s name ref gen clockGen found with
    hEq | ⟨a, hFind, _, _, hGen, _, hPlanning, hCase⟩
  · rw [hEq]
    exact h
  · have hName := name_of_find hFind
    rw [← hName] at hFind
    rcases hCase with hEq | ⟨when, _, hEq⟩
    · rw [hEq]
      exact hPut a _ _ _ _ hFind ⟨hName, hGen, hPlanning⟩
    · rw [hEq]
      exact hPut a _ _ _ _ hFind ⟨hName, hGen, hPlanning⟩

/-
  A timer is taken up under a new token: it is the timer `b` of
  its name, refreshed, or a new one.
-/
structure Enrols
    (cfg : Config)
    (s : Engine K)
    (spec : Spec K)
    (t : Engine K)
    (a b : Armed K) : Prop where
  state :
    ∃ nextRef arms loader,
      (loader = s.loader ∨ loader = some .pick) ∧
      t =
        { s with
          nextArm := s.nextArm + 1
          nextRef := nextRef
          armed := arms
          loader := loader }
  named : a.spec = spec
  token : a.token = s.nextArm + 1
  retry : a.retry = none
  find : t.find a.name = some b
  others : ∀ name, name ≠ a.name → t.find name = s.find name
  origin :
    s.find a.name = some b ∧ a = refreshed b (s.nextArm + 1) spec ∨
      s.find a.name = none ∧ a = newArm cfg s spec ∧ b = a

theorem arm_rule
    {spec : Spec K}
    (h : P s)
    (hNext :
      ∀ t a b, Enrols cfg s spec t a b → P (t.rescheduleLocked a)) :
    P (s.arm cfg spec) := by
  rcases arm_cases cfg s spec with
    hEq | ⟨loader, _, hLoader, ⟨a, hFind, hEq⟩ | ⟨hNew, hEq⟩⟩
  · rw [hEq]
    exact h
  · rcases refreshed_eq a (s.nextArm + 1) spec with ⟨_, _, hFresh⟩
    have hName : (refreshed a (s.nextArm + 1) spec).name = spec.name := by
      rw [hFresh]
    rw [← hName] at hFind
    rw [hEq]
    refine hNext _ _ a ⟨⟨_, _, loader, hLoader, rfl⟩, ?_, ?_, ?_, hFind,
      fun _ _ => rfl, Or.inl ⟨hFind, rfl⟩⟩
    · rw [hFresh]
    · rw [hFresh]
    · rw [hFresh]
  · have hFind := find_append (a := newArm cfg s spec) hNew
    rw [hEq]
    exact hNext _ _ _ ⟨⟨_, _, loader, hLoader, rfl⟩, rfl, rfl, rfl,
      (hFind spec.name).trans (if_pos rfl),
      fun name hNe => (hFind name).trans (if_neg hNe),
      Or.inr ⟨hNew, rfl, rfl⟩⟩

omit [Calendar K] in
theorem Enrols.forall_find
    {spec : Spec K}
    {t : Engine K}
    {a b : Armed K}
    (hNew : Enrols cfg s spec t a b)
    (h : ∀ name c, s.find name = some c → Q name c)
    (ha : Q a.name a) :
    ∀ name c, t.find name = some c → Q name c := by
  intro name c hc
  by_cases hName : name = a.name
  · subst hName
    rw [hNew.find] at hc
    cases hc
    rcases hNew.origin with ⟨hFind, _⟩ | ⟨_, _, rfl⟩
    · exact h _ b hFind
    · exact ha
  · rw [hNew.others name hName] at hc
    exact h name c hc

/- What is due fires before the timers are planned again. -/
theorem clockChanged_rule
    (h : P s)
    (hFired :
      P { fireDueLocked cfg { s with clockGen := s.clockGen + 1 } with
        clock := c })
    (hReplan : ∀ t name, P t → P (t.replan name)) :
    P (s.clockChanged cfg c order) := by
  unfold clockChanged
  split
  · exact h
  · exact List.foldlRecOn order replan hFired
      (fun t ht name _ => hReplan t name ht)

/- The request ends the arm of the name. -/
def Ends (name : String) : Label K → Prop
| .arm spec => spec.name = name
| .disarm other => other = name
| .retain keep _ => name ∉ keep
| _ => False

/- What the clocks show in a step. -/
def Shows (s : Engine K) (l : Label K) (c : Reading) : Prop :=
  c = s.clock ∨ l = .clock c ∨ ∃ order, l = .clockChanged c order

/- The time of an activation that a step reports. -/
def Reported (s : Engine K) (l : Label K) (t : Time) : Prop :=
  ∃ unit when order, l = .unitActive unit when order ∧
    t = if when = 0 then s.clock.now else when

/-
  Every part of a step keeps the invariant: the parts that
  requests repeat in any state, the others in this one.
-/
structure Carries
    (cfg : Config)
    (P : Engine K → Prop)
    (s : Engine K)
    (l : Label K)
    (s' : Engine K) : Prop where
  set :
    ∀ t clock clockGen, P t → Shows s l clock →
      P { t with clock := clock, clockGen := clockGen }
  stop : P { s with running := false }
  arm : ∀ spec, l = .arm spec → P (s.arm cfg spec)
  disarm : ∀ t name, P t → Ends name l → P (t.disarm name)
  note :
    ∀ unit t when name, P t → Reported s l when →
      P (noteActive unit when t name)
  fireDue :
    ∀ clockGen, P { s with clockGen := clockGen } →
      P (fireDueLocked cfg { s with clockGen := clockGen })
  replan : ∀ t name, P t → P (t.replan name)
  retry : ∀ event, l = .retry event → P (s.retry event)
  record :
    ∀ event success, l = .recordResult event success →
      P (s.recordResult event success)
  plan : s.planStep = some s' → P s'
  load : ∀ name r, l = .load name r → LoadMove cfg s s' → P s'
  fire :
    ∀ i w, s.fires[i]? = some w → FireMove cfg s i w s' → P s'
  result :
    ∀ i w, s.results[i]? = some w → ResultMove cfg s i w s' → P s'

theorem Carries.step
    {l : Label K}
    (hCarries : Carries cfg P s l s')
    (hWait : s.dropStaleLocked = s)
    (h : P s)
    (hStep : s.step cfg l = some s') :
    P s' := by
  cases l with
  | clock c =>
      cases hStep
      exact hCarries.set s c s.clockGen h (Or.inr (Or.inl rfl))
  | stop =>
      cases hStep
      exact hCarries.stop
  | arm spec =>
      cases hStep
      exact hCarries.arm spec rfl
  | disarm name =>
      cases hStep
      exact hCarries.disarm s name h rfl
  | retain keep order =>
      obtain ⟨_, ⟨⟩⟩ := Option.ite_none_right_eq_some.mp hStep
      exact retain_rule h hCarries.disarm
  | unitActive unit when order =>
      obtain ⟨_, ⟨⟩⟩ := Option.ite_none_right_eq_some.mp hStep
      exact unitActive_rule h (fun t name ht =>
        hCarries.note unit t _ name ht ⟨unit, when, order, rfl, rfl⟩)
  | clockChanged c order =>
      obtain ⟨_, ⟨⟩⟩ := Option.ite_none_right_eq_some.mp hStep
      have hFired :=
        hCarries.fireDue (s.clockGen + 1)
          (hCarries.set s s.clock _ h (Or.inl rfl))
      exact clockChanged_rule h
        (hCarries.set _ c _ hFired (Or.inr (Or.inr ⟨order, rfl⟩)))
        hCarries.replan
  | fireDue =>
      cases hStep
      exact hCarries.fireDue s.clockGen h
  | wait =>
      cases hStep
      rw [hWait]
      exact h
  | retry event =>
      cases hStep
      exact hCarries.retry event rfl
  | recordResult event success =>
      cases hStep
      exact hCarries.record event success rfl
  | plan => exact hCarries.plan hStep
  | load name r => exact hCarries.load name r rfl (loadStep_move hStep)
  | fire i r =>
      rcases fireStep_move hStep with ⟨w, hw, hMove⟩
      exact hCarries.fire i w hw hMove
  | result i r =>
      rcases resultStep_move hStep with ⟨w, hw, hMove⟩
      exact hCarries.result i w hw hMove

/- The same timer, with its plan. -/
structure SamePlan (a a' : Armed K) : Prop where
  spec : a'.spec = a.spec
  gen : a'.gen = a.gen
  wallNext : a'.wallNext = a.wallNext
  active : a'.rt.lastUnitActive = a.rt.lastUnitActive
  actual : a'.rt.lastActual = a.rt.lastActual

/- A write has failed without a text. -/
def Wordless (s : Engine K) : Prop :=
  (∃ w ∈ s.fires, w.phase = .settle (some "")) ∨
    ∃ v ∈ s.results, v.phase = .settle (some "")

/-
  What a change leaves of a timer: its place in the queue, its
  identity, when its unit was active last and, unless a record
  is loaded, its error and marks.
-/
structure Edits
    (s : Engine K)
    (l : Label K)
    (a a' : Armed K) : Prop where
  item : a'.item = a.item
  ref : a'.ref = a.ref
  token : a'.token = a.token
  active :
    a'.rt.lastUnitActive = a.rt.lastUnitActive ∨
      Reported s l a'.rt.lastUnitActive
  error :
    a.storageError ≠ "" →
      a'.storageError ≠ "" ∨
        a.loading = true ∧ s.find a.name = some a ∨ s.Wordless
  marks :
    a'.rt.firedBoot = a.rt.firedBoot ∧
        a'.rt.firedStartup = a.rt.firedStartup ∨
      a.loading = true ∧ s.find a.name = some a ∧
        ∃ name r rt, l = .load name r ∧
          s.loader = some (.apply a.name a.ref (.ok rt))

/-
  The invariant is one of the armed timers and their queue: the
  handlers keep it as they change one timer and plan it again.
-/
structure Reworks
    (cfg : Config)
    (P : Engine K → Prop)
    (s : Engine K)
    (l : Label K)
    (s' : Engine K) : Prop where
  set :
    ∀ t clock clockGen, P t → Shows s l clock →
      P { t with clock := clock, clockGen := clockGen }
  stop : P { s with running := false }
  rest :
    ∀ t {n loader io disk fires results saved}, P t →
      P { t with
          activeFires := n
          loader := loader
          storageIO := io
          disk := disk
          fires := fires
          results := results
          saved := saved }
  arm : ∀ spec, l = .arm spec → P (s.arm cfg spec)
  disarm : ∀ t name, P t → Ends name l → P (t.disarm name)
  put :
    ∀ t a b, P t → t.find a.name = some b → Edits s l b a →
      SamePlan b a →
      (t.running = true →
        a.planning = b.planning ∧ a.loading = b.loading ∧
          a.storageError = b.storageError) →
      P (t.put a)
  reschedule :
    ∀ t a b, P t → t.find a.name = some b → Edits s l b a →
      P (t.rescheduleLocked a)
  fireDue :
    ∀ clockGen, P { s with clockGen := clockGen } →
      P (fireDueLocked cfg { s with clockGen := clockGen })
  plan : s.planStep = some s' → P s'

theorem Reworks.step
    {l : Label K}
    (hWorks : Reworks cfg P s l s')
    (hWait : s.dropStaleLocked = s)
    (h : P s)
    (hStep : s.step cfg l = some s') :
    P s' := by
  have hSettle : ∀ event ref err, (err = some "" → s.Wordless) →
      P (s.persistSettle event ref err).1 := by
    intro event ref err hWordless
    have hFree : P { s with storageIO := false } := hWorks.rest s h
    refine persistSettle_rule hFree (fun a text hText hFind _ _ =>
      hWorks.reschedule _ _ a hFree hFind
        ⟨rfl, rfl, rfl, Or.inl rfl, fun _ => ?_, Or.inl ⟨rfl, rfl⟩⟩)
    by_cases hNone : text = ""
    · rw [hNone] at hText
      exact Or.inr (Or.inr (hWordless hText))
    · exact Or.inl hNone
  have hDone : ∀ w, P (s.fireDone w) := by
    intro w
    have hLess : P { s with activeFires := s.activeFires - 1 } :=
      hWorks.rest s h
    refine fireDone_rule hLess ?_
    rintro a _ error rfl hDone hFind _ _
    have hEdits : Edits s l a
        { a with firing := false, storageError := error } := by
      refine ⟨rfl, rfl, rfl, Or.inl rfl, fun hError => Or.inl ?_,
        Or.inl ⟨rfl, rfl⟩⟩
      rw [hDone, finished, if_neg (fun hAll => hError hAll.1)]
      exact hError
    exact ⟨hWorks.reschedule _ _ a hLess hFind hEdits,
      fun hStopped => hWorks.put _ _ a hLess hFind hEdits
        ⟨rfl, rfl, rfl, rfl, rfl⟩
        (fun hRun => absurd (hStopped.symm.trans hRun) nofun)⟩
  refine Carries.step ?_ hWait h hStep
  exact
    { set := hWorks.set
      stop := hWorks.stop
      arm := hWorks.arm
      disarm := hWorks.disarm
      note := fun _ t _ _ ht hReported =>
        noteActive_rule ht (fun a hFind _ _ =>
          hWorks.reschedule t _ a ht hFind
            ⟨rfl, rfl, rfl, Or.inr hReported, Or.inl,
              Or.inl ⟨rfl, rfl⟩⟩)
      fireDue := hWorks.fireDue
      replan := fun t _ ht => replan_rule ht
        (fun a hFind => hWorks.put t _ a ht hFind
          ⟨rfl, rfl, rfl, Or.inl rfl, Or.inl, Or.inl ⟨rfl, rfl⟩⟩
          ⟨rfl, rfl, rfl, rfl, rfl⟩
          (fun _ => ⟨rfl, rfl, rfl⟩))
        (fun a hFind _ => hWorks.reschedule t a a ht hFind
          ⟨rfl, rfl, rfl, Or.inl rfl, Or.inl, Or.inl ⟨rfl, rfl⟩⟩)
      retry := fun _ _ => retry_rule h (fun a _ hFind _ _ =>
        hWorks.reschedule s _ a h hFind
          ⟨rfl, rfl, rfl, Or.inl rfl, Or.inl, Or.inl ⟨rfl, rfl⟩⟩)
      record := fun event success _ => by
        rcases recordResult_eq s event success with ⟨results, hEq⟩
        rw [hEq]
        exact hWorks.rest s h
      plan := hWorks.plan
      load := fun name r hl hMove => by
        cases hMove with
        | pick | exit | hold | pass | read =>
            exact hWorks.rest s h
        | apply other ref result hLoader =>
            have hFree :
                P { s with storageIO := false, loader := some .pick } :=
              hWorks.rest s h
            refine loadApply_rule hFree ?_
            rintro a _ rfl hFind hName rfl rfl hLoading
            rcases loaded_same s.clock a result with
              ⟨_, hToken, hItem, hRef, hActive, hCase⟩
            have hOld := hFind
            rw [hName] at hOld
            refine hWorks.reschedule _ _ a hFree hFind
              ⟨hItem, hRef, hToken, Or.inl hActive,
                fun _ => Or.inr (Or.inl ⟨hLoading, hOld⟩), ?_⟩
            rcases hCase with ⟨rt, rfl⟩ | hRt
            · exact Or.inr ⟨hLoading, hOld, name, r, rt, hl, hLoader⟩
            · rw [hRt]
              exact Or.inl ⟨rfl, rfl⟩
      fire := fun _ w hw hMove => by
        cases hMove with
        | hold | pass | save | call | late | back =>
            exact hWorks.rest s h
        | ready err hPhase | drop err hPhase =>
            refine hWorks.rest _ (hSettle _ _ err ?_)
            rintro rfl
            exact Or.inl ⟨w, List.mem_of_getElem? hw, hPhase⟩
        | done => exact hWorks.rest _ (hDone w)
      result := fun _ w hw hMove => by
        cases hMove with
        | hold | pass | save => exact hWorks.rest s h
        | ready err hPhase | drop err hPhase =>
            refine hWorks.rest _ (hSettle _ _ err ?_)
            rintro rfl
            exact Or.inr ⟨w, List.mem_of_getElem? hw, hPhase⟩
        | apply =>
            refine hWorks.rest (s.applyResult w) ?_
            exact applyResult_rule h (fun a hFind _ _ _ =>
              hWorks.put s _ a h hFind
                ⟨rfl, rfl, rfl, Or.inl rfl, Or.inl, Or.inl ⟨rfl, rfl⟩⟩
                ⟨rfl, rfl, rfl, rfl, rfl⟩ (fun _ => ⟨rfl, rfl, rfl⟩)) }

end Rules

section

variable (s : Engine K)

theorem kept_put
    (a : Armed K) :
    s.Kept (s.put a) :=
  { Kept.refl s with }

/- The requests that change the armed timers and the queue. -/
theorem kept_disarm
    (name : String) :
    s.Kept (s.disarm name) := by
  unfold disarm
  split
  · exact .refl s
  · exact { Kept.refl s with }

theorem kept_noteActive
    [Calendar K]
    (unit : String)
    (when : Time)
    (name : String) :
    s.Kept (noteActive unit when s name) :=
  noteActive_rule (P := s.Kept) (.refl s)
    (fun _ _ _ _ => kept_reschedule s _)

theorem kept_replan
    [Calendar K]
    (name : String) :
    s.Kept (s.replan name) :=
  replan_rule (P := s.Kept) (.refl s) (fun _ _ => kept_put s _)
    (fun _ _ _ => kept_reschedule s _)

theorem kept_retry
    [Calendar K]
    (event : Fire) :
    s.Kept (s.retry event) :=
  retry_rule (P := s.Kept) (.refl s)
    (fun _ _ _ _ _ => kept_reschedule s _)

/- The other workers are left alone. -/
theorem persistSettle_fires
    [Calendar K]
    (event : Fire)
    (ref : Nat)
    (err : Option String) :
    (s.persistSettle event ref err).1.fires = s.fires :=
  persistSettle_rule (P := fun t => t.fires = s.fires) rfl
    (fun _ _ _ _ _ _ => (kept_reschedule _ _).fires)

theorem arm_consumed
    [Calendar K]
    (cfg : Config)
    (spec : Spec K) :
    (s.arm cfg spec).consumed = s.consumed := by
  refine arm_rule (P := fun t => t.consumed = s.consumed) rfl ?_
  intro t a b hNew
  rcases hNew.state with ⟨_, _, _, _, rfl⟩
  exact (kept_reschedule _ _).consumed

end

theorem kept_planMove
    [Calendar K]
    (h : PlanMove s s') :
    s.Kept s' := by
  cases h with
  | pick => exact { Kept.refl s with }
  | publish name ref gen clockGen found =>
      exact planPublish_rule (P := s.Kept) { Kept.refl s with }
        (fun _ _ _ _ _ _ _ => { Kept.refl s with })

end Engine

end Timers

end Winunitd
