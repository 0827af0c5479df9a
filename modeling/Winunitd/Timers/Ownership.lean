import Winunitd.Timers.Installed

/-
  Arms, tokens and callbacks.

  Each arm has a token of its own.  At most one callback's
  worker carries the token of an armed timer, and while there
  is one the timer is firing; a retry belongs to the arm that
  it is kept by.

  Key definitions include:
    * `Active`
    * `OwnArm`
    * `Engine.Owned`
    * `Engine.Worded`

  Key theorems include:
    * `Engine.Owned.launch`
    * `Engine.Owned.step`
    * `Engine.Worded.step`
-/

------------------------------------------------------------
-- Callbacks Of An Arm
------------------------------------------------------------

namespace Winunitd

namespace Timers

variable {K : Type}

/- The worker has not ended, and belongs to an arm. -/
def Active (w : FireWork) (name : String) (token : Nat) : Prop :=
  w.phase ≠ .done ∧ w.event.name = name ∧ w.event.token = token

/- What an armed timer owns. -/
structure OwnArm
    (nextArm : Nat)
    (fires : List FireWork)
    (name : String)
    (a : Armed K) : Prop where
  token : a.token ≤ nextArm
  retry :
    ∀ r, a.retry = some r →
      r.event.token = a.token ∧ r.event.name = name
  firing :
    ∀ (i : Nat) (w : FireWork), fires[i]? = some w →
      Active w name a.token → a.firing = true
  alone :
    ∀ (i j : Nat) (w w' : FireWork), fires[i]? = some w →
      fires[j]? = some w' → Active w name a.token →
      Active w' name a.token → i = j

namespace OwnArm

variable {nextArm : Nat}
variable {fires : List FireWork}
variable {name : String}
variable {a : Armed K}

variable {a' : Armed K}

section

variable (h : OwnArm nextArm fires name a)

include h

/- Only token, retry and the state of the callback count. -/
theorem congr
    (hToken : a'.token = a.token)
    (hFiring : a'.firing = a.firing)
    (hRetry : a'.retry = a.retry ∨ a'.retry = none) :
    OwnArm nextArm fires name a' := by
  refine ⟨?_, ?_, ?_, ?_⟩
  · rw [hToken]
    exact h.token
  · intro r hr
    rcases hRetry with hSame | hNone
    · rw [hSame] at hr
      rw [hToken]
      exact h.retry r hr
    · rw [hNone] at hr
      cases hr
  · rw [hToken, hFiring]
    exact h.firing
  · rw [hToken]
    exact h.alone

theorem same
    (hSame : SameArm a a') :
    OwnArm nextArm fires name a' :=
  h.congr hSame.token hSame.firing (Or.inl hSame.retry)

variable {w : FireWork}

/- A worker's next phase, unless it has ended. -/
theorem setPhase
    {i : Nat}
    (hw : fires[i]? = some w)
    (hPhase : w.phase ≠ .done)
    (phase : FirePhase) :
    OwnArm nextArm (fires.set i { w with phase := phase }) name a := by
  have hOld :
      ∀ (j : Nat) (v : FireWork),
        (fires.set i { w with phase := phase })[j]? = some v →
        Active v name a.token →
        ∃ u, fires[j]? = some u ∧ Active u name a.token := by
    intro j v hv hActive
    rcases Lib.Heap.getElem_set hv with ⟨rfl, rfl⟩ | ⟨_, hv⟩
    · exact ⟨w, hw, hPhase, hActive.2⟩
    · exact ⟨v, hv, hActive⟩
  refine ⟨h.token, h.retry, ?_, ?_⟩
  · intro j v hv hActive
    rcases hOld j v hv hActive with ⟨u, hu, hActiveU⟩
    exact h.firing j u hu hActiveU
  · intro j k v v' hv hv' hActive hActive'
    rcases hOld j v hv hActive with ⟨u, hu, hActiveU⟩
    rcases hOld k v' hv' hActive' with ⟨u', hu', hActiveU'⟩
    exact h.alone j k u u' hu hu' hActiveU hActiveU'

/- The arm's worker has ended. -/
theorem ended
    {i : Nat}
    (hw : fires[i]? = some w)
    (hPhase : w.phase ≠ .done)
    (hName : w.event.name = name)
    (hToken : w.event.token = a.token)
    (hSame : a'.token = a.token ∧ a'.retry = a.retry) :
    OwnArm nextArm (fires.set i { w with phase := .done }) name a' := by
  have hNone :
      ∀ (j : Nat) (v : FireWork),
        (fires.set i { w with phase := .done })[j]? = some v →
        ¬ Active v name a'.token := by
    intro j v hv hActive
    rw [hSame.1] at hActive
    rcases Lib.Heap.getElem_set hv with ⟨rfl, rfl⟩ | ⟨hij, hv⟩
    · exact hActive.1 rfl
    · exact hij
        (h.alone j i v w hv hw hActive ⟨hPhase, hName, hToken⟩)
  refine ⟨?_, ?_, ?_, ?_⟩
  · rw [hSame.1]
    exact h.token
  · rw [hSame.1, hSame.2]
    exact h.retry
  · exact fun j v hv hActive => absurd hActive (hNone j v hv)
  · exact fun j _ v _ hv _ hActive _ => absurd hActive (hNone j v hv)

/- A worker that carries another name or token is not seen. -/
theorem append
    (hOther : ¬ Active w name a.token) :
    OwnArm nextArm (fires ++ [w]) name a := by
  have hOld :
      ∀ (j : Nat) (v : FireWork), (fires ++ [w])[j]? = some v →
        Active v name a.token → fires[j]? = some v := by
    intro j v hv hActive
    rcases Lib.Heap.getElem_snoc hv with hIn | ⟨_, rfl⟩
    · exact hIn
    · exact absurd hActive hOther
  refine ⟨h.token, h.retry, ?_, ?_⟩
  · intro j v hv hActive
    exact h.firing j v (hOld j v hv hActive) hActive
  · intro j k v v' hv hv' hActive hActive'
    exact h.alone j k v v' (hOld j v hv hActive)
      (hOld k v' hv' hActive') hActive hActive'

end

end OwnArm

------------------------------------------------------------
-- The Engine
------------------------------------------------------------

namespace Engine

variable {s : Engine K}

/- Every armed timer owns its callback and its retry. -/
structure Owned (s : Engine K) : Prop where
  arms :
    ∀ name a, s.find name = some a →
      OwnArm s.nextArm s.fires name a
  fires : ∀ w ∈ s.fires, w.event.token ≤ s.nextArm

namespace Owned

theorem put
    {a b : Armed K}
    (h : s.Owned)
    (hFind : s.find a.name = some b)
    (ha : OwnArm s.nextArm s.fires a.name a) :
    (s.put a).Owned :=
  ⟨forall_put h.arms hFind ha, h.fires⟩

theorem reschedule
    [Calendar K]
    {a b : Armed K}
    (h : s.Owned)
    (hFind : s.find a.name = some b)
    (ha : OwnArm s.nextArm s.fires a.name a) :
    (s.rescheduleLocked a).Owned := by
  have hKept := kept_reschedule s a
  constructor
  · rw [hKept.nextArm, hKept.fires]
    exact forall_reschedule (fun _ _ _ hSame h => h.same hSame) h.arms
      hFind ha
  · rw [hKept.nextArm, hKept.fires]
    exact h.fires

variable {a : Armed K}

/- The event of a deadline carries the name and the token. -/
theorem accept_event
    (cfg : Config)
    (due : DueTimer)
    (actual : Time)
    (h : OwnArm s.nextArm s.fires a.name a) :
    (s.accept cfg a due actual).1.token = a.token ∧
      (s.accept cfg a due actual).1.name = a.name := by
  unfold accept
  split
  · rename_i r hRetry
    exact h.retry r hRetry
  · dsimp only
    split
    · exact ⟨rfl, rfl⟩
    · exact ⟨rfl, rfl⟩

/- A timer without a callback gets one. -/
theorem launch
    [Calendar K]
    (cfg : Config)
    (due : DueTimer)
    (actual : Time)
    (h : s.Owned)
    (hFind : s.find a.name = some a)
    (hReady : a.firing = false) :
    (s.launch cfg a due actual).Owned := by
  have hOwn := h.arms a.name a hFind
  have hEvent := accept_event cfg due actual hOwn
  rcases launch_eq cfg s a due actual with
    ⟨rt, a', n, event, pq, items, k, g, p, rfl, _, hSame, hEq⟩
  have hName := hSame.name
  -- the arm had no worker before
  have hNone :
      ∀ (i : Nat) (w : FireWork), s.fires[i]? = some w →
        ¬ Active w a.name a.token := by
    intro i w hw hActive
    have hFiring := hOwn.firing i w hw hActive
    rw [hReady] at hFiring
    cases hFiring
  rw [hEq]
  constructor
  · intro name c hc
    by_cases hOther : name = a.name
    · subst hOther
      have hSelf : (s.put a').find a'.name = some a' := by
        rw [← hName] at hFind
        exact find_put_self hFind
      rw [hName] at hSelf
      have hc' : (s.put a').find a.name = some c := hc
      rw [hSelf] at hc'
      cases hc'
      refine ⟨?_, ?_, ?_, ?_⟩
      · rw [hSame.token]
        exact hOwn.token
      · intro r hr
        rw [hSame.retry] at hr
        cases hr
      · intro _ _ _ _
        exact hSame.firing
      · intro i j w w' hw hw' hActive hActive'
        rw [hSame.token] at hActive hActive'
        rcases Lib.Heap.getElem_snoc hw with hOld | ⟨hi, _⟩
        · exact absurd hActive (hNone i w hOld)
        · rcases Lib.Heap.getElem_snoc hw' with hOld | ⟨hj, _⟩
          · exact absurd hActive' (hNone j w' hOld)
          · rw [hi, hj]
    · have hc' : (s.put a').find name = some c := hc
      rw [find_put_ne (by rw [hName]; exact hOther)] at hc'
      refine (h.arms name c hc').append ?_
      intro hActive
      exact hOther (hActive.2.1.symm.trans hEvent.2)
  · intro w hw
    rcases List.mem_append.mp hw with hOld | hNew
    · exact h.fires w hOld
    · rw [List.mem_singleton.mp hNew]
      dsimp only
      rw [hEvent.1]
      exact hOwn.token

variable {s' : Engine K}
variable {now : Time}
variable {due : DueTimer}

theorem popped
    (h : s.Owned)
    (hPopped : Popped s now due s' a) :
    s'.Owned := by
  have hFind := hPopped.own
  rcases hPopped.after with ⟨pq, rfl⟩
  refine Owned.put (s := { s with pq := pq })
    (a := { a with item := none }) (b := a) { h with } hFind ?_
  exact (h.arms a.name a hFind).congr rfl rfl (Or.inl rfl)

variable {cfg : Config}

section

variable (h : s.Owned)

include h

theorem consume
    [Calendar K]
    (hPopped : Popped s now due s' a) :
    (s'.consumeLocked cfg due now).Owned := by
  have h' := h.popped hPopped
  exact hPopped.consume_rule h' (fun _ hFound =>
    h'.launch cfg due now hFound hPopped.ready)

theorem arm
    [Calendar K]
    (cfg : Config)
    (spec : Spec K) :
    (s.arm cfg spec).Owned := by
  -- no worker carries the new token
  have hFresh :
      ∀ (i : Nat) (w : FireWork), s.fires[i]? = some w →
        ∀ name, ¬ Active w name (s.nextArm + 1) := by
    intro i w hw name hActive
    have hOld := h.fires w (List.mem_of_getElem? hw)
    rw [hActive.2.2] at hOld
    omega
  have hArms :
      ∀ name a, s.find name = some a →
        OwnArm (s.nextArm + 1) s.fires name a := by
    intro name a hFind
    have hOwn := h.arms name a hFind
    exact ⟨Nat.le_succ_of_le hOwn.token, hOwn.retry, hOwn.firing,
      hOwn.alone⟩
  have hNew :
      ∀ (name : String) (a : Armed K), a.token = s.nextArm + 1 →
        a.retry = none → OwnArm (s.nextArm + 1) s.fires name a := by
    intro name a hToken hRetry
    refine ⟨Nat.le_of_eq hToken, ?_, ?_, ?_⟩
    · intro r hr
      rw [hRetry] at hr
      cases hr
    · intro i w hw hActive
      rw [hToken] at hActive
      exact absurd hActive (hFresh i w hw name)
    · intro i _ w _ hw _ hActive _
      rw [hToken] at hActive
      exact absurd hActive (hFresh i w hw name)
  have hFires : ∀ w ∈ s.fires, w.event.token ≤ s.nextArm + 1 :=
    fun w hw => Nat.le_succ_of_le (h.fires w hw)
  refine arm_rule h (fun t a b hEnrols => ?_)
  have hOwn := hNew a.name a hEnrols.token hEnrols.retry
  have hAll := hEnrols.forall_find hArms hOwn
  rcases hEnrols.state with ⟨_, _, _, _, rfl⟩
  exact Owned.reschedule ⟨hAll, hFires⟩ hEnrols.find hOwn

theorem disarm
    (name : String) :
    (s.disarm name).Owned := by
  have hKept := kept_disarm s name
  constructor
  · intro other a hFind
    rw [hKept.nextArm, hKept.fires]
    exact h.arms other a (find_disarm hFind).1
  · rw [hKept.nextArm, hKept.fires]
    exact h.fires

theorem noteActive
    [Calendar K]
    (unit : String)
    (when : Time)
    (name : String) :
    (Engine.noteActive unit when s name).Owned :=
  noteActive_rule h (fun a hFind _ _ => h.reschedule (b := a) hFind
    ((h.arms a.name a hFind).congr rfl rfl (Or.inl rfl)))

theorem replan
    [Calendar K]
    (name : String) :
    (s.replan name).Owned :=
  replan_rule h
    (fun a hFind => h.put (b := a) hFind
      ((h.arms a.name a hFind).congr rfl rfl (Or.inl rfl)))
    (fun a hFind _ => h.reschedule hFind (h.arms a.name a hFind))

theorem retry
    [Calendar K]
    (event : Fire) :
    (s.retry event).Owned := by
  refine retry_rule h ?_
  intro a after hFind hName hToken
  have hOwn := h.arms a.name a hFind
  refine h.reschedule (b := a) hFind
    ⟨hOwn.token, ?_, hOwn.firing, hOwn.alone⟩
  intro r hr
  cases hr
  exact ⟨hToken, hName⟩

theorem persistSettle
    [Calendar K]
    (event : Fire)
    (ref : Nat)
    (err : Option String) :
    (s.persistSettle event ref err).1.Owned :=
  persistSettle_rule { h with } (fun a _ _ hFind _ _ =>
    Owned.reschedule (b := a) { h with } hFind
      ((h.arms a.name a hFind).congr rfl rfl (Or.inl rfl)))

end

variable {i : Nat}
variable {w : FireWork}

theorem setFire
    (h : s.Owned)
    (hw : s.fires[i]? = some w)
    (hPhase : w.phase ≠ .done)
    (phase : FirePhase) :
    (s.setFire i { w with phase := phase }).Owned := by
  constructor
  · intro name a hFind
    exact (h.arms name a hFind).setPhase hw hPhase phase
  · intro v hv
    rcases List.mem_or_eq_of_mem_set hv with hOld | rfl
    · exact h.fires v hOld
    · exact h.fires w (List.mem_of_getElem? hw)

/- The worker ends and its timer no longer fires. -/
theorem fireDone
    [Calendar K]
    (h : s.Owned)
    (hw : s.fires[i]? = some w)
    (hPhase : w.phase ≠ .done) :
    ((s.fireDone w).setFire i { w with phase := .done }).Owned := by
  have hSet := h.setFire hw hPhase .done
  refine fireDone_rule
    (P := fun t => (t.setFire i { w with phase := .done }).Owned)
    { hSet with } ?_
  rintro a _ error rfl _ hFound hName hToken
  have hOwn :
      OwnArm s.nextArm (s.fires.set i { w with phase := .done }) a.name
        { a with firing := false, storageError := error } :=
    (h.arms a.name a hFound).ended hw hPhase hName hToken ⟨rfl, rfl⟩
  have hKept := kept_reschedule
    { s with activeFires := s.activeFires - 1 }
    { a with firing := false, storageError := error }
  refine ⟨?_, fun _ => ⟨forall_put hSet.arms hFound hOwn, hSet.fires⟩⟩
  constructor
  · show ∀ name c, _ →
      OwnArm (rescheduleLocked _ _).nextArm
        ((rescheduleLocked _ _).fires.set i _) name c
    rw [hKept.nextArm, hKept.fires]
    exact forall_reschedule (fun _ _ _ hSame h => h.same hSame)
      hSet.arms hFound hOwn
  · show ∀ v ∈ (rescheduleLocked _ _).fires.set i _,
      v.event.token ≤ (rescheduleLocked _ _).nextArm
    rw [hKept.nextArm, hKept.fires]
    exact hSet.fires

theorem applyResult
    (h : s.Owned)
    (w : ResultWork) :
    (s.applyResult w).Owned :=
  applyResult_rule h (fun a hFind _ _ _ => h.put (b := a) hFind
    ((h.arms a.name a hFind).congr rfl rfl (Or.inr rfl)))

/- A loaded timer has a retry for its own arm, if any. -/
theorem loaded
    {name : String}
    (h : OwnArm s.nextArm s.fires name a)
    (hName : a.name = name)
    (c : Reading)
    (result : Except String Runtime) :
    OwnArm s.nextArm s.fires name (loaded c a result) := by
  unfold Engine.loaded
  dsimp only
  split
  · exact h.congr rfl rfl (Or.inl rfl)
  · split
    · split
      · exact h.congr rfl rfl (Or.inl rfl)
      · refine ⟨h.token, ?_, h.firing, h.alone⟩
        intro r hr
        cases hr
        exact ⟨rfl, hName⟩
    · exact h.congr rfl rfl (Or.inl rfl)

theorem loadApply
    [Calendar K]
    (h : s.Owned)
    (name : String)
    (ref : Nat)
    (result : Except String Runtime) :
    (s.loadApply name ref result).Owned := by
  refine loadApply_rule { h with } ?_
  rintro a _ rfl hFind hSame _ _ _
  exact Owned.reschedule { h with } hFind
    (Owned.loaded (h.arms _ a hFind) hSame.symm s.clock result)

theorem planPublish
    (h : s.Owned)
    (name : String)
    (ref gen clockGen : Nat)
    (found : Deadline) :
    (s.planPublish name ref gen clockGen found).Owned :=
  planPublish_rule { h with } (fun a _ _ _ _ hFind _ =>
    Owned.put (b := a) { h with } hFind
      ((h.arms a.name a hFind).congr rfl rfl (Or.inl rfl)))

theorem fireMove
    [Calendar K]
    (h : s.Owned)
    (hw : s.fires[i]? = some w)
    (hMove : FireMove cfg s i w s') :
    s'.Owned := by
  cases hMove with
  | hold hPhase =>
      have hSet := h.setFire hw (by rw [hPhase]; simp) .save
      exact { hSet with }
  | pass hPhase | late hPhase | back hPhase =>
      exact h.setFire hw (by rw [hPhase]; simp) .finish
  | save r disk err hPhase =>
      have hSet := h.setFire hw (by rw [hPhase]; simp) (.settle err)
      exact { hSet with }
  | ready err hPhase | drop err hPhase =>
      refine (h.persistSettle w.event w.ref err).setFire ?_
        (by rw [hPhase]; simp) _
      rw [persistSettle_fires]
      exact hw
  | call hPhase => exact h.setFire hw (by rw [hPhase]; simp) .calling
  | done hPhase => exact h.fireDone hw (by rw [hPhase]; simp)

theorem resultMove
    [Calendar K]
    {w : ResultWork}
    (h : s.Owned)
    (hMove : ResultMove cfg s i w s') :
    s'.Owned := by
  cases hMove with
  | hold | pass | save => exact { h with }
  | ready err | drop err =>
      have hSettle := h.persistSettle w.event w.ref err
      exact { hSettle with }
  | apply =>
      have hApplied := h.applyResult w
      exact { hApplied with }

/-
  A deadline that is consumed by a running engine: its timer
  fires, and the others are left alone.
-/
theorem took
    [Calendar K]
    (cfg : Config)
    (h : s.Owned)
    (hPopped : Popped s now due s' a)
    (hRun : s.running = true) :
    ∃ event rt b, event.name = due.name ∧ event.token = a.token ∧
      (s'.accept cfg { a with item := none } due now).1 = event ∧
      SameArm
        { a with item := none, retry := none, rt := rt, firing := true }
        b ∧
      (s'.consumeLocked cfg due now).find due.name = some b ∧
      (∀ name, name ≠ due.name →
        (s'.consumeLocked cfg due now).find name = s.find name) ∧
      (s'.consumeLocked cfg due now).consumed =
        s.consumed ++ [s'.taken { a with item := none } event] ∧
      (s'.consumeLocked cfg due now).running = true := by
  have hName := name_of_find hPopped.find
  have hFound := hPopped.found
  rw [← hName] at hFound
  have hEvent := accept_event (a := { a with item := none }) cfg due now
    ((h.popped hPopped).arms a.name _ hFound)
  have hSame : s'.running = s.running ∧ s'.consumed = s.consumed := by
    rcases hPopped.after with ⟨pq, rfl⟩
    exact ⟨rfl, rfl⟩
  rcases launch_eq cfg s' { a with item := none } due now with
    ⟨rt, b, n, event, pq, items, k, g, p, hFire, _, hArm, hEq⟩
  have hNameB : b.name = a.name := hArm.name
  rw [hFire] at hEvent
  rw [hPopped.consume, if_neg (by rw [hRun]; simp), hEq]
  refine ⟨event, rt, b, hEvent.2.trans hName, hEvent.1, hFire, hArm, ?_,
    ?_, ?_, hSame.1.trans hRun⟩
  · have hSelf : (s'.put b).find b.name = some b := by
      refine find_put_self (b := { a with item := none }) ?_
      rw [hNameB]
      exact hFound
    rw [hNameB, hName] at hSelf
    exact hSelf
  · intro name hNe
    have hPut : (s'.put b).find name = s'.find name := by
      refine find_put_ne ?_
      rw [hNameB, hName]
      exact hNe
    exact hPut.trans (hPopped.others hNe)
  · show s'.consumed ++ _ = _
    rw [hSame.2]

/- Every step keeps the ownership. -/
theorem step
    [Calendar K]
    {l : Label K}
    (h : s.Owned)
    (hInstalled : s.Installed)
    (hStep : s.step cfg l = some s') :
    s'.Owned := by
  refine Carries.step ?_ hInstalled.dropStale h hStep
  exact
    { set := fun _ _ _ ht _ => { ht with }
      stop := { h with }
      arm := fun spec _ => h.arm cfg spec
      disarm := fun _ name ht _ => ht.disarm name
      note := fun _ _ _ name ht _ => ht.noteActive _ _ name
      fireDue := fun _ ht =>
        (fireDue_rule (P := Owned) cfg
          (fun _ _ _ _ _ hOwned _ hPopped _ => hOwned.consume hPopped)
          (hInstalled.ticked _) ht).1
      replan := fun _ name ht => ht.replan name
      retry := fun event _ => h.retry event
      record := fun event success _ => by
        rcases recordResult_eq s event success with ⟨results, hEq⟩
        rw [hEq]
        exact { h with }
      plan := fun hPlan => by
        cases planStep_move hPlan with
        | pick => exact { h with }
        | publish name ref gen clockGen found =>
            exact h.planPublish name ref gen clockGen found
      load := fun _ _ _ hMove => by
        cases hMove with
        | pick | exit | hold | pass | read => exact { h with }
        | apply name ref result => exact h.loadApply name ref result
      fire := fun _ _ hw hMove => h.fireMove hw hMove
      result := fun _ _ _ hMove => h.resultMove hMove }

theorem of_initial
    (h : s.Initial) :
    s.Owned := by
  rcases h with ⟨clock, disk, _, rfl⟩
  constructor
  · intro name a hFind
    cases hFind
  · intro w hw
    cases hw

theorem of_reachable
    [Calendar K]
    (h : (timing K cfg).Reachable s) :
    s.Owned := by
  refine Lib.System.reachable_invariant ?_ ?_ h
  · intro t hInit
    exact of_initial hInit
  · intro t l t' hReach hOwned hStep
    exact Owned.step (s := t) hOwned (Installed.of_reachable hReach) hStep

end Owned

------------------------------------------------------------
-- Error Texts
------------------------------------------------------------

/- The errors that the workers carry have a text. -/
structure Worded (s : Engine K) : Prop where
  fires : ∀ w ∈ s.fires, w.phase ≠ .settle (some "")
  results : ∀ w ∈ s.results, w.phase ≠ .settle (some "")
  loader : ∀ name ref, s.loader ≠ some (.apply name ref (.error ""))

namespace Worded

variable {s' : Engine K}

/- The workers are as they were; the loader may have started. -/
theorem congr
    (h : s.Worded)
    (hFires : s'.fires = s.fires)
    (hResults : s'.results = s.results)
    (hLoader : s'.loader = s.loader ∨ s'.loader = some .pick) :
    s'.Worded := by
  refine ⟨?_, ?_, ?_⟩
  · rw [hFires]
    exact h.fires
  · rw [hResults]
    exact h.results
  · intro name ref hApply
    rcases hLoader with hSame | hPick
    · exact h.loader name ref (hSame.symm.trans hApply)
    · rw [hPick] at hApply
      cases hApply

theorem kept
    (h : s.Worded)
    (hKept : s.Kept s') :
    s'.Worded :=
  h.congr hKept.fires hKept.results (Or.inl hKept.loader)

variable {cfg : Config}

theorem consume
    [Calendar K]
    {now : Time}
    {due : DueTimer}
    {a : Armed K}
    (h : s.Worded)
    (hPopped : Popped s now due s' a) :
    (s'.consumeLocked cfg due now).Worded := by
  have h' : s'.Worded := by
    rcases hPopped.after with ⟨pq, rfl⟩
    exact { h with }
  refine hPopped.consume_rule h' (fun _ _ => ?_)
  rcases launch_eq cfg s' { a with item := none } due now with
    ⟨_, _, _, _, _, _, _, _, _, _, _, _, hEq⟩
  rw [hEq]
  refine ⟨?_, h'.results, h'.loader⟩
  intro w hw
  rcases List.mem_append.mp hw with hOld | hNew
  · exact h'.fires w hOld
  · rw [List.mem_singleton.mp hNew]
    simp

variable {i : Nat}

section

variable (h : s.Worded)

include h

theorem setFire
    {w : FireWork}
    (hPhase : w.phase ≠ .settle (some "")) :
    (s.setFire i w).Worded := by
  refine ⟨?_, h.results, h.loader⟩
  intro v hv
  rcases List.mem_or_eq_of_mem_set hv with hOld | rfl
  · exact h.fires v hOld
  · exact hPhase

variable {w : ResultWork}

theorem setResult
    (hPhase : w.phase ≠ .settle (some "")) :
    (s.setResult i w).Worded := by
  refine ⟨h.fires, ?_, h.loader⟩
  intro v hv
  rcases List.mem_or_eq_of_mem_set hv with hOld | rfl
  · exact h.results v hOld
  · exact hPhase

theorem persistSettle
    [Calendar K]
    (event : Fire)
    (ref : Nat)
    (err : Option String) :
    (s.persistSettle event ref err).1.Worded := by
  have hFree : Worded { s with storageIO := false } := { h with }
  exact persistSettle_rule hFree
    (fun _ _ _ _ _ _ => hFree.kept (kept_reschedule _ _))

theorem fireMove
    [Calendar K]
    {w : FireWork}
    (hMove : FireMove cfg s i w s') :
    s'.Worded := by
  cases hMove with
  | hold =>
      exact setFire (s := { s with storageIO := true })
        { h with } (by simp)
  | pass | call | late | back => exact h.setFire (by simp)
  | save r disk err _ hSave =>
      refine setFire
        (s := { s with
          disk := disk, saved := s.savedAfter w.event w.rt err })
        { h with } ?_
      have hText := save_text hSave
      simpa using hText
  | ready err | drop err =>
      exact (h.persistSettle _ _ err).setFire (by simp)
  | done =>
      refine setFire ?_ (by simp)
      have hLess : Worded { s with activeFires := s.activeFires - 1 } :=
        { h with }
      exact fireDone_rule hLess (fun _ _ _ _ _ _ _ _ =>
        ⟨hLess.kept (kept_reschedule _ _), fun _ => { h with }⟩)

theorem resultMove
    [Calendar K]
    (hMove : ResultMove cfg s i w s') :
    s'.Worded := by
  cases hMove with
  | hold =>
      exact setResult (s := { s with storageIO := true })
        { h with } (by simp)
  | pass => exact h.setResult (by simp)
  | save r disk err _ hSave =>
      refine setResult
        (s := { s with
          disk := disk, saved := s.savedAfter w.event w.rt err })
        { h with } ?_
      have hText := save_text hSave
      simpa using hText
  | ready err | drop err =>
      exact (h.persistSettle _ _ err).setResult (by simp)
  | apply =>
      refine setResult ?_ (by simp)
      exact applyResult_rule h (fun _ _ _ _ _ => { h with })

theorem loadMove
    [Calendar K]
    (hMove : LoadMove cfg s s') :
    s'.Worded := by
  cases hMove with
  | pick | exit | hold | pass =>
      exact ⟨h.fires, h.results, fun _ _ hApply => by cases hApply⟩
  | read name ref r result _ hLoad =>
      refine ⟨h.fires, h.results, ?_⟩
      intro n k hApply
      cases hApply
      exact load_text hLoad
  | apply name ref result =>
      have hFree :
          Worded { s with storageIO := false, loader := some .pick } :=
        h.congr rfl rfl (Or.inr rfl)
      exact loadApply_rule hFree
        (fun _ _ _ _ _ _ _ _ => hFree.kept (kept_reschedule _ _))

theorem recordResult
    (event : Fire)
    (success : Bool) :
    (s.recordResult event success).Worded := by
  rcases recordResult_cases s event success with
    hEq | ⟨_, _, _, _, _, _, _, hEq⟩
  · rw [hEq]
    exact h
  · rw [hEq]
    refine ⟨h.fires, ?_, h.loader⟩
    intro v hv
    rcases List.mem_append.mp hv with hOld | hNew
    · exact h.results v hOld
    · rw [List.mem_singleton.mp hNew]
      simp

/- Every step keeps the texts. -/
theorem step
    [Calendar K]
    {l : Label K}
    (hInstalled : s.Installed)
    (hStep : s.step cfg l = some s') :
    s'.Worded := by
  refine Carries.step ?_ hInstalled.dropStale h hStep
  exact
    { set := fun _ _ _ ht _ => { ht with }
      stop := { h with }
      arm := fun spec _ => arm_rule h (fun t a b hNew => by
        rcases hNew.state with ⟨_, _, _, hLoader, rfl⟩
        refine kept ?_ (kept_reschedule _ _)
        exact h.congr rfl rfl hLoader)
      disarm := fun t name ht _ => ht.kept (kept_disarm t name)
      note := fun _ t _ name ht _ =>
        ht.kept (kept_noteActive t _ _ name)
      fireDue := fun _ ht =>
        (fireDue_rule (P := Worded) cfg
          (fun _ _ _ _ _ hU _ hPopped _ => hU.consume hPopped)
          (hInstalled.ticked _) ht).1
      replan := fun t name ht => ht.kept (kept_replan t name)
      retry := fun event _ => h.kept (kept_retry s event)
      record := fun event success _ => h.recordResult event success
      plan := fun hPlan => h.kept (kept_planMove (planStep_move hPlan))
      load := fun _ _ _ hMove => h.loadMove hMove
      fire := fun _ _ _ hMove => h.fireMove hMove
      result := fun _ _ _ hMove => h.resultMove hMove }

end

theorem of_reachable
    [Calendar K]
    (h : (timing K cfg).Reachable s) :
    s.Worded := by
  refine Lib.System.reachable_invariant ?_ ?_ h
  · rintro t ⟨clock, disk, _, rfl⟩
    exact ⟨by simp [start], by simp [start], by simp [start]⟩
  · intro t l t' hReach hWorded hStep
    exact Worded.step (s := t) hWorded (Installed.of_reachable hReach)
      hStep

end Worded

end Engine

end Timers

end Winunitd
