import Winunitd.Timers.Writes
import Winunitd.Timers.OnceFired

/-
  Durable intent.

  A deadline of a persistent calendar is given an identifier and
  a pending record, which is saved before the callback runs.  A
  pending record is answered by a result, kept for a retry, or
  left in a suspended timer, so that no second record is made
  while the first one is pending.  The callbacks report only
  what they were given, before they return.

  Key definitions include:
    * `Durable`, `Told`, `Pends`
    * `Engine.Reports`
    * `ArmIntent`, `Engine.Intended`
    * `Engine.Intent`

  Key theorems include:
    * `Engine.Intended.step`
    * `Engine.durable_intent`
-/

------------------------------------------------------------
-- Records And Reports
------------------------------------------------------------

namespace Winunitd

namespace Timers

variable {K : Type}

/- A pending record of the event was saved for its arm. -/
def Durable (saved : List (Fire × Runtime)) (event : Fire) : Prop :=
  ∃ rt, (event, rt) ∈ saved ∧
    rt.activation.id = event.activationID ∧
    rt.activation.result = .pending

/- A result of the event was reported. -/
def Told (results : List ResultWork) (event : Fire) : Prop :=
  ∃ v ∈ results, v.event.name = event.name ∧
    v.event.token = event.token ∧
    v.event.activationID = event.activationID

/- The record is pending for the event. -/
def Pends (rt : Runtime) (event : Fire) : Prop :=
  rt.activation.id = event.activationID ∧
    rt.activation.unit = event.unit ∧
    rt.activation.result = .pending

/- Deadlines of the timer have an identifier. -/
def Armed.Identified (a : Armed K) : Prop :=
  a.spec.persistent = true ∧ a.spec.onCalendar ≠ []

/- The event has an identifier if the timer's deadlines do. -/
def Kind (a : Armed K) (event : Fire) : Prop :=
  event.activationID ≠ "" ↔ a.Identified

/- What an armed timer, its workers and its retry agree on. -/
structure ArmIntent
    (fires : List FireWork)
    (results : List ResultWork)
    (saved : List (Fire × Runtime))
    (name : String)
    (a : Armed K) : Prop where
  quiet :
    a.loading = true →
      (∀ w ∈ fires, w.event.name = name → w.event.token ≠ a.token) ∧
        ∀ v ∈ results, v.event.name = name →
          v.event.token ≠ a.token
  calm : a.loading = true → a.storageError = "" ∧ a.retry = none
  answered :
    a.rt.activation.result = .pending →
      a.loading = true ∨ a.storageError ≠ "" ∨ a.firing = true ∨
        a.retry ≠ none
  retried :
    ∀ r, a.retry = some r →
      Kind a r.event ∧
        (a.rt.activation.result = .pending → Pends a.rt r.event) ∧
        (r.event.activationID ≠ "" →
          Pends a.rt r.event ∨
            Durable saved r.event ∧ Told results r.event)
  fired :
    ∀ w ∈ fires, Active w name a.token →
      Kind a w.event ∧
        (a.rt.activation.result = .pending → Pends a.rt w.event) ∧
        (w.event.activationID ≠ "" →
          Pends a.rt w.event ∨ Told results w.event)
  reported :
    ∀ v ∈ results, v.event.name = name → v.event.token = a.token →
      Kind a v.event

/- A callback's record, and what is saved before the callback. -/
structure FireIntent
    (saved : List (Fire × Runtime))
    (w : FireWork) : Prop where
  record :
    w.event.activationID ≠ "" →
      Pends w.rt w.event ∨ Durable saved w.event
  sent :
    w.phase = .settle none ∨ w.phase = .current ∨
        w.phase = .calling →
      w.event.activationID ≠ "" → Durable saved w.event

variable {saved saved' : List (Fire × Runtime)}

theorem Durable.more
    {event : Fire}
    (hSaved : ∀ x ∈ saved, x ∈ saved')
    (h : Durable saved event) :
    Durable saved' event :=
  h.imp (fun _ hRt => ⟨hSaved _ hRt.1, hRt.2⟩)

theorem FireIntent.more
    {w : FireWork}
    (hSaved : ∀ x ∈ saved, x ∈ saved')
    (h : FireIntent saved w) :
    FireIntent saved' w :=
  ⟨fun hID => (h.record hID).imp_right (.more hSaved),
    fun hp hID => (h.sent hp hID).more hSaved⟩

namespace Engine

variable {s s' : Engine K}

/- Callbacks report on their own event, while they run. -/
def Reports (s : Engine K) : Label K → Prop
| .retry event => ∃ w ∈ s.fires, w.phase = .calling ∧ w.event = event
| .recordResult event _ =>
    ∃ w ∈ s.fires, w.phase = .calling ∧ w.event = event
| _ => True

instance (s : Engine K) : ∀ l, Decidable (s.Reports l)
| .retry event =>
    inferInstanceAs
      (Decidable
        (∃ w ∈ s.fires, w.phase = .calling ∧ w.event = event))
| .recordResult event _ =>
    inferInstanceAs
      (Decidable
        (∃ w ∈ s.fires, w.phase = .calling ∧ w.event = event))
| .clock _ | .clockChanged _ _ | .unitActive _ _ _ | .result _ _
| .arm _ | .disarm _ | .retain _ _ | .fireDue | .wait | .stop | .plan
| .load _ _ | .fire _ _ =>
    isTrue trivial

theorem noOutcome_ne : noOutcome ≠ "" := by
  decide +kernel

theorem retargeted_ne : retargeted ≠ "" := by
  decide +kernel

/- Every timer, worker and load agree. -/
structure Intended (s : Engine K) : Prop where
  arms :
    ∀ name a, s.find name = some a →
      ArmIntent s.fires s.results s.saved name a
  fires : ∀ w ∈ s.fires, FireIntent s.saved w
  results : ∀ v ∈ s.results, v.rt.activation.result ≠ .pending
  loader :
    ∀ name ref rt, s.loader = some (.apply name ref (.ok rt)) →
      rt.activation.result = .pending → rt.activation.id ≠ ""

end Engine

------------------------------------------------------------
-- Timers
------------------------------------------------------------

namespace ArmIntent

variable {fires fires' : List FireWork}
variable {results results' : List ResultWork}
variable {saved saved' : List (Fire × Runtime)}
variable {name : String}
variable {a b : Armed K}

/- Only what the agreement speaks of has to be the same. -/
theorem congr
    (h : ArmIntent fires results saved name a)
    (hLoading : b.loading = a.loading)
    (hError : b.storageError = a.storageError)
    (hFiring : b.firing = a.firing)
    (hRetry : b.retry = a.retry)
    (hToken : b.token = a.token)
    (hSpec : b.spec = a.spec)
    (hActivation : b.rt.activation = a.rt.activation) :
    ArmIntent fires results saved name b := by
  have hKind : ∀ event, Kind a event → Kind b event := by
    intro event hEvent
    unfold Kind Armed.Identified at hEvent ⊢
    rw [hSpec]
    exact hEvent
  have hPends : ∀ event, Pends a.rt event → Pends b.rt event := by
    intro event hEvent
    unfold Pends at hEvent ⊢
    rw [hActivation]
    exact hEvent
  refine ⟨?_, ?_, ?_, ?_, ?_, ?_⟩
  · rw [hLoading, hToken]
    exact h.quiet
  · rw [hLoading, hError, hRetry]
    exact h.calm
  · rw [hActivation, hLoading, hError, hFiring, hRetry]
    exact h.answered
  · intro r hr
    rw [hRetry] at hr
    rw [hActivation]
    rcases h.retried r hr with ⟨hKinds, hPending, hSaved⟩
    refine ⟨hKind _ hKinds, fun hp => hPends _ (hPending hp), ?_⟩
    exact fun hID => (hSaved hID).imp (hPends _) id
  · intro w hw hActive
    rw [hToken] at hActive
    rw [hActivation]
    rcases h.fired w hw hActive with ⟨hKinds, hPending, hTold⟩
    refine ⟨hKind _ hKinds, fun hp => hPends _ (hPending hp), ?_⟩
    exact fun hID => (hTold hID).imp (hPends _) id
  · intro v hv hName hEq
    rw [hToken] at hEq
    exact hKind _ (h.reported v hv hName hEq)

theorem same
    (hSame : SameArm a b)
    (h : ArmIntent fires results saved name a) :
    ArmIntent fires results saved name b :=
  h.congr hSame.loading hSame.storageError hSame.firing hSame.retry
    hSame.token hSame.spec (by rw [hSame.rt])

/-
  Workers of the timer go on to their next phases, and more is
  saved and reported; a new report is for a timer that is not
  loading.
-/
theorem grow
    (h : ArmIntent fires results saved name a)
    (hFires :
      ∀ w' ∈ fires', w'.event.name = name →
        ∃ w ∈ fires, w'.event = w.event ∧
          (w'.phase ≠ .done → w.phase ≠ .done))
    (hResults :
      ∀ v' ∈ results', v'.event.name = name →
        (∃ v ∈ results, v'.event = v.event) ∨
          a.loading = false ∧
            (v'.event.token = a.token → Kind a v'.event))
    (hTold : ∀ event, Told results event → Told results' event)
    (hSaved : ∀ x ∈ saved, x ∈ saved') :
    ArmIntent fires' results' saved' name a := by
  refine ⟨?_, h.calm, h.answered, ?_, ?_, ?_⟩
  · intro hLoading
    rcases h.quiet hLoading with ⟨hNone, hNone'⟩
    constructor
    · intro w' hw' hName
      rcases hFires w' hw' hName with ⟨w, hw, hEvent, _⟩
      rw [hEvent] at hName ⊢
      exact hNone w hw hName
    · intro v' hv' hName
      rcases hResults v' hv' hName with
        ⟨v, hv, hEvent⟩ | ⟨hReady, _⟩
      · rw [hEvent] at hName ⊢
        exact hNone' v hv hName
      · rw [hReady] at hLoading
        cases hLoading
  · intro r hr
    rcases h.retried r hr with ⟨hKind, hPending, hRecord⟩
    refine ⟨hKind, hPending, fun hID => ?_⟩
    rcases hRecord hID with hPends | ⟨⟨rt, hRt, hMatch⟩, hAnswer⟩
    · exact Or.inl hPends
    · exact Or.inr ⟨⟨rt, hSaved _ hRt, hMatch⟩, hTold _ hAnswer⟩
  · intro w' hw' hActive
    rcases hFires w' hw' hActive.2.1 with ⟨w, hw, hEvent, hPhase⟩
    unfold Active at hActive
    rw [hEvent] at hActive ⊢
    rcases h.fired w hw ⟨hPhase hActive.1, hActive.2⟩ with
      ⟨hKind, hPending, hAnswer⟩
    exact ⟨hKind, hPending, fun hID => (hAnswer hID).imp id (hTold _)⟩
  · intro v' hv' hName hToken
    rcases hResults v' hv' hName with ⟨v, hv, hEvent⟩ | ⟨_, hKind⟩
    · rw [hEvent] at hName hToken ⊢
      exact h.reported v hv hName hToken
    · exact hKind hToken

/- A timer with a new token has no workers. -/
theorem renew
    (hToken : ∀ w ∈ fires, w.event.token ≠ a.token)
    (hToken' : ∀ v ∈ results, v.event.token ≠ a.token)
    (hCalm : a.loading = true → a.storageError = "")
    (hRetry : a.retry = none)
    (hPending :
      a.rt.activation.result = .pending → a.loading = true) :
    ArmIntent fires results saved name a where
  quiet := fun _ => ⟨fun w hw _ => hToken w hw, fun v hv _ => hToken' v hv⟩
  calm := fun hLoading => ⟨hCalm hLoading, hRetry⟩
  answered := fun hp => Or.inl (hPending hp)
  retried := fun r hr => by rw [hRetry] at hr; cases hr
  fired := fun w hw hActive => absurd hActive.2.2 (hToken w hw)
  reported := fun v hv _ hEq => absurd hEq (hToken' v hv)

section

variable (h : ArmIntent fires results saved name a)

include h

/- A worker of the timer is at hand, so it is not loading. -/
theorem not_loading
    (hWork :
      (∃ w ∈ fires, w.event.name = name ∧ w.event.token = a.token) ∨
        ∃ v ∈ results, v.event.name = name ∧
          v.event.token = a.token) :
    a.loading = false := by
  by_contra hLoading
  rw [Bool.not_eq_false] at hLoading
  rcases hWork with ⟨w, hw, hName, hToken⟩ | ⟨v, hv, hName, hToken⟩
  · exact (h.quiet hLoading).1 w hw hName hToken
  · exact (h.quiet hLoading).2 v hv hName hToken

/- An error of a write suspends the timer. -/
theorem suspend
    {text : String}
    (hReady : a.loading = false)
    (hText : text ≠ "") :
    ArmIntent fires results saved name { a with storageError := text } where
  quiet := h.quiet
  calm := fun hLoading => by
    rw [show a.loading = true from hLoading] at hReady
    cases hReady
  answered := fun _ => Or.inr (Or.inl hText)
  retried := h.retried
  fired := h.fired
  reported := h.reported

/- The end of a callback answers a pending record. -/
theorem finish
    (hReady : a.loading = false) :
    ArmIntent fires results saved name (Engine.finished a) := by
  unfold Engine.finished
  split
  · refine ⟨h.quiet, ?_, ?_, h.retried, h.fired, h.reported⟩
    · intro hLoading
      rw [show a.loading = true from hLoading] at hReady
      cases hReady
    · intro _
      exact Or.inr (Or.inl Engine.noOutcome_ne)
  · rename_i hNot
    refine ⟨h.quiet, h.calm, ?_, h.retried, h.fired, h.reported⟩
    intro hPending
    by_cases hError : a.storageError = ""
    · exact Or.inr (Or.inr (Or.inr
        (fun hRetry => hNot ⟨hError, hPending, hRetry⟩)))
    · exact Or.inr (Or.inl hError)

/- A retry is kept for the callback that asks for it. -/
theorem keep
    {r : PendingRetry}
    {w : FireWork}
    (hw : w ∈ fires)
    (hActive : Active w name a.token)
    (hDurable :
      w.event.activationID ≠ "" → Durable saved w.event)
    (hEvent : r.event = w.event) :
    ArmIntent fires results saved name { a with retry := some r } := by
  have hReady :=
    h.not_loading (Or.inl ⟨w, hw, hActive.2.1, hActive.2.2⟩)
  refine ⟨h.quiet, ?_, ?_, ?_, h.fired, h.reported⟩
  · intro hLoading
    rw [show a.loading = true from hLoading] at hReady
    cases hReady
  · exact fun _ => Or.inr (Or.inr (Or.inr (by simp)))
  · rintro r' hr'
    cases hr'
    rw [hEvent]
    rcases h.fired w hw hActive with ⟨hKind, hPending, hTold⟩
    refine ⟨hKind, hPending, fun hID => ?_⟩
    exact (hTold hID).imp id (fun hAnswer => ⟨hDurable hID, hAnswer⟩)

/- A result takes the place of the pending record. -/
theorem settle
    {v : ResultWork}
    {rt : Runtime}
    (hv : v ∈ results)
    (hName : v.event.name = name)
    (hToken : v.event.token = a.token)
    (hID :
      v.event.activationID = "" ∨
        a.rt.activation.id = v.event.activationID)
    (hResult : rt.activation.result ≠ .pending) :
    ArmIntent fires results saved name
      { a with rt := rt, retry := none } := by
  have hReady := h.not_loading (Or.inr ⟨v, hv, hName, hToken⟩)
  have hKindV := h.reported v hv hName hToken
  refine ⟨h.quiet, ?_, fun hp => absurd hp hResult, ?_, ?_, h.reported⟩
  · intro hLoading
    rw [show a.loading = true from hLoading] at hReady
    cases hReady
  · rintro r hr
    cases hr
  · intro w hw hActive
    rcases h.fired w hw hActive with ⟨hKind, _, hTold⟩
    refine ⟨hKind, fun hp => absurd hp hResult, fun hSome => ?_⟩
    rcases hTold hSome with hPends | hAnswer
    · -- the record was that of the callback, and so is the result
      refine Or.inr ⟨v, hv, hName.trans hActive.2.1.symm,
        hToken.trans hActive.2.2.symm, ?_⟩
      rcases hID with hNone | hMatch
      · exact absurd hNone (hKindV.mpr (hKind.mp hSome))
      · exact hMatch.symm.trans hPends.1
    · exact Or.inr hAnswer

/- A stored record that is pending is kept for a retry. -/
theorem load
    {c : Reading}
    {result : Except String Runtime}
    (hLoading : a.loading = true)
    (hText : result ≠ .error "")
    (hRecord :
      ∀ rt, result = .ok rt → rt.activation.result = .pending →
        rt.activation.id ≠ "") :
    ArmIntent fires results saved name (Engine.loaded c a result) := by
  rcases h.quiet hLoading with ⟨hFires, hResults⟩
  rcases h.calm hLoading with ⟨_, hRetry⟩
  -- no worker has the token of the timer
  have hNew :
      ∀ b : Armed K, b.loading = false → b.token = a.token →
        (b.rt.activation.result = .pending →
          b.storageError ≠ "" ∨ b.retry ≠ none) →
        (∀ r, b.retry = some r → Kind b r.event ∧
          Pends b.rt r.event) →
        ArmIntent fires results saved name b := by
    intro b hb hToken hPending hKept
    refine ⟨?_, ?_, ?_, ?_, ?_, ?_⟩
    · intro hTrue
      rw [hb] at hTrue
      cases hTrue
    · intro hTrue
      rw [hb] at hTrue
      cases hTrue
    · intro hp
      rcases hPending hp with hError | hSome
      · exact Or.inr (Or.inl hError)
      · exact Or.inr (Or.inr (Or.inr hSome))
    · intro r hr
      rcases hKept r hr with ⟨hKind, hPends⟩
      exact ⟨hKind, fun _ => hPends, fun _ => Or.inl hPends⟩
    · intro w hw hActive
      rw [hToken] at hActive
      exact absurd hActive.2.2 (hFires w hw hActive.2.1)
    · intro v hv hOwn hEq
      rw [hToken] at hEq
      exact absurd hEq (hResults v hv hOwn)
  have hNone : ∀ b : Armed K, b.retry = a.retry →
      ∀ r, b.retry = some r → Kind b r.event ∧ Pends b.rt r.event := by
    intro b hb r hr
    rw [hb, hRetry] at hr
    cases hr
  unfold Engine.loaded
  dsimp only
  split
  · rename_i text
    refine hNew _ rfl rfl ?_ (hNone _ rfl)
    intro _
    left
    rintro rfl
    exact hText rfl
  · rename_i rt
    split
    · rename_i hPending
      split
      · refine hNew _ rfl rfl ?_ (hNone _ rfl)
        intro _
        exact Or.inl Engine.retargeted_ne
      · rename_i hTarget
        rw [not_or, not_or, Bool.not_eq_false, not_not] at hTarget
        refine hNew _ rfl rfl ?_ ?_
        · intro _
          right
          simp
        · rintro r hr
          cases hr
          refine ⟨?_, rfl, rfl, hPending⟩
          unfold Kind Armed.Identified
          exact ⟨fun _ => ⟨hTarget.1, hTarget.2.1⟩,
            fun _ => hRecord rt rfl hPending⟩
    · rename_i hPending
      refine hNew _ rfl rfl ?_ (hNone _ rfl)
      intro hp
      exact absurd hp hPending

end

end ArmIntent

------------------------------------------------------------
-- The Engine
------------------------------------------------------------

namespace Engine

variable {s s' : Engine K}

namespace Intended

section

variable (h : s.Intended)

include h

/- The armed timers, the workers and the loader decide. -/
theorem congr
    (hFind : ∀ name, s'.find name = s.find name)
    (hFires : s'.fires = s.fires)
    (hResults : s'.results = s.results)
    (hSaved : s'.saved = s.saved)
    (hLoader : s'.loader = s.loader ∨ s'.loader = some .pick) :
    s'.Intended := by
  refine ⟨?_, ?_, ?_, ?_⟩
  · intro name a ha
    rw [hFind] at ha
    rw [hFires, hResults, hSaved]
    exact h.arms name a ha
  · rw [hFires, hSaved]
    exact h.fires
  · rw [hResults]
    exact h.results
  · intro name ref rt hApply
    rcases hLoader with hSame | hPick
    · exact h.loader name ref rt (hSame.symm.trans hApply)
    · rw [hPick] at hApply
      cases hApply

theorem kept
    (hKept : s.Kept s')
    (hArms :
      ∀ name a, s'.find name = some a →
        ArmIntent s.fires s.results s.saved name a) :
    s'.Intended := by
  refine ⟨?_, ?_, ?_, ?_⟩
  · rw [hKept.fires, hKept.results, hKept.saved]
    exact hArms
  · rw [hKept.fires, hKept.saved]
    exact h.fires
  · rw [hKept.results]
    exact h.results
  · rw [hKept.loader]
    exact h.loader

theorem put
    {a b : Armed K}
    (hFind : s.find a.name = some b)
    (ha : ArmIntent s.fires s.results s.saved a.name a) :
    (s.put a).Intended :=
  ⟨forall_put h.arms hFind ha, h.fires, h.results, h.loader⟩

theorem reschedule
    [Calendar K]
    {a b : Armed K}
    (hFind : s.find a.name = some b)
    (ha : ArmIntent s.fires s.results s.saved a.name a) :
    (s.rescheduleLocked a).Intended :=
  h.kept (kept_reschedule s a)
    (forall_reschedule (fun _ _ _ hSame hc => hc.same hSame) h.arms
      hFind ha)

theorem disarm
    (name : String) :
    (s.disarm name).Intended :=
  h.kept (kept_disarm s name)
    (fun other a ha => h.arms other a (find_disarm ha).1)

theorem noteActive
    [Calendar K]
    (unit : String)
    (when : Time)
    (name : String) :
    (Engine.noteActive unit when s name).Intended :=
  noteActive_rule h (fun a hFind _ _ => h.reschedule (b := a) hFind
    ((h.arms a.name a hFind).congr rfl rfl rfl rfl rfl rfl rfl))

theorem replan
    [Calendar K]
    (name : String) :
    (s.replan name).Intended :=
  replan_rule h
    (fun a hFind => h.put (b := a) hFind
      ((h.arms a.name a hFind).congr rfl rfl rfl rfl rfl rfl rfl))
    (fun a hFind _ => h.reschedule hFind (h.arms a.name a hFind))

/- A callback asks for a retry while it runs. -/
theorem retry
    [Calendar K]
    {event : Fire}
    (hReports : s.Reports (.retry event)) :
    (s.retry event).Intended := by
  refine retry_rule h ?_
  intro a after hFind hName hToken
  rcases hReports with ⟨w, hw, hPhase, rfl⟩
  refine h.reschedule (b := a) hFind ?_
  refine (h.arms a.name a hFind).keep hw ?_ ?_ rfl
  · exact ⟨by rw [hPhase]; simp, hName, hToken⟩
  · exact (h.fires w hw).sent (Or.inr (Or.inr hPhase))

theorem planMove
    [Calendar K]
    (hMove : PlanMove s s') :
    s'.Intended := by
  cases hMove with
  | pick => exact h.congr (fun _ => rfl) rfl rfl rfl (Or.inl rfl)
  | publish name ref gen clockGen found =>
      refine planPublish_rule
        (h.congr (fun _ => rfl) rfl rfl rfl (Or.inl rfl)) ?_
      intro a item pq items k hFind _
      refine put (b := a) ?_ hFind ?_
      · exact h.congr (fun _ => rfl) rfl rfl rfl (Or.inl rfl)
      · exact (h.arms a.name a hFind).congr rfl rfl rfl rfl rfl rfl rfl

/- Tokens of workers are not above the last arm's. -/
theorem arm
    [Calendar K]
    (hOwned : s.Owned)
    (hOrdered : s.Ordered)
    (cfg : Config)
    (spec : Spec K) :
    (s.arm cfg spec).Intended := by
  have hFires : ∀ w ∈ s.fires, w.event.token ≠ s.nextArm + 1 := by
    intro w hw hEq
    have hLe := hOwned.fires w hw
    omega
  have hResults : ∀ v ∈ s.results, v.event.token ≠ s.nextArm + 1 := by
    intro v hv hEq
    have hLe := hOrdered.results v hv
    omega
  refine arm_rule h (fun t a b hNew => ?_)
  have hArm : ArmIntent s.fires s.results s.saved a.name a := by
    rcases hNew.origin with ⟨_, rfl⟩ | ⟨_, rfl, _⟩
    · unfold refreshed
      dsimp only
      split
      · exact .renew hFires hResults (fun _ => rfl) rfl (fun _ => rfl)
      · rename_i hNeeds
        unfold NeedsLoad at hNeeds
        rw [not_or, not_not] at hNeeds
        exact .renew hFires hResults (fun _ => hNeeds.1) rfl
          (fun hp => absurd hp hNeeds.2)
    · exact .renew hFires hResults (fun _ => rfl) rfl nofun
  have hArms := hNew.forall_find h.arms hArm
  have hFind := hNew.find
  rcases hNew.state with ⟨_, _, loader, hLoader, rfl⟩
  have hSame : Intended { s with loader := loader } :=
    h.congr (fun _ => rfl) rfl rfl rfl hLoader
  exact reschedule ⟨hArms, h.fires, h.results, hSame.loader⟩ hFind hArm

end

variable {i : Nat}
variable {w : FireWork}

section

variable (h : s.Intended)

include h

/- A worker goes on, and what is saved stays saved. -/
theorem advance
    (hw : s.fires[i]? = some w)
    (hPhase : w.phase ≠ .done)
    (saved : List (Fire × Runtime))
    (hSaved : ∀ x ∈ s.saved, x ∈ saved)
    (phase : FirePhase)
    (hSent :
      phase = .settle none ∨ phase = .current ∨ phase = .calling →
        w.event.activationID ≠ "" → Durable saved w.event) :
    Intended
      ({ s with saved := saved }.setFire i { w with phase := phase }) := by
  have hMem := List.mem_of_getElem? hw
  refine ⟨?_, ?_, h.results, h.loader⟩
  · intro name a ha
    refine (h.arms name a ha).grow ?_
      (fun v hv _ => Or.inl ⟨v, hv, rfl⟩) (fun _ hTold => hTold) hSaved
    intro w' hw' _
    rcases List.mem_or_eq_of_mem_set hw' with hOld | rfl
    · exact ⟨w', hOld, rfl, id⟩
    · exact ⟨w, hMem, rfl, fun _ => hPhase⟩
  · intro w' hw'
    rcases List.mem_or_eq_of_mem_set hw' with hOld | rfl
    · exact (h.fires w' hOld).more hSaved
    · exact ⟨((h.fires w hMem).more hSaved).record, hSent⟩

variable {v : ResultWork}

/- The phase of a result's call does not count. -/
theorem setResult
    (hv : s.results[i]? = some v)
    (saved : List (Fire × Runtime))
    (hSaved : ∀ x ∈ s.saved, x ∈ saved)
    (phase : ResultPhase) :
    Intended
      ({ s with saved := saved }.setResult i { v with phase := phase }) := by
  have hMem := List.mem_of_getElem? hv
  refine ⟨?_, ?_, ?_, h.loader⟩
  · intro name a ha
    refine (h.arms name a ha).grow (fun w hw _ => ⟨w, hw, rfl, id⟩)
      ?_ ?_ hSaved
    · intro v' hv' _
      rcases List.mem_or_eq_of_mem_set hv' with hOld | rfl
      · exact Or.inl ⟨v', hOld, rfl⟩
      · exact Or.inl ⟨v, hMem, rfl⟩
    · rintro event ⟨u, hu, hMatch⟩
      rcases List.mem_iff_getElem?.mp hu with ⟨j, hj⟩
      by_cases hSame : j = i
      · subst hSame
        rw [hv] at hj
        cases hj
        refine ⟨{ v with phase := phase }, ?_, hMatch⟩
        exact List.mem_set (List.getElem?_eq_some_iff.mp hv).1 _
      · refine ⟨u, List.mem_of_getElem? (i := j) ?_, hMatch⟩
        exact (List.getElem?_set_ne (Ne.symm hSame)).trans hj
  · exact fun w hw => (h.fires w hw).more hSaved
  · intro v' hv'
    rcases List.mem_or_eq_of_mem_set hv' with hOld | rfl
    · exact h.results v' hOld
    · exact h.results v hMem

/- The worker whose write ends is of the timer it suspends. -/
theorem persistSettle
    [Calendar K]
    {err : Option String}
    (event : Fire)
    (ref : Nat)
    (hWork :
      (∃ w ∈ s.fires, w.event = event) ∨
        ∃ v ∈ s.results, v.event = event)
    (hText : err ≠ some "") :
    (s.persistSettle event ref err).1.Intended := by
  have hFree : Intended { s with storageIO := false } :=
    h.congr (fun _ => rfl) rfl rfl rfl (Or.inl rfl)
  refine persistSettle_rule hFree ?_
  rintro a text rfl hFind hName hToken
  refine hFree.reschedule (b := a) hFind ?_
  have hArm := h.arms a.name a hFind
  refine hArm.suspend (hArm.not_loading ?_) ?_
  · rcases hWork with ⟨w, hw, rfl⟩ | ⟨v, hv, rfl⟩
    · exact Or.inl ⟨w, hw, hName, hToken⟩
    · exact Or.inr ⟨v, hv, hName, hToken⟩
  · rintro rfl
    exact hText rfl

theorem fireDone
    [Calendar K]
    (hw : w ∈ s.fires) :
    (s.fireDone w).Intended := by
  have hLess : Intended { s with activeFires := s.activeFires - 1 } :=
    h.congr (fun _ => rfl) rfl rfl rfl (Or.inl rfl)
  refine fireDone_rule hLess ?_
  rintro a b error rfl hFinished hFind hName hToken
  have hArm := h.arms a.name a hFind
  have hDone := hArm.finish
    (hArm.not_loading (Or.inl ⟨w, hw, hName, hToken⟩))
  rw [← hFinished] at hDone
  exact ⟨hLess.reschedule hFind hDone, fun _ => hLess.put hFind hDone⟩

theorem applyResult
    (hv : v ∈ s.results) :
    (s.applyResult v).Intended :=
  applyResult_rule h (fun a hFind hName hToken hID =>
    h.put (b := a) hFind
      ((h.arms a.name a hFind).settle hv hName hToken hID
        (h.results v hv)))

variable {cfg : Config}

theorem loadMove
    [Calendar K]
    (hWorded : s.Worded)
    (hMove : LoadMove cfg s s') :
    s'.Intended := by
  cases hMove with
  | pick | exit | hold | pass =>
      exact ⟨h.arms, h.fires, h.results, fun _ _ _ hApply => by cases hApply⟩
  | read name ref r result _ hLoad =>
      refine ⟨h.arms, h.fires, h.results, ?_⟩
      intro n k rt hApply hPending
      cases hApply
      exact load_identified hLoad hPending
  | apply name ref result hLoader =>
      have hFree :
          Intended { s with storageIO := false, loader := some .pick } :=
        h.congr (fun _ => rfl) rfl rfl rfl (Or.inr rfl)
      refine loadApply_rule hFree ?_
      rintro a _ rfl hFind hSame _ _ hLoading
      refine hFree.reschedule hFind ?_
      rw [hSame] at hFind ⊢
      refine (h.arms a.name a hFind).load hLoading ?_ ?_
      · rintro rfl
        exact hWorded.loader name ref hLoader
      · rintro rt rfl
        exact h.loader name ref rt hLoader

end

/- A new identifier is not the empty one. -/
theorem identifier_ne
    (text : String)
    (n : Nat) :
    text ++ "-" ++ toString n ≠ "" := by
  intro hEmpty
  have hChars := congrArg String.toList hEmpty
  simp at hChars

variable {a : Armed K}

/-
  The event of a deadline: a new record for a timer without a
  pending one, or the record that is kept for a retry.
-/
theorem accept_intent
    (cfg : Config)
    (due : DueTimer)
    (actual : Time)
    (h : ArmIntent s.fires s.results s.saved a.name a)
    (hReady :
      a.loading = false ∧ a.storageError = "" ∧ a.firing = false) :
    Kind a (s.accept cfg a due actual).1 ∧
      ((s.accept cfg a due actual).2.1.rt.activation.result = .pending →
        Pends (s.accept cfg a due actual).2.1.rt
          (s.accept cfg a due actual).1) ∧
      ((s.accept cfg a due actual).1.activationID ≠ "" →
        Pends (s.accept cfg a due actual).2.1.rt
            (s.accept cfg a due actual).1 ∨
          Durable s.saved (s.accept cfg a due actual).1 ∧
            Told s.results (s.accept cfg a due actual).1) := by
  unfold accept
  split
  · rename_i r hRetry
    rcases h.retried r hRetry with ⟨hKind, hPending, hSaved⟩
    refine ⟨hKind, ?_, ?_⟩
    · dsimp only
      split
      · exact hPending
      · exact hPending
    · dsimp only
      intro hID
      rw [if_pos hID]
      exact hSaved hID
  · rename_i hRetry
    have hAnswered : a.rt.activation.result ≠ .pending := by
      intro hp
      have hCases := h.answered hp
      rw [hReady.1, hReady.2.1, hReady.2.2, hRetry] at hCases
      simp at hCases
    dsimp only
    split
    · rename_i hPersistent
      refine ⟨?_, fun _ => ⟨rfl, rfl, rfl⟩,
        fun _ => Or.inl ⟨rfl, rfl, rfl⟩⟩
      exact ⟨fun _ => hPersistent, fun _ => identifier_ne _ _⟩
    · rename_i hPlain
      refine ⟨?_, fun hp => absurd hp hAnswered,
        fun hID => absurd rfl hID⟩
      exact ⟨fun hID => absurd rfl hID, fun hSome => absurd hSome hPlain⟩

section

variable (h : s.Intended)

include h

theorem launch
    [Calendar K]
    (cfg : Config)
    (due : DueTimer)
    (actual : Time)
    (hOwned : s.Owned)
    (hFind : s.find a.name = some a)
    (hReady :
      a.loading = false ∧ a.storageError = "" ∧ a.firing = false) :
    (s.launch cfg a due actual).Intended := by
  have hOwn := hOwned.arms a.name a hFind
  have hEvent := Owned.accept_event cfg due actual hOwn
  have hAccept := accept_intent cfg due actual
    (h.arms a.name a hFind) hReady
  rcases launch_eq cfg s a due actual with
    ⟨rt, a', n, event, pq, items, k, g, p, hFire, hRt, hSame, hEq⟩
  rw [hFire] at hEvent
  rw [hFire, hRt] at hAccept
  have hName := hSame.name
  have hArm :
      ArmIntent
        (s.fires ++
          [{ event := event, rt := rt, ref := a.ref, phase := .check }])
        s.results s.saved a.name a' := by
    refine ArmIntent.same hSame ?_
    refine ⟨?_, ?_, fun _ => Or.inr (Or.inr (Or.inl rfl)), ?_, ?_,
      (h.arms a.name a hFind).reported⟩
    · intro hLoading
      rw [show a.loading = true from hLoading] at hReady
      cases hReady.1
    · intro hLoading
      rw [show a.loading = true from hLoading] at hReady
      cases hReady.1
    · rintro r hr
      cases hr
    · intro w hw hActive
      rcases List.mem_append.mp hw with hOld | hNew
      · -- the timer was not firing, so it had no callback
        rcases List.mem_iff_getElem?.mp hOld with ⟨i, hi⟩
        have hFiring := hOwn.firing i w hi hActive
        rw [hReady.2.2] at hFiring
        cases hFiring
      · rw [List.mem_singleton.mp hNew]
        refine ⟨hAccept.1, hAccept.2.1, ?_⟩
        exact fun hID => (hAccept.2.2 hID).imp id (fun hBoth => hBoth.2)
  rw [hEq]
  refine ⟨?_, ?_, h.results, h.loader⟩
  · intro name c hc
    by_cases hOther : name = a.name
    · subst hOther
      have hSelf : (s.put a').find a'.name = some a' := by
        rw [← hName] at hFind
        exact find_put_self hFind
      rw [hName] at hSelf
      have hc' : (s.put a').find a.name = some c := hc
      rw [hSelf] at hc'
      cases hc'
      exact hArm
    · have hc' : (s.put a').find name = some c := hc
      rw [find_put_ne (by rw [hName]; exact hOther)] at hc'
      refine (h.arms name c hc').grow ?_
        (fun v hv _ => Or.inl ⟨v, hv, rfl⟩) (fun _ hTold => hTold)
        (fun _ hx => hx)
      intro w hw hOwnName
      rcases List.mem_append.mp hw with hOld | hNew
      · exact ⟨w, hOld, rfl, id⟩
      · rw [List.mem_singleton.mp hNew] at hOwnName
        exact absurd (hOwnName.symm.trans hEvent.2) hOther
  · intro w hw
    rcases List.mem_append.mp hw with hOld | hNew
    · exact h.fires w hOld
    · rw [List.mem_singleton.mp hNew]
      refine ⟨?_, ?_⟩
      · exact fun hID => (hAccept.2.2 hID).imp id (fun hBoth => hBoth.1)
      · rintro (hp | hp | hp) <;> cases hp

theorem consume
    [Calendar K]
    {now : Time}
    {due : DueTimer}
    (hOwned : s.Owned)
    (hInstalled : s.Installed)
    (hPopped : Popped s now due s' a) :
    (s'.consumeLocked cfg due now).Intended := by
  have hFind := hPopped.own
  have h' : s'.Intended := by
    rcases hPopped.after with ⟨pq, rfl⟩
    refine put (b := a) ?_ hFind ?_
    · exact h.congr (fun _ => rfl) rfl rfl rfl (Or.inl rfl)
    · exact (h.arms a.name a hFind).congr rfl rfl rfl rfl rfl rfl rfl
  refine hPopped.consume_rule h' (fun hRun hFound => ?_)
  have hReady :=
    DueAt.ready hInstalled hRun hPopped.find hPopped.item
  exact h'.launch cfg due now (hOwned.popped hPopped) hFound
    ⟨hReady.2.1, hReady.2.2, hPopped.ready⟩

/- A callback begins to report a result while it runs. -/
theorem recordResult
    {event : Fire}
    {success : Bool}
    (hReports : s.Reports (.recordResult event success)) :
    (s.recordResult event success).Intended := by
  rcases recordResult_cases s event success with
    hEq | ⟨a, rt, hFind, hToken, hLoading, hResult, _, hEq⟩
  · rw [hEq]
    exact h
  · rcases hReports with ⟨w, hw, hPhase, rfl⟩
    have hName := name_of_find hFind
    rw [hEq]
    refine ⟨?_, h.fires, ?_, h.loader⟩
    · intro name b hb
      have hOld := h.arms name b hb
      refine hOld.grow (fun w hw _ => ⟨w, hw, rfl, id⟩) ?_
        (fun event ⟨v, hv, hMatch⟩ =>
          ⟨v, List.mem_append_left _ hv, hMatch⟩) (fun _ hx => hx)
      intro v hv hOwn
      rcases List.mem_append.mp hv with hBefore | hLast
      · exact Or.inl ⟨v, hBefore, rfl⟩
      · -- the new result is of the timer that is not loading
        rw [List.mem_singleton.mp hLast] at hOwn ⊢
        subst hOwn
        have hb' : s.find w.event.name = some b := hb
        rw [hFind] at hb'
        cases hb'
        refine Or.inr ⟨hLoading, fun hEqual => ?_⟩
        refine (hOld.fired w hw ⟨?_, rfl, hEqual⟩).1
        rw [hPhase]
        simp
    · intro v hv
      rcases List.mem_append.mp hv with hBefore | hLast
      · exact h.results v hBefore
      · rw [List.mem_singleton.mp hLast]
        exact hResult

theorem fireMove
    [Calendar K]
    (hWorded : s.Worded)
    (hw : s.fires[i]? = some w)
    (hMove : FireMove cfg s i w s') :
    s'.Intended := by
  have hMem := List.mem_of_getElem? hw
  have hSame : ∀ x ∈ s.saved, x ∈ s.saved := fun _ hx => hx
  have hSettle : ∀ err, w.phase = .settle err →
      (s.persistSettle w.event w.ref err).1.Intended ∧
        (s.persistSettle w.event w.ref err).1.fires[i]? = some w := by
    intro err hPhase
    have hText := hWorded.fires w hMem
    rw [hPhase] at hText
    refine ⟨h.persistSettle w.event w.ref (Or.inl ⟨w, hMem, rfl⟩)
      (by simpa using hText), ?_⟩
    rw [persistSettle_fires]
    exact hw
  cases hMove with
  | hold hPhase =>
      have hNext := h.advance hw (by rw [hPhase]; simp) s.saved hSame .save
        (by rintro (hp | hp | hp) <;> cases hp)
      exact hNext.congr (fun _ => rfl) rfl rfl rfl (Or.inl rfl)
  | pass hPhase | late hPhase | back hPhase =>
      exact h.advance hw (by rw [hPhase]; simp) s.saved hSame .finish
        (by rintro (hp | hp | hp) <;> cases hp)
  | save r disk err hPhase hSave =>
      have hNext := h.advance hw (by rw [hPhase]; simp)
        (s.savedAfter w.event w.rt err) ?_ (.settle err) ?_
      · exact hNext.congr (fun _ => rfl) rfl rfl rfl (Or.inl rfl)
      · exact fun _ => mem_savedAfter
      · rintro (hp | hp | hp) hID
        · cases hp
          -- the record that was written is the pending one
          unfold savedAfter
          rw [if_pos rfl]
          rcases (h.fires w hMem).record hID with
            hPends | ⟨rt, hRt, hMatch⟩
          · exact ⟨w.rt, by simp, hPends.1, hPends.2.2⟩
          · exact ⟨rt, List.mem_append_left _ hRt, hMatch⟩
        · cases hp
        · cases hp
  | ready err hPhase hOk =>
      have hSettled := hSettle err hPhase
      have hNone : err = none := persistSettle_ok hOk
      refine hSettled.1.advance hSettled.2 (by rw [hPhase]; simp) _
        (fun _ hx => hx) .current ?_
      intro _ hID
      rw [(Outside.persistSettle s w.event w.ref err).saved]
      rw [hNone] at hPhase
      exact (h.fires w hMem).sent (Or.inl hPhase) hID
  | drop err hPhase =>
      have hSettled := hSettle err hPhase
      exact hSettled.1.advance hSettled.2 (by rw [hPhase]; simp) _
        (fun _ hx => hx) .finish (by rintro (hp | hp | hp) <;> cases hp)
  | call hPhase =>
      refine h.advance hw (by rw [hPhase]; simp) s.saved hSame .calling ?_
      exact fun _ =>
        (h.fires w hMem).sent (Or.inr (Or.inl hPhase))
  | done hPhase =>
      have hDone := h.fireDone hMem
      have hKept := Outside.fireDone s w
      refine hDone.advance (w := w) ?_ (by rw [hPhase]; simp) _
        (fun _ hx => hx) .done (by rintro (hp | hp | hp) <;> cases hp)
      rw [hKept.fires]
      exact hw

theorem resultMove
    [Calendar K]
    (hWorded : s.Worded)
    (hv : s.results[i]? = some v)
    (hMove : ResultMove cfg s i v s') :
    s'.Intended := by
  have hMem := List.mem_of_getElem? hv
  have hSame : ∀ x ∈ s.saved, x ∈ s.saved := fun _ hx => hx
  have hSettle : ∀ (err : Option String) (phase : ResultPhase),
      v.phase = .settle err →
      Intended ((s.persistSettle v.event v.ref err).1.setResult i
        { v with phase := phase }) := by
    intro err phase hPhase
    have hText := hWorded.results v hMem
    rw [hPhase] at hText
    have hSettled := h.persistSettle v.event v.ref
      (Or.inr ⟨v, hMem, rfl⟩) (by simpa using hText)
    have hKept := Outside.persistSettle s v.event v.ref err
    refine hSettled.setResult (v := v) ?_ _ (fun _ hx => hx) phase
    rw [hKept.results]
    exact hv
  cases hMove with
  | hold =>
      have hNext := h.setResult hv s.saved hSame .save
      exact hNext.congr (fun _ => rfl) rfl rfl rfl (Or.inl rfl)
  | pass => exact h.setResult hv s.saved hSame .done
  | save r disk err =>
      have hNext := h.setResult hv (s.savedAfter v.event v.rt err)
        (fun _ => mem_savedAfter) (.settle err)
      exact hNext.congr (fun _ => rfl) rfl rfl rfl (Or.inl rfl)
  | ready err hPhase => exact hSettle err .apply hPhase
  | drop err hPhase => exact hSettle err .done hPhase
  | apply =>
      have hApplied := h.applyResult hMem
      have hKept := Outside.applyResult s v
      refine hApplied.setResult (v := v) ?_ _ (fun _ hx => hx) .done
      rw [hKept.results]
      exact hv

/- Every step of callbacks that report in time keeps it all. -/
theorem step
    [Calendar K]
    {l : Label K}
    (hOwned : s.Owned)
    (hOrdered : s.Ordered)
    (hWorded : s.Worded)
    (hInstalled : s.Installed)
    (hReports : s.Reports l)
    (hStep : s.step cfg l = some s') :
    s'.Intended := by
  refine Carries.step ?_ hInstalled.dropStale h hStep
  exact
    { set := fun _ _ _ ht _ =>
        ht.congr (fun _ => rfl) rfl rfl rfl (Or.inl rfl)
      stop := h.congr (fun _ => rfl) rfl rfl rfl (Or.inl rfl)
      arm := fun spec _ => h.arm hOwned hOrdered cfg spec
      disarm := fun _ name ht _ => ht.disarm name
      note := fun _ _ _ name ht _ => ht.noteActive _ _ name
      fireDue := fun clockGen ht =>
        (fireDue_rule (P := fun u => u.Owned ∧ u.Intended) cfg
          (fun _ _ _ _ _ hU hInst hPopped _ =>
            ⟨hU.1.consume hPopped, hU.2.consume hU.1 hInst hPopped⟩)
          (hInstalled.ticked clockGen)
          ⟨{ hOwned with }, ht⟩).1.2
      replan := fun _ name ht => ht.replan name
      retry := fun event hl =>
        h.retry (by rw [hl] at hReports; exact hReports)
      record := fun event success hl =>
        h.recordResult (by rw [hl] at hReports; exact hReports)
      plan := fun hPlan => h.planMove (planStep_move hPlan)
      load := fun _ _ _ hMove => h.loadMove hWorded hMove
      fire := fun _ _ hw hMove => h.fireMove hWorded hw hMove
      result := fun _ _ hv hMove => h.resultMove hWorded hv hMove }

end

theorem of_reachable
    [Calendar K]
    (h : (timing K cfg).ReachableWhere Reports s) :
    s.Intended := by
  refine Lib.System.reachableWhere_invariant ?_ ?_ h
  · rintro t ⟨clock, disk, _, rfl⟩
    refine ⟨?_, by simp [start], by simp [start], by simp [start]⟩
    intro name a hFind
    cases hFind
  · intro t l t' hReach hIntended hReports hStep
    have hPlain := hReach.reachable
    exact Intended.step (s := t) hIntended (.of_reachable hPlain)
      (.of_reachable hPlain) (.of_reachable hPlain)
      (.of_reachable hPlain) hReports hStep

end Intended

------------------------------------------------------------
-- Suspended Timers
------------------------------------------------------------

/- A suspended timer. -/
def Halted (s : Engine K) (name : String) (ref token : Nat) : Prop :=
  ∃ a, s.find name = some a ∧ a.ref = ref ∧ a.token = token ∧
    a.storageError ≠ ""

namespace Halted

variable {name : String}
variable {ref token : Nat}

section

variable (h : s.Halted name ref token)

include h

theorem congr
    (hFind : s'.find name = s.find name) :
    s'.Halted name ref token := by
  rcases h with ⟨a, ha, hArm⟩
  exact ⟨a, hFind.trans ha, hArm⟩

/- A timer that is changed stays suspended if it was. -/
theorem put
    {a b : Armed K}
    (hFind : s.find a.name = some b)
    (hRef : a.ref = b.ref)
    (hToken : a.token = b.token)
    (hError : b.storageError ≠ "" → a.storageError ≠ "") :
    (s.put a).Halted name ref token := by
  by_cases hName : name = a.name
  · subst hName
    rcases h with ⟨c, hc, hRefC, hTokenC, hErrorC⟩
    rw [hFind] at hc
    cases hc
    exact ⟨a, find_put_self hFind, hRef.trans hRefC,
      hToken.trans hTokenC, hError hErrorC⟩
  · exact h.congr (find_put_ne hName)

theorem reschedule
    [Calendar K]
    {a b : Armed K}
    (hFind : s.find a.name = some b)
    (hRef : a.ref = b.ref)
    (hToken : a.token = b.token)
    (hError : b.storageError ≠ "" → a.storageError ≠ "") :
    (s.rescheduleLocked a).Halted name ref token := by
  by_cases hName : name = a.name
  · subst hName
    rcases h with ⟨c, hc, hRefC, hTokenC, hErrorC⟩
    rw [hFind] at hc
    cases hc
    rcases find_reschedule_self hFind with ⟨hFound, hSame⟩
    refine ⟨_, hFound, hSame.ref.trans (hRef.trans hRefC),
      hSame.token.trans (hToken.trans hTokenC), ?_⟩
    rw [hSame.storageError]
    exact hError hErrorC
  · exact h.congr (find_reschedule_ne hName)

theorem planMove
    [Calendar K]
    (hMove : PlanMove s s') :
    s'.Halted name ref token := by
  cases hMove with
  | pick => exact h.congr rfl
  | publish other own gen clockGen found =>
      refine planPublish_rule (P := fun t => t.Halted name ref token)
        (h.congr rfl) ?_
      intro a item pq items k hFind _
      refine put (b := a) ?_ hFind rfl rfl id
      exact h.congr rfl

end

/- The deadlines that are consumed are of other timers. -/
theorem fireDue
    [Calendar K]
    (cfg : Config)
    (hOwned : s.Owned)
    (hInstalled : s.Installed)
    (h : s.Halted name ref token) :
    (s.fireDueLocked cfg).Halted name ref token ∧
      ∃ new, (s.fireDueLocked cfg).consumed = s.consumed ++ new ∧
        ∀ x ∈ new, x.event.name ≠ name := by
  have hLoop :=
    fireDue_rule (s := s)
      (P := fun t =>
        t.Owned ∧ t.Halted name ref token ∧
          ∃ new, t.consumed = s.consumed ++ new ∧
            ∀ x ∈ new, x.event.name ≠ name)
      cfg ?_ hInstalled ⟨hOwned, h, [], by simp, by simp⟩
  · exact hLoop.1.2
  rintro t due t' a _ ⟨hOwn, hHalted, new, hNew, hOther⟩ hInst hPopped _
  refine ⟨hOwn.consume hPopped, ?_⟩
  have hDue := name_of_find hPopped.find
  have hFind := hPopped.find
  rw [← hDue] at hFind
  have hHalted' : t'.Halted name ref token := by
    rcases hPopped.after with ⟨pq, rfl⟩
    refine put (b := a) ?_ hFind rfl rfl id
    exact hHalted.congr rfl
  have hConsumed : t'.consumed = t.consumed := by
    rcases hPopped.after with ⟨pq, rfl⟩
    rfl
  rw [hPopped.consume]
  split
  · exact ⟨hHalted', new, hConsumed.trans hNew, hOther⟩
  · rename_i hRun
    rw [Bool.not_eq_false] at hRun
    -- a timer with a deadline is not suspended
    have hNe : a.name ≠ name := by
      rintro rfl
      rcases hHalted with ⟨b, hb, _, _, hError⟩
      rw [hFind] at hb
      cases hb
      exact hError
        (DueAt.ready hInst hRun hPopped.find hPopped.item).2.2
    rcases hOwn.took cfg hPopped hRun with
      ⟨event, rt, b, hName, _, _, _, _, hOthers, hTaken, _⟩
    rw [hPopped.consume, if_neg (by rw [hRun]; simp)] at hOthers hTaken
    rw [hDue] at hNe
    refine ⟨hHalted.congr (hOthers name (Ne.symm hNe)), _,
      hTaken.trans (by rw [hNew, List.append_assoc]), ?_⟩
    intro x hx
    rcases List.mem_append.mp hx with hOld | hLast
    · exact hOther x hOld
    · rw [List.mem_singleton.mp hLast]
      exact fun hSelf => hNe (hName.symm.trans hSelf)

/-
  A suspended timer stays so and none of its deadlines is
  consumed, unless its arm ends.
-/
theorem step
    [Calendar K]
    {cfg : Config}
    {l : Label K}
    (h : s.Halted name ref token)
    (hIntended : s.Intended)
    (hOwned : s.Owned)
    (hWorded : s.Worded)
    (hInstalled : s.Installed)
    (hGoesOn : ¬ Ends name l)
    (hStep : s.step cfg l = some s') :
    s'.Halted name ref token ∧
      ∃ new, s'.consumed = s.consumed ++ new ∧
        ∀ x ∈ new, x.event.name ≠ name := by
  have hFire : ∀ clockGen,
      (fireDueLocked cfg { s with clockGen := clockGen }).Halted name ref
          token ∧
        ∃ new,
          (fireDueLocked cfg { s with clockGen := clockGen }).consumed =
            s.consumed ++ new ∧
          ∀ x ∈ new, x.event.name ≠ name :=
    fun clockGen => fireDue (s := { s with clockGen := clockGen }) cfg
      { hOwned with }
      (hInstalled.ticked _) (h.congr rfl)
  -- a timer that is loading is not suspended
  have hError : ∀ a b : Armed K, Edits s l b a →
      b.storageError ≠ "" → a.storageError ≠ "" := by
    intro a b hEdits hOld
    rcases hEdits.error hOld with
      hNew | ⟨hLoading, hFind⟩ | ⟨w, hw, hPhase⟩ | ⟨v, hv, hPhase⟩
    · exact hNew
    · exact absurd ((hIntended.arms _ b hFind).calm hLoading).1 hOld
    · exact absurd hPhase (hWorded.fires w hw)
    · exact absurd hPhase (hWorded.results v hv)
  refine ⟨?_, ?_⟩
  · refine Reworks.step (P := fun t => t.Halted name ref token) ?_
      hInstalled.dropStale h hStep
    exact
      { set := fun _ _ _ ht _ => ht.congr rfl
        stop := h.congr rfl
        rest := fun _ _ _ _ _ _ _ _ ht => ht.congr rfl
        arm := fun spec hl => by
          refine arm_rule (P := fun t => t.Halted name ref token) h ?_
          intro t a b hNew
          have hNe : name ≠ a.name := by
            rintro rfl
            rw [hl, Armed.name, hNew.named] at hGoesOn
            exact hGoesOn rfl
          refine h.congr ?_
          rw [find_reschedule_ne hNe, hNew.others name hNe]
        disarm := fun t other ht hEnds => by
          refine ht.congr (find_disarm_ne ?_)
          rintro rfl
          exact hGoesOn hEnds
        put := fun _ a b ht hFind hEdits _ _ =>
          ht.put hFind hEdits.ref hEdits.token (hError a b hEdits)
        reschedule := fun _ a b ht hFind hEdits =>
          ht.reschedule hFind hEdits.ref hEdits.token (hError a b hEdits)
        fireDue := fun clockGen _ => (hFire clockGen).1
        plan := fun hPlan => h.planMove (planStep_move hPlan) }
  · rcases step_consumed hInstalled hStep with hSame | ⟨clockGen, hEq⟩
    · exact ⟨[], by simp [hSame], by simp⟩
    · rw [hEq]
      exact (hFire clockGen).2

end Halted

------------------------------------------------------------
-- Redelivery
------------------------------------------------------------

/- A deadline of a timer with a pending record is a redelivery. -/
def Redelivers (a : Armed K) (x : Consumed) : Prop :=
  a.rt.activation.result = .pending →
    x.retried = true ∧ x.event.activationID = a.rt.activation.id ∧
      x.event.unit = a.rt.activation.unit

theorem redelivers_taken
    {a : Armed K}
    {t : Engine K}
    {event : Fire}
    {due : DueTimer}
    {actual : Time}
    (cfg : Config)
    (h : ArmIntent s.fires s.results s.saved a.name a)
    (hReady :
      a.loading = false ∧ a.storageError = "" ∧ a.firing = false)
    (hEvent :
      (t.accept cfg { a with item := none } due actual).1 = event) :
    Redelivers a (t.taken { a with item := none } event) := by
  intro hPending
  have hRetry : a.retry ≠ none := by
    intro hNone
    have hCases := h.answered hPending
    rw [hReady.1, hReady.2.1, hReady.2.2, hNone] at hCases
    simp at hCases
  rcases Option.ne_none_iff_exists'.mp hRetry with ⟨r, hr⟩
  have hSame : event = r.event := by
    rw [← hEvent]
    unfold accept
    dsimp only
    rw [hr]
  rcases (h.retried r hr).2.1 hPending with ⟨hID, hUnit, _⟩
  refine ⟨?_, ?_, ?_⟩
  · unfold taken
    dsimp only
    rw [hr]
    rfl
  · show event.activationID = _
    rw [hSame, hID]
  · show event.unit = _
    rw [hSame, hUnit]

/- Each timer is fired once in the loop at most. -/
theorem fireDue_redelivers
    [Calendar K]
    (cfg : Config)
    (h : s.Intended)
    (hOwned : s.Owned)
    (hInstalled : s.Installed)
    (hRun : s.running = true) :
    ∃ new, (s.fireDueLocked cfg).consumed = s.consumed ++ new ∧
      ∀ x ∈ new, ∃ a, s.find x.event.name = some a ∧
        Redelivers a x := by
  have hLoop :=
    fireDue_rule (s := s)
      (P := fun t =>
        t.Owned ∧ t.running = true ∧
          ∃ new, t.consumed = s.consumed ++ new ∧
            (∀ x ∈ new, ∃ a, s.find x.event.name = some a ∧
              Redelivers a x) ∧
            ∀ name b, t.find name = some b →
              b.firing = true ∨ s.find name = some b)
      cfg ?_ hInstalled
      ⟨hOwned, hRun, [], by simp, by simp, fun _ _ hb => Or.inr hb⟩
  · rcases hLoop.1.2.2 with ⟨new, hNew, hAll, _⟩
    exact ⟨new, hNew, hAll⟩
  rintro t due t' a _ ⟨hOwn, hRunning, new, hNew, hAll, hArms⟩ hInst
    hPopped _
  rcases hOwn.took cfg hPopped hRunning with
    ⟨event, rt, b, hName, _, hEvent, hArm, hFound, hOthers, hConsumed,
      hRunning'⟩
  refine ⟨hOwn.consume hPopped, hRunning', _,
    hConsumed.trans (by rw [hNew, List.append_assoc]), ?_, ?_⟩
  · intro x hx
    rcases List.mem_append.mp hx with hOld | hLast
    · exact hAll x hOld
    · rw [List.mem_singleton.mp hLast]
      have hFind : s.find due.name = some a := by
        rcases hArms due.name a hPopped.find with hFiring | hSame
        · rw [hPopped.ready] at hFiring
          cases hFiring
        · exact hSame
      refine ⟨a, ?_, ?_⟩
      · show s.find event.name = some a
        rw [hName]
        exact hFind
      · have hReady :=
          DueAt.ready hInst hRunning hPopped.find hPopped.item
        have hIntent := h.arms due.name a hFind
        rw [← name_of_find hFind] at hIntent
        exact redelivers_taken cfg hIntent
          ⟨hReady.2.1, hReady.2.2, hPopped.ready⟩ hEvent
  · intro name c hc
    by_cases hSelf : name = due.name
    · subst hSelf
      rw [hFound] at hc
      cases hc
      exact Or.inl hArm.firing
    · rw [hOthers name hSelf] at hc
      exact hArms name c hc

/- A stopped engine consumes nothing. -/
theorem fireDue_stopped
    [Calendar K]
    (cfg : Config)
    (hInstalled : s.Installed)
    (hStopped : s.running = false) :
    (s.fireDueLocked cfg).consumed = s.consumed := by
  have hLoop :=
    fireDue_rule (s := s)
      (P := fun t => t.running = false ∧ t.consumed = s.consumed)
      cfg ?_ hInstalled ⟨hStopped, rfl⟩
  · exact hLoop.1.2
  rintro t due t' a _ ⟨hRun, hSame⟩ _ hPopped _
  rw [hPopped.consume, if_pos hRun]
  rcases hPopped.after with ⟨pq, rfl⟩
  exact ⟨hRun, hSame⟩

theorem redelivers_step
    [Calendar K]
    {cfg : Config}
    {l : Label K}
    (h : s.Intended)
    (hOwned : s.Owned)
    (hInstalled : s.Installed)
    (hStep : s.step cfg l = some s') :
    ∃ new, s'.consumed = s.consumed ++ new ∧
      ∀ x ∈ new, ∃ a, s.find x.event.name = some a ∧
        Redelivers a x := by
  rcases step_consumed hInstalled hStep with hSame | ⟨clockGen, hEq⟩
  · exact ⟨[], by simp [hSame], by simp⟩
  have hInst := hInstalled.ticked clockGen
  rw [hEq]
  by_cases hRun : s.running = true
  · exact fireDue_redelivers (s := { s with clockGen := clockGen }) cfg
      (h.congr (fun _ => rfl) rfl rfl rfl (Or.inl rfl))
      { hOwned with } hInst hRun
  · have hNone :=
      fireDue_stopped cfg hInst (Bool.eq_false_of_not_eq_true hRun)
    exact ⟨[], by rw [hNone, List.append_nil], by simp⟩

------------------------------------------------------------
-- Intent
------------------------------------------------------------

/- The event is of no current arm, or of no current record. -/
def Outdated (s : Engine K) (event : Fire) : Prop :=
  ∀ a, s.find event.name = some a →
    a.token ≠ event.token ∨
      event.activationID ≠ "" ∧
        a.rt.activation.id ≠ event.activationID

/- The stored record is for the timer as it is armed now. -/
def Targets (a : Armed K) (rt : Runtime) : Prop :=
  a.spec.persistent = true ∧ a.spec.onCalendar ≠ [] ∧
    a.spec.unit = rt.activation.unit

/-
  What the engine ensures of intents.

  Dispatch: a callback with an identifier runs for the current
  arm, after a pending record with that identifier was saved
  for that arm.

  Failures: a write that fails, or a callback that has reported
  nothing, suspends the timer, and a suspended timer has no
  deadline and is not fired before its arm ends.

  Staleness: an outdated result is not taken on, not admitted to
  its write and not taken over; once it is admitted, its write
  goes on, and suspends the arm if it fails.  The lock has one
  holder, and the writes of one name come in the order of its
  arms.

  Storage: what is saved is on the disk, which changes by writes
  alone, and a load finds what is there.

  Recovery: a pending record that is read is kept for a retry
  with its identifier and unit, or suspends the timer; and while
  a record is pending, only that record is delivered.
-/
structure Intent
    [Calendar K]
    (cfg : Config)
    (s : Engine K) : Prop where
  dispatch :
    ∀ w ∈ s.fires, w.phase = .calling → w.event.activationID ≠ "" →
      Durable s.saved w.event
  called :
    ∀ i r s' w, s.fires[i]? = some w → w.phase ≠ .calling →
      s.step cfg (.fire i r) = some s' →
      s'.fires[i]? = some { w with phase := .calling } →
      s.Current w.event.name w.event.token
  failedFire :
    ∀ i r s' w a text, s.fires[i]? = some w →
      w.phase = .settle (some text) → s.running = true →
      s.find w.event.name = some a → a.ref = w.ref →
      a.token = w.event.token → s.step cfg (.fire i r) = some s' →
      s'.Halted w.event.name a.ref a.token
  failedResult :
    ∀ i r s' v a text, s.results[i]? = some v →
      v.phase = .settle (some text) → s.running = true →
      s.find v.event.name = some a → a.ref = v.ref →
      a.token = v.event.token → s.step cfg (.result i r) = some s' →
      s'.Halted v.event.name a.ref a.token
  silent :
    ∀ i r s' w a, s.fires[i]? = some w → w.phase = .finish →
      s.find w.event.name = some a → a.ref = w.ref →
      a.token = w.event.token → w.event.activationID ≠ "" →
      a.retry = none → ¬ Told s.results w.event →
      s.step cfg (.fire i r) = some s' →
      s'.Halted w.event.name a.ref a.token
  halted :
    ∀ name a, s.find name = some a → a.storageError ≠ "" →
      (s.running = true → a.item = none) ∧
        ∀ t, (timing K cfg).Path Reports s t →
          (t.Halted name a.ref a.token ∧
            ∃ new, t.consumed = s.consumed ++ new ∧
              ∀ x ∈ new, x.event.name ≠ name) ∨
            ∃ u l u', (timing K cfg).Path Reports s u ∧ Ends name l ∧
              u.step cfg l = some u' ∧
              (timing K cfg).Path Reports u' t
  refused :
    ∀ event success, s.Outdated event →
      s.recordResult event success = s
  dropped :
    ∀ i r s' v, s.results[i]? = some v → s.Outdated v.event →
      s.step cfg (.result i r) = some s' →
      (v.phase = .save ∨ s'.disk = s.disk ∧ s'.saved = s.saved) ∧
        (s'.armed = s.armed ∨
          ∃ text a, v.phase = .settle (some text) ∧
            s.find v.event.name = some a ∧ a.token = v.event.token) ∧
        (v.phase = .check ∨ v.phase = .apply →
          s'.results[i]? = some { v with phase := .done })
  exclusive : s.Locked
  ordered :
    s.saved.Pairwise
      (fun x y => x.1.name = y.1.name → x.1.token ≤ y.1.token)
  written :
    cfg.stored = true →
      ∀ l s', s.step cfg l = some s' → Wrote s s'
  found :
    cfg.stored = true →
      ∀ other r s' name ref, s.loader = some (.read name ref) →
        s.step cfg (.load other r) = some s' →
        ∃ result, s'.loader = some (.apply name ref result) ∧
          (∀ rt, result = .ok rt → rt = s.disk name) ∧
          (r = .done → (s.disk name).invalid = none →
            result = .ok (s.disk name))
  recovered :
    ∀ other r s' name ref rt a,
      s.loader = some (.apply name ref (.ok rt)) →
      rt.activation.result = .pending → s.running = true →
      s.find name = some a → a.ref = ref → a.loading = true →
      s.step cfg (.load other r) = some s' →
      ∃ b, s'.find name = some b ∧ b.token = a.token ∧
        b.rt.activation = rt.activation ∧
        (Targets a rt ∧ b.storageError = "" ∧
            (∃ q, b.retry = some q ∧
              q.event =
                { activationID := rt.activation.id
                  name := name
                  unit := rt.activation.unit
                  token := a.token }) ∨
          ¬ Targets a rt ∧ b.storageError ≠ "")
  redelivered :
    ∀ l s', s.step cfg l = some s' →
      ∃ new, s'.consumed = s.consumed ++ new ∧
        ∀ x ∈ new, ∃ a, s.find x.event.name = some a ∧
          Redelivers a x

section Parts

variable [Calendar K]
variable {cfg : Config}

/- Only the step that starts the callback reaches it. -/
theorem called_current
    {i : Nat}
    {r : StoreResult}
    {w : FireWork}
    (hw : s.fires[i]? = some w)
    (hStep : s.step cfg (.fire i r) = some s')
    (hNext : s'.fires[i]? = some { w with phase := .calling }) :
    s.Current w.event.name w.event.token := by
  rcases fireStep_move hStep with ⟨v, hv, hMove⟩
  rw [hw] at hv
  cases hv
  have hBound := (List.getElem?_eq_some_iff.mp hw).1
  -- every other step has another phase next
  have hOther : ∀ (fs : List FireWork) (phase : FirePhase),
      phase ≠ .calling → fs = s.fires →
      (fs.set i { w with phase := phase })[i]? ≠
        some { w with phase := .calling } := by
    rintro fs phase hNe rfl hSame
    rw [List.getElem?_set_self hBound] at hSame
    cases hSame
    exact hNe rfl
  cases hMove with
  | hold | pass | late | back | save r disk err =>
      exact absurd hNext (hOther _ _ (by simp) rfl)
  | ready err | drop err =>
      exact absurd hNext (hOther _ _ (by simp)
        (persistSettle_fires s w.event w.ref err))
  | call _ hCurrent => exact hCurrent
  | done =>
      exact absurd hNext (hOther _ _ (by simp)
        (Outside.fireDone s w).fires)

/- A timer that is changed to a suspended one. -/
theorem halted_reschedule
    {name : String}
    {a b : Armed K}
    (hName : b.name = name)
    (hFind : s.find name = some a)
    (hRef : b.ref = a.ref)
    (hToken : b.token = a.token)
    (hError : b.storageError ≠ "") :
    (s.rescheduleLocked b).Halted name a.ref a.token := by
  subst hName
  rcases find_reschedule_self hFind with ⟨hFound, hSame⟩
  refine ⟨_, hFound, hSame.ref.trans hRef, hSame.token.trans hToken, ?_⟩
  rw [hSame.storageError]
  exact hError

variable {a : Armed K}

/- A write that fails suspends the current arm. -/
theorem halted_settle
    {event : Fire}
    {text : String}
    (hRun : s.running = true)
    (hFind : s.find event.name = some a)
    (hToken : a.token = event.token)
    (hText : text ≠ "") :
    (s.persistSettle event a.ref (some text)).1.Halted event.name a.ref
      a.token := by
  have hName := name_of_find hFind
  rw [persistSettle_current hRun hFind hToken text]
  exact halted_reschedule (s := { s with storageIO := false })
    (b := { a with storageError := text }) hName hFind rfl rfl hText

/- A callback that has reported nothing suspends its timer. -/
theorem halted_silent
    {w : FireWork}
    (h : s.Intended)
    (hw : w ∈ s.fires)
    (hPhase : w.phase ≠ .done)
    (hFind : s.find w.event.name = some a)
    (hRef : a.ref = w.ref)
    (hToken : a.token = w.event.token)
    (hID : w.event.activationID ≠ "")
    (hRetry : a.retry = none)
    (hSilent : ¬ Told s.results w.event) :
    (s.fireDone w).Halted w.event.name a.ref a.token := by
  -- the record of the callback is still pending
  have hPending : a.rt.activation.result = .pending := by
    rcases ((h.arms _ a hFind).fired w hw
        ⟨hPhase, rfl, hToken.symm⟩).2.2 hID with hPends | hTold
    · exact hPends.2.2
    · exact absurd hTold hSilent
  have hError : (finished a).storageError ≠ "" := by
    unfold finished
    split
    · exact noOutcome_ne
    · rename_i hNot
      exact fun hNone => hNot ⟨hNone, hPending, hRetry⟩
  rcases finished_eq a with ⟨error, hDone⟩
  have hOwn := name_of_find hFind
  have hName : (finished a).name = w.event.name := by
    rw [hDone]
    exact hOwn
  have hSame : (finished a).ref = a.ref ∧ (finished a).token = a.token := by
    rw [hDone]
    exact ⟨rfl, rfl⟩
  rw [fireDone_current hFind hRef hToken]
  split
  · exact halted_reschedule
      (s := { s with activeFires := s.activeFires - 1 }) hName hFind
      hSame.1 hSame.2 hError
  · refine ⟨finished a, ?_, hSame.1, hSame.2, hError⟩
    rw [← hName] at hFind ⊢
    exact find_put_self
      (s := { s with activeFires := s.activeFires - 1 }) hFind

/- A stored record that is pending is kept or suspends. -/
theorem recovered_load
    {name : String}
    {rt : Runtime}
    (hRun : s.running = true)
    (hFind : s.find name = some a)
    (hLoading : a.loading = true)
    (hPending : rt.activation.result = .pending) :
    ∃ b, (s.loadApply name a.ref (.ok rt)).find name = some b ∧
      b.token = a.token ∧ b.rt.activation = rt.activation ∧
      (Targets a rt ∧ b.storageError = "" ∧
          (∃ q, b.retry = some q ∧
            q.event =
              { activationID := rt.activation.id
                name := name
                unit := rt.activation.unit
                token := a.token }) ∨
        ¬ Targets a rt ∧ b.storageError ≠ "") := by
  have hName := name_of_find hFind
  have hSpec := (loaded_same s.clock a (.ok rt)).1
  have hLoaded : (loaded s.clock a (.ok rt)).name = name := by
    rw [Armed.name, hSpec]
    exact hName
  rw [loadApply_current hRun hFind hLoading]
  rw [← hLoaded] at hFind
  rcases find_reschedule_self
      (s := { s with storageIO := false, loader := some .pick })
      hFind with
    ⟨hFound, hSame⟩
  rw [hLoaded] at hFound
  refine ⟨_, hFound, hSame.token.trans (loaded_same s.clock a _).2.1, ?_, ?_⟩
  · rw [hSame.rt]
    unfold loaded
    dsimp only
    rw [if_pos hPending]
    split <;> rfl
  · rw [hSame.storageError, hSame.retry]
    unfold loaded Targets
    dsimp only
    rw [if_pos hPending]
    split
    · rename_i hNot
      refine Or.inr ⟨?_, retargeted_ne⟩
      rintro ⟨hPersistent, hCalendar, hUnit⟩
      rw [hPersistent] at hNot
      rcases hNot with hFalse | hEmpty | hOther
      · cases hFalse
      · exact hCalendar hEmpty
      · exact hOther hUnit
    · rename_i hTarget
      rw [not_or, not_or, Bool.not_eq_false, not_not] at hTarget
      refine Or.inl ⟨hTarget, rfl, _, rfl, ?_⟩
      dsimp only
      rw [hName]

/- An outdated result is not taken on. -/
omit [Calendar K] in
theorem recordResult_outdated
    {event : Fire}
    (h : s.Outdated event)
    (success : Bool) :
    s.recordResult event success = s := by
  rcases recordResult_cases s event success with
    hEq | ⟨a, _, hFind, hToken, _, _, hID, _⟩
  · exact hEq
  · rcases h a hFind with hOld | ⟨hSome, hOther⟩
    · exact absurd hToken hOld
    · exact absurd (hID hSome) hOther

/- Nor is it admitted to its write or taken over. -/
theorem resultMove_outdated
    {i : Nat}
    {v : ResultWork}
    (h : s.Outdated v.event)
    (hv : s.results[i]? = some v)
    (hMove : ResultMove cfg s i v s') :
    (v.phase = .save ∨ s'.disk = s.disk ∧ s'.saved = s.saved) ∧
      (s'.armed = s.armed ∨
        ∃ text a, v.phase = .settle (some text) ∧
          s.find v.event.name = some a ∧ a.token = v.event.token) ∧
      (v.phase = .check ∨ v.phase = .apply →
        s'.results[i]? = some { v with phase := .done }) := by
  have hBound := (List.getElem?_eq_some_iff.mp hv).1
  -- the end of a write, which only a failure makes known
  have hSettle :
      ∀ err phase, v.phase = .settle err →
        (v.phase = .save ∨
          ((s.persistSettle v.event v.ref err).1.setResult i
              { v with phase := phase }).disk = s.disk ∧
            ((s.persistSettle v.event v.ref err).1.setResult i
              { v with phase := phase }).saved = s.saved) ∧
        (((s.persistSettle v.event v.ref err).1.setResult i
            { v with phase := phase }).armed = s.armed ∨
          ∃ text a, v.phase = .settle (some text) ∧
            s.find v.event.name = some a ∧
              a.token = v.event.token) := by
    intro err phase hPhase
    have hOutside := Outside.persistSettle s v.event v.ref err
    refine ⟨Or.inr ⟨hOutside.disk, hOutside.saved⟩, ?_⟩
    refine persistSettle_rule (P := fun t => t.armed = s.armed ∨ _)
      (Or.inl rfl) ?_
    intro a text hText hFind hName hToken
    rw [← hName] at hFind
    exact Or.inr ⟨text, a, hPhase.trans (congrArg _ hText), hFind,
      hToken.symm⟩
  cases hMove with
  | hold _ _ hMay =>
      unfold MaySave at hMay
      split at hMay
      · exact hMay.elim
      · rename_i a hFind
        rcases h a hFind with hOld | ⟨hSome, hOther⟩
        · exact absurd hMay.2.1 hOld
        · exact absurd (hMay.2.2.2 hSome) hOther
  | pass =>
      exact ⟨Or.inr ⟨rfl, rfl⟩, Or.inl rfl,
        fun _ => List.getElem?_set_self hBound⟩
  | save _ _ _ hPhase =>
      refine ⟨Or.inl hPhase, Or.inl rfl, ?_⟩
      rw [hPhase]
      rintro (hEq | hEq) <;> cases hEq
  | ready err hPhase | drop err hPhase =>
      refine ⟨(hSettle err _ hPhase).1, (hSettle err _ hPhase).2, ?_⟩
      rw [hPhase]
      rintro (hEq | hEq) <;> cases hEq
  | apply =>
      have hSame : s.applyResult v = s := by
        refine applyResult_rule (P := fun t => t = s) rfl ?_
        intro a hFind hName hToken hID
        rcases h a (hName ▸ hFind) with hOld | ⟨hSome, hOther⟩
        · exact absurd hToken.symm hOld
        · rcases hID with hNone | hMatch
          · exact absurd hNone hSome
          · exact absurd hMatch hOther
      rw [hSame]
      exact ⟨Or.inr ⟨rfl, rfl⟩, Or.inl rfl,
        fun _ => List.getElem?_set_self hBound⟩

/- A load finds the record on the disk, unless it fails. -/
theorem loadStep_found
    (hStored : cfg.stored = true)
    {name other : String}
    {ref : Nat}
    {r : StoreResult}
    (hLoader : s.loader = some (.read name ref))
    (hStep : s.loadStep cfg other r = some s') :
    ∃ result, s'.loader = some (.apply name ref result) ∧
      (∀ rt, result = .ok rt → rt = s.disk name) ∧
      (r = .done → (s.disk name).invalid = none →
        result = .ok (s.disk name)) := by
  unfold loadStep at hStep
  rw [hLoader] at hStep
  dsimp only at hStep
  split at hStep
  · cases hStep
  rename_i result hLoad
  cases hStep
  refine ⟨result, rfl, ?_⟩
  unfold load at hLoad
  rw [if_neg (by simp [hStored])] at hLoad
  split at hLoad
  · rename_i text written
    split at hLoad
    · cases hLoad
    · cases hLoad
      constructor
      · intro rt hEq
        cases hEq
      · intro hDone
        cases hDone
  · split at hLoad
    · rename_i text hInvalid
      cases hLoad
      constructor
      · intro rt hEq
        cases hEq
      · intro _ hValid
        rw [hInvalid] at hValid
        cases hValid
    · cases hLoad
      refine ⟨fun rt hEq => ?_, fun _ _ => rfl⟩
      cases hEq
      rfl

end Parts

/-
  A suspended timer along a run: it stays so, or its arm ends.
-/
theorem halted_path
    [Calendar K]
    {cfg : Config}
    {name : String}
    {ref token : Nat}
    {t : Engine K}
    (hReach : (timing K cfg).ReachableWhere Reports s)
    (hHalted : s.Halted name ref token)
    (hPath : (timing K cfg).Path Reports s t) :
    (t.Halted name ref token ∧
      ∃ new, t.consumed = s.consumed ++ new ∧
        ∀ x ∈ new, x.event.name ≠ name) ∨
      ∃ u l u', (timing K cfg).Path Reports s u ∧ Ends name l ∧
        u.step cfg l = some u' ∧ (timing K cfg).Path Reports u' t := by
  induction hPath with
  | refl => exact Or.inl ⟨hHalted, [], by simp, by simp⟩
  | tail hPre hReports hNext ih =>
      rename_i v v' l
      rcases ih with
        ⟨hStill, new, hNew, hOther⟩ | ⟨u, k, u', hu, hEnds, hk, h⟩
      · by_cases hEnds : Ends name l
        · exact Or.inr ⟨v, l, v', hPre, hEnds, hNext, .refl v'⟩
        · left
          rcases hReach with ⟨s₀, hInit, hFirst⟩
          have hHere : (timing K cfg).ReachableWhere Reports v :=
            ⟨s₀, hInit, hFirst.trans hPre⟩
          have hPlain := hHere.reachable
          rcases hStill.step (.of_reachable hHere) (.of_reachable hPlain)
              (.of_reachable hPlain) (.of_reachable hPlain) hEnds
              hNext with
            ⟨hAgain, more, hMore, hElse⟩
          refine ⟨hAgain, new ++ more, ?_, ?_⟩
          · rw [hMore, hNew, List.append_assoc]
          · intro x hx
            rcases List.mem_append.mp hx with hOld | hLast
            · exact hOther x hOld
            · exact hElse x hLast
      · exact Or.inr ⟨u, k, u', hu, hEnds, hk, .tail h hReports hNext⟩

end Engine

------------------------------------------------------------
-- Runs
------------------------------------------------------------

section Runs

local instance : Calendar Nat := periodic

/- On a calendar, with stored records. -/
def lasting : Spec Nat where
  name := "a.timer"
  unit := "a.service"
  onBootSec := 0
  onStartupSec := 0
  onUnitActiveSec := 0
  onCalendar := [60]
  persistent := true
  onBootSecSet := false
  onStartupSecSet := false
  onUnitActiveSecSet := false

/- The timer fires, its record is saved, and a retry is asked. -/
def retriedOnce : List (Label Nat) :=
  [.arm lasting] ++ taking ++
    [.plan, .plan, .plan, .plan, .clock (instant 130), .fireDue] ++
    List.replicate 4 (.fire 0 .done) ++
    [.retry
      { activationID := "n-1"
        name := "a.timer"
        unit := "a.service"
        token := 1 }]

/- Its callback reports, and it is armed again before the write. -/
def overtaken : List (Label Nat) :=
  [.recordResult
      { activationID := "n-1"
        name := "a.timer"
        unit := "a.service"
        token := 1 }
      true,
    .result 0 .done, .arm lasting]

end Runs

end Timers

end Winunitd
