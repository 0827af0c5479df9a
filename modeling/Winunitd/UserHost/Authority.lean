import Winunitd.UserHost.Programs

/-
  Launches of user managers are authorised.

  Token lookups and probes take their time while sessions
  end, policies change and linger records come and go.  A
  launch that the host accepts in the end rests on the latest
  request of its session and on the policy in force, or on
  the current linger record; an enumeration of the sessions is
  published only if nothing was accepted since it began.

  Key definitions include:
    * `SessionEvent.about`, `Latest`
    * `UserHost.Recorded`
    * `UserHost.Allowed`, `UserHost.Entitled`
    * `UserHost.authority`

  Key theorems include:
    * `UserHost.authority_valid`
    * `UserHost.launch_authorised`
-/

------------------------------------------------------------
-- Latest Requests
------------------------------------------------------------

namespace Winunitd

open Lib

/- The session that an event is about. -/
def SessionEvent.about : SessionEvent → Option Nat
| .requested session _ _ => some session
| .refused session => some session
| .loggedOff session => some session
| .enumerated => none
| .policyChanged => none

/-
  The request is the latest event of its session, and the
  session has not logged off since the observation that the
  request stems from.
-/
def Latest
    (events : List SessionEvent)
    (session request : Nat) : Prop :=
  ∃ before since after,
    events = before ++ .requested session request since :: after ∧
    (∀ e ∈ after, e.about ≠ some session) ∧
    .loggedOff session ∉ events.drop since

variable {events : List SessionEvent}

theorem Latest.snoc
    {session request : Nat}
    (h : Latest events session request)
    {e : SessionEvent}
    (he : e.about ≠ some session) :
    Latest (events ++ [e]) session request := by
  rcases h with ⟨before, since, after, hEvents, hAfter, hOff⟩
  refine ⟨before, since, after ++ [e], ?_, ?_, ?_⟩
  · simp [hEvents]
  · intro e' he'
    rcases List.mem_append.mp he' with hOld | hNew
    · exact hAfter e' hOld
    · rw [List.mem_singleton.mp hNew]
      exact he
  · rw [List.drop_append, List.mem_append]
    rintro (hOld | hNew)
    · exact hOff hOld
    · have hEq := List.mem_singleton.mp (List.mem_of_mem_drop hNew)
      rw [← hEq] at he
      exact he rfl

theorem Latest.requested
    {session request since : Nat}
    (hOff : .loggedOff session ∉ events.drop since) :
    Latest (events ++ [.requested session request since]) session
      request := by
  refine ⟨events, since, [], rfl, by simp, ?_⟩
  rw [List.drop_append, List.mem_append]
  rintro (hOld | hNew)
  · exact hOff hOld
  · simpa using List.mem_of_mem_drop hNew

namespace UserHost

open HostWorkers

variable {S : Type}
variable [SIDs S]

------------------------------------------------------------
-- What Has Been Recorded
------------------------------------------------------------

/-
  Every accepted event has advanced one of the two counters,
  and pending requests are the latest of their sessions.
-/
structure Recorded (h : UserHost S) : Prop where
  counted :
    h.hist.events.length = h.nextSessionRequest + h.admissionRevision
  latest :
    ∀ session request,
      h.sessionRequests.lookup session = some request →
        Latest h.hist.events session request

/- The step records nothing and forgets at most requests. -/
structure Still (h h' : UserHost S) : Prop where
  events : h'.hist.events = h.hist.events
  next : h'.nextSessionRequest = h.nextSessionRequest
  revision : h'.admissionRevision = h.admissionRevision
  admission : h'.admission = h.admission
  began : h'.hist.began = h.hist.began
  started : h'.hist.started = h.hist.started
  probes : h'.hist.probes = h.hist.probes
  requests :
    ∀ session request,
      h'.sessionRequests.lookup session = some request →
        h.sessionRequests.lookup session = some request

/- All that this module speaks about. -/
def ledger (h : UserHost S) :
    (List SessionEvent × Nat × Nat × UserAdmission S) ×
      (HostWorkerId → Nat) ×
      (HostWorkerId → Option (LingerRecord S × Nat)) ×
      List (AdmissionProbe S) × Table Nat Nat :=
  ((h.hist.events, h.nextSessionRequest, h.admissionRevision,
      h.admission),
    h.hist.began, h.hist.started, h.hist.probes, h.sessionRequests)

variable {h h' : UserHost S}

theorem Still.of_ledger
    (hSame : h'.ledger = h.ledger) :
    Still h h' := by
  simp only [ledger, Prod.mk.injEq] at hSame
  rcases hSame with ⟨⟨hE, hN, hR, hA⟩, hB, hS, hP, hQ⟩
  exact ⟨hE, hN, hR, hA, hB, hS, hP, fun _ _ hLook => hQ ▸ hLook⟩

theorem Still.trans
    {h h' h'' : UserHost S}
    (a : Still h h')
    (b : Still h' h'') :
    Still h h'' where
  events := b.events.trans a.events
  next := b.next.trans a.next
  revision := b.revision.trans a.revision
  admission := b.admission.trans a.admission
  began := b.began.trans a.began
  started := b.started.trans a.started
  probes := b.probes.trans a.probes
  requests := fun s r hLook => a.requests s r (b.requests s r hLook)

theorem Recorded.still
    (hRec : Recorded h)
    (hStill : Still h h') :
    Recorded h' where
  counted := by
    rw [hStill.events, hStill.next, hStill.revision]
    exact hRec.counted
  latest := by
    intro session request hLook
    rw [hStill.events]
    exact hRec.latest session request (hStill.requests _ _ hLook)

/- An event that advances the session counter; requests of the
   sessions that it is not about stay. -/
theorem Recorded.event
    (hRec : Recorded h)
    {e : SessionEvent}
    (hEvents : h'.hist.events = h.hist.events ++ [e])
    (hNext : h'.nextSessionRequest = h.nextSessionRequest + 1)
    (hRevision : h'.admissionRevision = h.admissionRevision)
    (hOthers :
      ∀ other, e.about ≠ some other →
        h'.sessionRequests.lookup other =
          h.sessionRequests.lookup other)
    (hOwn :
      ∀ session request, e.about = some session →
        h'.sessionRequests.lookup session = some request →
          Latest h'.hist.events session request) :
    Recorded h' where
  counted := by
    rw [hEvents, hNext, hRevision, List.length_append, hRec.counted,
      List.length_singleton]
    omega
  latest := by
    intro session request hLook
    by_cases hAbout : e.about = some session
    · exact hOwn session request hAbout hLook
    · rw [hOthers session hAbout] at hLook
      rw [hEvents]
      exact (hRec.latest session request hLook).snoc hAbout

------------------------------------------------------------
-- Decisions That Record Nothing
------------------------------------------------------------

section Quiet

variable (h : UserHost S)

theorem acceptUserWorkClassLocked_still (cls : UserWorkClass) :
    Still h (h.acceptUserWorkClassLocked cls).2 := by
  unfold acceptUserWorkClassLocked
  split
  · exact .of_ledger rfl
  · split
    · exact .of_ledger rfl
    · split
      · exact .of_ledger rfl
      · exact .of_ledger rfl

theorem finishSessionRequest_still (session request : Nat) :
    Still h (h.finishSessionRequest session request) := by
  unfold finishSessionRequest
  split
  · refine ⟨rfl, rfl, rfl, rfl, rfl, rfl, rfl, ?_⟩
    intro other request' hLook
    by_cases hEq : other = session
    · subst hEq
      simp at hLook
    · exact (AList.lookup_erase_ne hEq).symm.trans hLook
  · exact .of_ledger rfl

theorem queueIdleCleanup_still (sid : S) :
    Still h (h.queueIdleCleanup sid) := by
  unfold queueIdleCleanup
  split
  · exact .of_ledger rfl
  · exact .of_ledger rfl

theorem sealShutdownLocked_still : Still h h.sealShutdownLocked := by
  refine ⟨rfl, rfl, rfl, rfl, rfl, rfl, rfl, ?_⟩
  intro session request hLook
  simp [sealShutdownLocked] at hLook

end Quiet

------------------------------------------------------------
-- Decisions That Record
------------------------------------------------------------

/-
  What a worker can rely on: policies come with a revision of
  their own, and its own marks and the probes stay.
-/
structure Steady (w : HostWorkerId) (h h' : UserHost S) : Prop where
  revision : h.admissionRevision ≤ h'.admissionRevision
  admission :
    h'.admissionRevision = h.admissionRevision →
      h'.admission = h.admission
  began : h'.hist.began w = h.hist.began w
  started : h'.hist.started w = h.hist.started w
  probes : ∀ p ∈ h.hist.probes, p ∈ h'.hist.probes

theorem Still.steady
    (hStill : Still h h')
    (w : HostWorkerId) :
    Steady w h h' where
  revision := hStill.revision.ge
  admission := fun _ => hStill.admission
  began := congrFun hStill.began w
  started := congrFun hStill.started w
  probes := fun _ hp => hStill.probes ▸ hp

variable {w : HostWorkerId}

theorem Steady.trans
    {h h' h'' : UserHost S}
    (a : Steady w h h')
    (b : Steady w h' h'') :
    Steady w h h'' where
  revision := a.revision.trans b.revision
  admission := by
    intro hEq
    have hLeft := a.revision
    have hRight := b.revision
    rw [b.admission (by omega), a.admission (by omega)]
  began := b.began.trans a.began
  started := b.started.trans a.started
  probes := fun p hp => b.probes p (a.probes p hp)

/- The part that session events leave alone. -/
def marks (h : UserHost S) :
    Nat × UserAdmission S × (HostWorkerId → Nat) ×
      (HostWorkerId → Option (LingerRecord S × Nat)) ×
      List (AdmissionProbe S) :=
  (h.admissionRevision, h.admission, h.hist.began, h.hist.started,
    h.hist.probes)

theorem Steady.of_marks
    (hSame : h'.marks = h.marks)
    (w : HostWorkerId) :
    Steady w h h' := by
  simp only [marks, Prod.mk.injEq] at hSame
  rcases hSame with ⟨hR, hA, hB, hS, hP⟩
  exact
    ⟨hR.ge, fun _ => hA, congrFun hB w, congrFun hS w,
      fun _ hp => hP ▸ hp⟩

section Recording

variable {h : UserHost S}

theorem Recorded.unchanged
    (hRec : Recorded h) :
    Recorded h ∧ ∀ v, Steady v h h :=
  ⟨hRec, (Still.of_ledger rfl).steady⟩

theorem acceptSessionRequest_recorded
    (hRec : Recorded h)
    (session : Nat) :
    Recorded (h.acceptSessionRequest session).2 ∧
      ∀ v, Steady v h (h.acceptSessionRequest session).2 := by
  have hWork := acceptUserWorkClassLocked_still h .admission
  unfold acceptSessionRequest
  split
  · exact hRec.unchanged
  · split
    · exact hRec.unchanged
    · split
      · exact hRec.unchanged
      · split
        · exact hRec.unchanged
        · dsimp only
          split
          · rename_i err h₁ hRefused
            rw [hRefused] at hWork
            refine ⟨(hRec.still hWork).event rfl
              (congrArg (· + 1) hWork.next.symm) rfl ?_ ?_,
              fun v => (hWork.steady v).trans (.of_marks (by rfl) v)⟩
            · intro other hOther
              apply AList.lookup_erase_ne
              rintro rfl
              exact hOther rfl
            · rintro _ request ⟨⟩ hLook
              simp [note] at hLook
          · rename_i work h₁ hAccepted
            rw [hAccepted] at hWork
            refine ⟨(hRec.still hWork).event rfl
              (congrArg (· + 1) hWork.next.symm) rfl ?_ ?_,
              fun v => (hWork.steady v).trans (.of_marks (by rfl) v)⟩
            · intro other hOther
              apply AList.lookup_insert_ne
              rintro rfl
              exact hOther rfl
            · rintro _ request ⟨⟩ hLook
              rw [show request = h.nextSessionRequest + 1 by
                simpa [note] using hLook.symm]
              refine Latest.requested ?_
              simp

theorem recordLogoff_recorded
    (hRec : Recorded h)
    (session : Nat) :
    Recorded (h.recordLogoff session).2 := by
  refine hRec.event rfl rfl rfl ?_ ?_
  · intro other hOther
    apply AList.lookup_erase_ne
    rintro rfl
    exact hOther rfl
  · rintro _ request ⟨⟩ hLook
    simp [recordLogoff, note] at hLook

theorem acceptAdmissionPolicy_recorded
    (hRec : Recorded h)
    (p : UserAdmission S) :
    Recorded (h.acceptAdmissionPolicy p).2 ∧
      ∀ v, Steady v h (h.acceptAdmissionPolicy p).2 := by
  unfold acceptAdmissionPolicy
  split
  · exact hRec.unchanged
  · dsimp only
    split
    · exact hRec.unchanged
    · refine ⟨⟨?_, ?_⟩, fun v =>
        ⟨Nat.le_succ _, ?_, rfl, rfl, fun _ hp => hp⟩⟩
      · have hCounted := hRec.counted
        simp only [note, List.length_append, List.length_singleton]
        omega
      · intro session request hLook
        exact (hRec.latest session request hLook).snoc
          (by simp [SessionEvent.about])
      · intro hEq
        simp [note] at hEq

/- What holds while an enumeration reserves its requests. -/
structure Reserving
    (h₀ : UserHost S)
    (since : Nat)
    (h : UserHost S) : Prop where
  recorded : Recorded h
  noLogoff : ∀ session, .loggedOff session ∉ h.hist.events.drop since
  marks : h.marks = h₀.marks

variable {h₀ : UserHost S}

theorem reserveSession_reserving
    {since : Nat}
    {acc : List (Nat × Nat) × UserHost S}
    (hAcc : Reserving h₀ since acc.2)
    (session : Nat) :
    Reserving h₀ since (reserveSession since acc session).2 := by
  unfold reserveSession
  split
  · exact hAcc
  · refine ⟨?_, ?_, hAcc.marks⟩
    · refine hAcc.recorded.event rfl rfl rfl ?_ ?_
      · intro other hOther
        apply AList.lookup_insert_ne
        rintro rfl
        exact hOther rfl
      · rintro _ request ⟨⟩ hLook
        rw [show request = acc.2.nextSessionRequest + 1 by
          simpa [note] using hLook.symm]
        exact Latest.requested (hAcc.noLogoff session)
    · intro other
      simp only [note, List.drop_append, List.mem_append]
      rintro (hOld | hNew)
      · exact hAcc.noLogoff other hOld
      · simpa using List.mem_of_mem_drop hNew

theorem reserveSessions_reserving
    {since : Nat}
    (ids : List Nat)
    (acc : List (Nat × Nat) × UserHost S)
    (hAcc : Reserving h₀ since acc.2) :
    Reserving h₀ since (ids.foldl (reserveSession since) acc).2 := by
  induction ids generalizing acc with
  | nil => exact hAcc
  | cons id ids ih =>
      exact ih _ (reserveSession_reserving hAcc id)

/-
  The counters tell that no event was accepted since the
  enumeration began.
-/
theorem acceptUserSessions_reserving
    (hRec : Recorded h)
    {epoch revision : Nat}
    (hMark : h.hist.began w = epoch + revision)
    (ids : List Nat) :
    Recorded (h.acceptUserSessions w ids epoch revision).2 ∧
      ∀ v, Steady v h (h.acceptUserSessions w ids epoch revision).2 := by
  unfold acceptUserSessions
  split
  · exact hRec.unchanged
  · split
    · exact hRec.unchanged
    · rename_i hCurrent
      simp only [not_or, not_not] at hCurrent
      rcases hCurrent with ⟨_, hEpoch, hRevision⟩
      dsimp only
      have hSince : h.hist.events.length = h.hist.began w := by
        rw [hRec.counted, hEpoch, hRevision, hMark]
      have hBegin :
          Reserving h (h.hist.began w)
            ({ h with
              nextSessionRequest := h.nextSessionRequest + 1 }.note
              .enumerated) := by
        refine ⟨?_, ?_, rfl⟩
        · exact hRec.event rfl rfl rfl (fun _ _ => rfl) nofun
        · intro session
          simp [note, ← hSince]
      have hEnd := reserveSessions_reserving ids ([], _) hBegin
      constructor
      · refine ⟨hEnd.recorded.counted, ?_⟩
        intro session request hLook
        rw [Table.lookup_keep] at hLook
        exact hEnd.recorded.latest session request
          (Option.filter_eq_some_iff.mp hLook).1
      · exact .of_marks hEnd.marks

end Recording

------------------------------------------------------------
-- Actions
------------------------------------------------------------

variable {o : HostOutcome S}
variable {a : HostAction S}

theorem perform_still
    (hQuiet : Quiet a)
    {x : a.Result × UserHost S}
    (hPerform : h.perform w o a = some x) :
    Still h x.2 := by
  cases a
  case queueIdleCleanup sid =>
    cases hPerform
    exact queueIdleCleanup_still h sid
  case acceptUserWorkClass cls =>
    cases hPerform
    exact acceptUserWorkClassLocked_still h cls
  case finishSessionRequest session request =>
    cases hPerform
    exact finishSessionRequest_still h session request
  case acceptUserShutdown pass =>
    cases hPerform
    exact (sealShutdownLocked_still h).trans (.of_ledger rfl)
  case awaitStop a =>
    simp only [perform] at hPerform
    split at hPerform
    · cases hPerform
      exact .of_ledger rfl
    · rcases Option.map_eq_some_iff.mp hPerform with ⟨_, _, rfl⟩
      exact .of_ledger rfl
  case acceptUserSessions | acceptAdmissionPolicy | beginLinger
    | beginReconcile | probeUserUnits =>
    exact hQuiet.elim
  -- no branch of the other actions touches the ledger
  all_goals
    simp only [perform, finishNativeUserWork, acceptSessionIdentity,
      acceptAdmissionRevocation, acceptLingerSnapshot, acceptUserLaunch,
      observeUserAlive, applyUserCleanup, recordLingerTokenFailure,
      joinStop, startProcess, killProcess, processAlive] at hPerform
    repeat' split at hPerform
    all_goals
      cases hPerform
      try exact .of_ledger rfl

------------------------------------------------------------
-- Entitlement
------------------------------------------------------------

/-
  The policy in force admits the user, or asks for a probe
  that the worker has made under it with success.
-/
def Allowed (h : UserHost S) (w : HostWorkerId) (sid : S) : Prop :=
  (h.admission.decision sid).1 = true ∨
    ((h.admission.decision sid).2 = true ∧
      ∃ p ∈ h.hist.probes,
        p.worker = w ∧ p.revision = h.admissionRevision ∧
          p.sid = sid ∧ p.present = true)

/- What a worker has made sure of before it asks to launch. -/
def Entitled
    (w : HostWorkerId)
    (sid : S) :
    Wanted S → UserHost S → Prop
| .session origin, h =>
    origin.revision ≤ h.admissionRevision ∧
      (origin.revision = h.admissionRevision → Allowed h w sid)
| .linger record revision, h =>
    record.sid = sid ∧ h.hist.started w = some (record, revision)

variable {sid : S}

theorem Allowed.steady
    (hAllowed : Allowed h w sid)
    (hSteady : Steady w h h')
    (hRevision : h'.admissionRevision = h.admissionRevision) :
    Allowed h' w sid := by
  unfold Allowed
  rw [hSteady.admission hRevision, hRevision]
  rcases hAllowed with hGranted | ⟨hProbe, p, hp, hFacts⟩
  · exact Or.inl hGranted
  · exact Or.inr ⟨hProbe, p, hSteady.probes p hp, hFacts⟩

variable {wanted : Wanted S}

theorem Entitled.steady
    (hEntitled : Entitled w sid wanted h)
    (hSteady : Steady w h h') :
    Entitled w sid wanted h' := by
  cases wanted with
  | session origin =>
      rcases hEntitled with ⟨hLe, hAllowed⟩
      have hMono := hSteady.revision
      refine ⟨hLe.trans hMono, ?_⟩
      intro hEq
      exact (hAllowed (by omega)).steady hSteady (by omega)
  | linger record revision =>
      exact ⟨hEntitled.1, hSteady.started.trans hEntitled.2⟩

/- What the workers agree on. -/
def authority :
    Protocol (UserHost S) (HostAction S) (HostInput S)
      (HostOutcome S) (HostTask S) HostAction.Result where
  known _ _ _ := True
  cond _ _ _ _ := True
  econd _ _ := True
  inv := Recorded
  fresh _ _ := True
  rely := Steady
  contract w a h :=
    match a with
    | .acceptUserSessions _ epoch revision =>
        h.hist.began w = epoch + revision
    | .acceptUserLaunch sid _ _ wanted _ => Entitled w sid wanted h
    | _ => True
  pre _ _ _ := True

------------------------------------------------------------
-- Steps
------------------------------------------------------------

variable {ts : List (HostTask S)}

variable {r : a.Result}

section

variable (hExec : threads.exec w a o h = some (r, h', ts))

include hExec

theorem exec_eq_some :
    ∃ h₁, h.perform w o a = some (r, h₁) ∧
      h' = { h₁ with spawned := [] } ∧ ts = h₁.spawned := by
  rcases Option.map_eq_some_iff.mp hExec with ⟨⟨r', h₁⟩, hPerform, hEq⟩
  simp only [Prod.mk.injEq] at hEq
  rcases hEq with ⟨rfl, rfl, rfl⟩
  exact ⟨h₁, hPerform, rfl, rfl⟩

theorem exec_still
    (hQuiet : Quiet a) :
    Still h h' := by
  rcases exec_eq_some hExec with ⟨h₁, hPerform, rfl, rfl⟩
  exact (perform_still hQuiet hPerform).trans (.of_ledger rfl)

theorem exec_recorded
    (hRec : Recorded h)
    (hContract : authority.contract w a h) :
    Recorded h' ∧ ∀ v, v ≠ w → Steady v h h' := by
  by_cases hQuiet : Quiet a
  · have hStill := exec_still hExec hQuiet
    exact ⟨hRec.still hStill, fun v _ => hStill.steady v⟩
  rcases exec_eq_some hExec with ⟨h₁, hPerform, rfl, rfl⟩
  have hNothing : Recorded h ∧ ∀ v, v ≠ w → Steady v h h :=
    ⟨hRec, fun v _ => hRec.unchanged.2 v⟩
  suffices hGoal : Recorded h₁ ∧ ∀ v, v ≠ w → Steady v h h₁ by
    have hDrained :
        Still h₁ { h₁ with spawned := [] } := .of_ledger rfl
    exact
      ⟨hGoal.1.still hDrained,
        fun v hv => (hGoal.2 v hv).trans (hDrained.steady v)⟩
  cases a
  case acceptUserSessions ids epoch revision =>
    have hState : (h.acceptUserSessions w ids epoch revision).2 = h₁ :=
      congrArg Prod.snd (Option.some.inj hPerform)
    have hStep :=
      acceptUserSessions_reserving hRec (w := w) (h := h) hContract ids
    exact ⟨hState ▸ hStep.1, fun v _ => hState ▸ hStep.2 v⟩
  case acceptAdmissionPolicy p =>
    have hState : (h.acceptAdmissionPolicy p).2 = h₁ :=
      congrArg Prod.snd (Option.some.inj hPerform)
    have hStep := acceptAdmissionPolicy_recorded hRec p
    exact ⟨hState ▸ hStep.1, fun v _ => hState ▸ hStep.2 v⟩
  case beginLinger record now =>
    simp only [perform, Option.some.injEq, beginLinger] at hPerform
    repeat' split at hPerform
    all_goals cases hPerform
    · exact hNothing
    · exact hNothing
    · refine ⟨{ hRec with }, fun v hv => ?_⟩
      exact
        ⟨Nat.le_refl _, fun _ => rfl, rfl, Function.update_of_ne hv _ _,
          fun _ hp => hp⟩
  case beginReconcile =>
    simp only [perform, Option.some.injEq, beginReconcile] at hPerform
    split at hPerform
    all_goals cases hPerform
    · exact hNothing
    · refine ⟨{ hRec with }, fun v hv => ?_⟩
      exact
        ⟨Nat.le_refl _, fun _ => rfl, Function.update_of_ne hv _ _, rfl,
          fun _ hp => hp⟩
  case probeUserUnits token =>
    simp only [perform, Option.some.injEq, probeUserUnits] at hPerform
    split at hPerform
    all_goals cases hPerform
    · exact hNothing
    · refine ⟨{ hRec with }, fun v _ => ?_⟩
      exact
        ⟨Nat.le_refl _, fun _ => rfl, rfl, rfl,
          fun _ hp => List.mem_cons_of_mem _ hp⟩
  all_goals exact absurd trivial hQuiet

end

/- Requests and notifications. -/
theorem accept_recorded
    (hRec : Recorded h)
    (e : HostInput S) :
    Recorded (h.accept e) ∧ ∀ v, Steady v h (h.accept e) := by
  refine accept_rule (P := fun h' => Recorded h' ∧ ∀ v, Steady v h h')
    (acceptSessionRequest_recorded hRec) ?_
    (acceptAdmissionPolicy_recorded hRec) ?_ ?_ ?_ e
  · intro session
    exact ⟨recordLogoff_recorded hRec session, .of_marks (by rfl)⟩
  · intro cls
    have hStill := acceptUserWorkClassLocked_still h cls
    exact ⟨hRec.still hStill, hStill.steady⟩
  · have hStill := sealShutdownLocked_still h
    exact ⟨hRec.still hStill, hStill.steady⟩
  · intro h₁ t _ hP
    have hStill : Still h₁ (h₁.spawn t) := .of_ledger rfl
    exact ⟨hP.1.still hStill, fun v => (hP.2 v).trans (hStill.steady v)⟩

------------------------------------------------------------
-- Workers Keep Their Contracts
------------------------------------------------------------

section Workers

variable {w : HostWorkerId}
variable {h : UserHost S}

variable {α : Type}

variable {p : HostCode S α}

/- Entitlements survive the worker's own quiet actions. -/
theorem ok_serves
    {launch : Option (S × Wanted S)}
    (hp : p.Forall (Serves launch))
    (hLaunch :
      ∀ sid wanted, launch = some (sid, wanted) →
        Entitled w sid wanted h) :
    authority.Ok threads w (fun _ _ => True) p h := by
  refine Protocol.Ok.mono (fun _ _ _ => trivial)
    (Protocol.Ok.of_forall
      (F := fun h' =>
        ∀ sid wanted, launch = some (sid, wanted) →
          Entitled w sid wanted h')
      ?_ ?_ hp hLaunch)
  · intro h₁ h₂ _ hF hSteady sid wanted hEq
    exact (hF sid wanted hEq).steady hSteady
  · intro a h₁ hServes _ hF hKnown
    have hQuiet : Quiet a := by
      cases a <;> first | exact hServes | trivial
    constructor
    · cases a
      case acceptUserLaunch sid mode session wanted now =>
        exact hF sid wanted hServes
      case acceptUserSessions => exact hServes.elim
      all_goals trivial
    · intro o r h₂ ts _ hExec _ sid wanted hEq
      exact (hF sid wanted hEq).steady
        ((exec_still hExec hQuiet).steady w)

theorem ok_quiet
    (hp : p.Forall (Serves none)) :
    authority.Safe threads p :=
  fun _ _ => ok_serves hp nofun

theorem ok_harmless
    (hp : p.Forall Harmless) :
    authority.Safe threads p :=
  ok_quiet (serves_of_harmless hp)

/- One quiet action, whose effect does not matter. -/
theorem ok_then
    {β : Type}
    {Q : β → UserHost S → Prop}
    {F : UserHost S → Prop}
    (hF : ∀ h₁ h₂, F h₁ → Steady w h₁ h₂ → F h₂)
    (hHarmless : Harmless a)
    {k : a.Result → HostCode S β}
    (hs : F h)
    (hNext :
      ∀ r h', F h' → authority.Ok threads w Q (k r) h') :
    authority.Ok threads w Q (Prog.call a >>= k) h := by
  apply Protocol.Ok.call
  intro h₁ _ hSteady _
  have h₁F : F h₁ := hF h h₁ hs hSteady
  have hQuiet : Quiet a := by
    cases a <;> first | exact hHarmless.elim | trivial
  refine ⟨?_, ?_⟩
  · cases a <;> first | exact hHarmless.elim | trivial
  · intro o r h₂ ts _ hExec _
    exact hNext r h₂ (hF h₁ h₂ h₁F ((exec_still hExec hQuiet).steady w))

/- The end of a program that has reserved work. -/
theorem ok_finish
    {β : Type}
    (work : WorkId)
    (token : Option (UserToken S))
    {k : Option String → HostCode S β}
    (hk : ∀ err, (k err).Forall Harmless) :
    authority.Safe threads
      (HostWorkers.finishNativeUserWork work token >>= k) :=
  ok_harmless
    (Prog.forall_bind (finishNativeUserWork_harmless work token) hk)

/- A revision and the policy that was in force with it. -/
def PolicyRead
    (revision : Nat)
    (policy : UserAdmission S)
    (h : UserHost S) : Prop :=
  revision ≤ h.admissionRevision ∧
    (revision = h.admissionRevision → h.admission = policy)

variable {policy : UserAdmission S}

theorem PolicyRead.steady
    {revision : Nat}
    {h₁ h₂ : UserHost S}
    (hRead : PolicyRead revision policy h₁)
    (hSteady : Steady w h₁ h₂) :
    PolicyRead revision policy h₂ := by
  have hMono := hSteady.revision
  have hLe := hRead.1
  refine ⟨hLe.trans hMono, ?_⟩
  intro hEq
  rw [hSteady.admission (by omega)]
  exact hRead.2 (by omega)

variable {origin : UserSessionOrigin}

/- Either way of being admitted entitles to the launch. -/
theorem admitted_ok
    (token : UserToken S)
    (hRead : PolicyRead origin.revision policy h) :
    authority.Ok threads w
      (fun allow h' =>
        allow = true → Entitled w token.sid (.session origin) h')
      (admitted policy token) h := by
  unfold admitted
  rcases hDecision : policy.decision token.sid with ⟨allow, probe⟩
  cases probe with
  | false =>
      intro hAllow
      refine ⟨hRead.1, fun hEq => Or.inl ?_⟩
      rw [hRead.2 hEq, hDecision]
      exact hAllow
  | true =>
      apply Protocol.Ok.call
      intro h₁ _ hSteady _
      have hRead₁ := hRead.steady hSteady
      refine ⟨trivial, ?_⟩
      intro o r h₂ ts _ hExec _
      rcases exec_eq_some hExec with ⟨h₃, hPerform, rfl, rfl⟩
      simp only [perform, Option.some.injEq, probeUserUnits] at hPerform
      split at hPerform
      · cases hPerform
        exact nofun
      · cases hPerform
        intro hPresent
        refine ⟨hRead₁.1, fun hEq => Or.inr ⟨?_, ?_⟩⟩
        · show (h₁.admission.decision token.sid).2 = true
          rw [hRead₁.2 hEq, hDecision]
        · exact ⟨_, List.mem_cons_self, rfl, rfl, rfl, hPresent⟩

theorem admitToken_ok
    (token : UserToken S)
    (hRead : PolicyRead origin.revision policy h) :
    authority.Ok threads w (fun _ _ => True)
      (admitToken origin policy token) h := by
  unfold admitToken
  split
  · refine (admitted_ok token hRead).bind ?_
    intro allow h₁ hEntitled
    cases allow with
    | false => trivial
    | true =>
        refine ok_then (fun _ _ => Entitled.steady)
          (by trivial) (hEntitled rfl) ?_
        intro r h₂ hEntitled₂
        cases r with
        | error err => trivial
        | ok accepted =>
            cases accepted with
            | false => trivial
            | true =>
                refine (ok_serves (ensureRunning_serves token.sid (some
                  token) (.session origin)) ?_).bind (fun _ _ _ =>
                  trivial)
                intro sid wanted hEq
                cases hEq
                exact hEntitled₂
  · trivial

theorem queryAcceptedUserLogon_ok
    (session request : Nat)
    (work : WorkId) :
    authority.Safe (S := UserHost S) threads
      (queryAcceptedUserLogon session request work) := by
  have hEnd :
      ∀ token : Option (UserToken S),
        authority.Safe threads (do
          let _ ← HostWorkers.finishNativeUserWork work token
          call (.finishSessionRequest session request)) :=
    fun token => ok_finish work token (fun _ => ⟨trivial, fun _ => trivial⟩)
  refine Protocol.Safe.call (fun _ _ => trivial) ?_
  intro now w h
  apply Protocol.Ok.call
  intro h₂ _ _ _
  refine ⟨trivial, ?_⟩
  intro o r h₃ ts _ hExec _
  rcases exec_eq_some hExec with ⟨h₄, hPerform, rfl, rfl⟩
  cases r with
  | none => exact hEnd none w _
  | some found =>
      rcases found with ⟨revision, policy⟩
      have hRead : PolicyRead revision policy { h₄ with spawned := [] } := by
        simp only [perform, Option.some.injEq, Prod.mk.injEq] at hPerform
        rcases hPerform with ⟨hFound, rfl⟩
        unfold beginLogon at hFound
        split at hFound
        · cases hFound
        · split at hFound
          · cases hFound
          · cases hFound
            exact ⟨Nat.le_refl _, fun _ => rfl⟩
      refine ok_then (fun _ _ => PolicyRead.steady)
        (by trivial) hRead ?_
      intro r h₅ hRead₅
      rcases r with ⟨token, err⟩
      cases err with
      | some err => exact hEnd token w h₅
      | none =>
          cases token with
          | none => exact hEnd none w h₅
          | some token =>
              exact (admitToken_ok token hRead₅).bind
                (fun _ h₆ _ => hEnd (some token) w h₆)

theorem startLinger_ok (record : LingerRecord S) :
    authority.Safe threads (startLinger record) := by
  refine Protocol.Safe.call (fun _ _ => trivial) ?_
  intro now w h
  apply Protocol.Ok.call
  intro h₂ _ _ _
  refine ⟨trivial, ?_⟩
  intro o r h₃ ts _ hExec _
  rcases exec_eq_some hExec with ⟨h₄, hPerform, rfl, rfl⟩
  cases r with
  | error err => trivial
  | ok revision =>
      have hEntitled :
          Entitled w record.sid (.linger record revision)
            { h₄ with spawned := [] } := by
        simp only [perform, Option.some.injEq, beginLinger] at hPerform
        repeat' split at hPerform
        all_goals cases hPerform
        exact ⟨rfl, Function.update_self _ _ _⟩
      refine ok_then (fun _ _ => Entitled.steady)
        (by trivial) hEntitled ?_
      intro r h₅ hEntitled₅
      cases r with
      | error err => trivial
      | ok work =>
          refine ok_then (fun _ _ => Entitled.steady)
            (by trivial) hEntitled₅ ?_
          intro r h₆ hEntitled₆
          rcases r with ⟨token, err⟩
          cases err with
          | some err =>
              refine (ok_quiet (recordLingerTokenFailure_serves record.sid
                revision err) w h₆).bind ?_
              exact fun _ h₇ _ => ok_finish work token (fun _ => by trivial) w h₇
          | none =>
              refine (ok_serves (ensureRunning_serves record.sid token
                (.linger record revision)) ?_).bind ?_
              · intro sid wanted hEq
                cases hEq
                exact hEntitled₆
              · exact fun _ h₇ _ =>
                  ok_finish work token (fun _ => by trivial) w h₇

/- The counters that were read are those of the mark. -/
theorem enumerateAccepted_ok
    {epoch revision : Nat}
    (hMark : h.hist.began w = epoch + revision) :
    authority.Ok threads w (fun _ _ => True)
      (enumerateAccepted epoch revision) h := by
  refine ok_then
    (F := fun h' => h'.hist.began w = epoch + revision)
    (fun _ _ hM hS => hS.began.trans hM) (by trivial) hMark ?_
  intro r h₁ hMark₁
  cases r with
  | error err => trivial
  | ok ids =>
      dsimp only
      split
      · trivial
      · apply Protocol.Ok.call
        intro h₂ _ hSteady _
        refine ⟨hSteady.began.trans hMark₁, ?_⟩
        intro o r h₃ ts _ _ _
        cases r with
        | none => trivial
        | some found =>
            rcases found with ⟨requests, sids⟩
            exact (ok_harmless (dispatchReconcileRequests_harmless
              requests)).bind (fun _ => ok_quiet (stopIdle_serves sids)) w h₃

theorem reconcileAccepted_ok (work : WorkId) :
    authority.Safe (S := UserHost S) threads
      (reconcileAccepted work) := by
  refine Protocol.Safe.call (fun _ _ => trivial) (fun works => ?_)
  refine (ok_harmless (cleanupNativeUserWork_harmless false works)).bind ?_
  intro _ w h
  apply Protocol.Ok.call
  intro h₃ hRec _ _
  refine ⟨trivial, ?_⟩
  intro o r h₄ ts _ hExec _
  rcases exec_eq_some hExec with ⟨h₅, hPerform, rfl, rfl⟩
  cases r with
  | none => exact ok_finish work none (fun _ => by trivial) w _
  | some found =>
      rcases found with ⟨epoch, revision⟩
      have hMark :
          ({ h₅ with spawned := [] } : UserHost S).hist.began w =
            epoch + revision := by
        simp only [perform, Option.some.injEq, beginReconcile]
          at hPerform
        split at hPerform
        all_goals cases hPerform
        exact (Function.update_self _ _ _).trans hRec.counted
      exact (enumerateAccepted_ok hMark).bind
        (fun _ h₆ _ => ok_finish work none (fun _ => by trivial) w h₆)

theorem reconcile_ok
    (work : WorkId)
    (lingering : Bool) :
    authority.Safe (S := UserHost S) threads
      (reconcile work lingering) := by
  refine (reconcileAccepted_ok work).bind (fun _ => ?_)
  cases lingering with
  | false => exact fun _ _ => trivial
  | true =>
      refine Protocol.Safe.call (fun _ _ => trivial) (fun r => ?_)
      cases r <;> exact fun _ _ => trivial

theorem authority_allows : Allows (authority (S := S)) where
  harmless := ok_harmless
  policy := fun _ _ _ => trivial
  revoke := fun sids => ok_quiet (revoke_serves sids)
  stopUser := fun sid onlyIdle => ok_quiet (stopUser_serves sid onlyIdle)
  startLinger := startLinger_ok
  query := queryAcceptedUserLogon_ok

/- Tasks start without further conditions. -/
theorem goes_ok
    {p : HostCode S (Option (HostTask S))}
    (hp : authority.Safe threads p) :
    authority.Ok threads w (authority.Goes w) p h :=
  (hp w h).mono (fun _ _ _ _ _ _ _ _ => trivial)

/- A task that has no successor. -/
theorem ends_ok
    (hp : authority.Safe threads p) :
    authority.Ok threads w (authority.Goes w) (ends p) h :=
  goes_ok (hp.bind (fun _ _ _ => trivial))

theorem code_ok (t : HostTask S) :
    authority.Ok threads w (authority.Goes w) t.code h := by
  have hAll := authority_allows (S := S)
  cases t with
  | logon session request work joins =>
      exact ends_ok (logon_safe hAll session request work joins)
  | reconcile work lingering =>
      exact goes_ok (reconcile_ok work lingering)
  | lingerScan work => exact ends_ok (startLingering_safe hAll work)
  | enableLinger work => exact ends_ok (enableLinger_safe hAll work)
  | disableLinger work => exact ends_ok (disableLinger_safe hAll work)
  | stopUser sid onlyIdle => exact ends_ok (hAll.stopUser sid onlyIdle)
  | idleCleanup sid => exact goes_ok (ok_quiet (idleCleanup_serves sid))
  | revoke sids => exact ends_ok (hAll.revoke sids)
  | refreshAdmission work =>
      exact ends_ok (refreshAdmission_safe hAll work)
  | attempt a key => exact ends_ok (ok_quiet (attempt_serves a key))
  | shutdownStop pass sid =>
      exact ends_ok (shutdownStop_safe hAll pass sid)
  | shutdown => exact goes_ok (ok_harmless shutdown_harmless)

end Workers

theorem authority_valid :
    (authority (S := S)).Valid threads where
  rely_refl := fun w h => (Still.of_ledger rfl).steady w
  rely_trans := fun _ _ _ _ a b => a.trans b
  init := by
    rintro h ⟨cfg, policy, nobody, rfl⟩
    refine ⟨⟨rfl, ?_⟩, fun _ => trivial⟩
    intro session request hLook
    simp [initial] at hLook
  exec := by
    intro w a o h r h' ts hRec _ hContract _ hExec
    have hStep := exec_recorded hExec hRec hContract
    exact
      ⟨hStep.1, hStep.2, fun _ _ _ => trivial, fun _ _ _ _ => trivial⟩
  event := by
    intro e h h' ts hRec _ hEvent
    cases hEvent
    have hStep := accept_recorded hRec e
    have hDrained :
        Still (h.accept e) { h.accept e with spawned := [] } :=
      .of_ledger rfl
    exact
      ⟨hStep.1.still hDrained,
        fun v => (hStep.2 v).trans (hDrained.steady v),
        fun _ _ => trivial, fun _ _ _ _ => trivial⟩
  code := fun t _ _ _ _ => code_ok t

------------------------------------------------------------
-- Accepted Launches
------------------------------------------------------------

/- The grounds on which a launch may be accepted. -/
def Grounds
    (h : UserHost S)
    (w : HostWorkerId)
    (sid : S) :
    Wanted S → Prop
| .session origin =>
    Latest h.hist.events origin.session origin.request ∧
      origin.revision = h.admissionRevision ∧ Allowed h w sid
| .linger record revision =>
    record.sid = sid ∧ h.hist.started w = some (record, revision) ∧
      h.lingerRecords.lookup sid = some record ∧
      h.lingerRevision = revision

theorem grounds_of_accepted
    {mode : String}
    {session : Nat}
    {now : Int}
    {i : InstanceId}
    (hRec : Recorded h)
    (hEntitled : Entitled w sid wanted h)
    (hAccepted :
      h.acceptUserLaunch sid mode session wanted now = (.ok i, h')) :
    h.closed = false ∧ Grounds h w sid wanted := by
  unfold acceptUserLaunch at hAccepted
  split at hAccepted
  · cases hAccepted
  · rename_i hStands
    simp only [not_or, Bool.not_eq_true, Bool.not_eq_false] at hStands
    refine ⟨hStands.1, ?_⟩
    cases wanted with
    | session origin =>
        have hCurrent := hStands.2
        simp only [Wanted.holds, UserSessionOrigin.currentLocked,
          Bool.and_eq_true, decide_eq_true_eq] at hCurrent
        refine ⟨hRec.latest _ _ hCurrent.1, hCurrent.2.symm, ?_⟩
        exact hEntitled.2 hCurrent.2.symm
    | linger record revision =>
        have hCurrent := hStands.2
        simp only [Wanted.holds, Bool.and_eq_true, decide_eq_true_eq]
          at hCurrent
        exact
          ⟨hEntitled.1, hEntitled.2, hEntitled.1 ▸ hCurrent.2,
            hCurrent.1⟩

/-
  In every run: a launch is accepted only by an open host and
  on grounds that stand, an enumeration is published only if
  no event was accepted since it began, and a session is
  mapped only if it has not logged off since the observation
  that its request stems from.
-/
theorem launch_authorised
    {c : Config (UserHost S) (HostAction S) (HostTask S)
      HostAction.Result}
    (hc : threads.system.Reachable c) :
    (∀ w sid mode session wanted now k i h',
      c.pool[w]? =
          some (Prog.act (.acceptUserLaunch sid mode session wanted now) k) →
        c.shared.acceptUserLaunch sid mode session wanted now =
          (.ok i, h') →
        c.shared.closed = false ∧ Grounds c.shared w sid wanted) ∧
    (∀ w ids epoch revision k found h',
      c.pool[w]? =
          some (Prog.act (.acceptUserSessions ids epoch revision) k) →
        c.shared.acceptUserSessions w ids epoch revision =
          (some found, h') →
        c.shared.closed = false ∧
          c.shared.hist.events.length = c.shared.hist.began w) ∧
    (∀ (w : HostWorkerId) origin sid k h',
      c.pool[w]? =
          some (Prog.act (.acceptSessionIdentity origin sid) k) →
        c.shared.acceptSessionIdentity origin sid = (.ok true, h') →
        Latest c.shared.hist.events origin.session origin.request) := by
  have hKnown :
      Protocol.Known (threads (S := S)) (fun _ _ _ => True) :=
    fun _ _ _ _ _ _ => trivial
  have hAll :
      threads.system.ReachableWhere (authority (S := S)).Admits c :=
    Protocol.admitted (fun _ _ _ _ => trivial) (fun _ _ => trivial) hc
  have hRec : Recorded c.shared :=
    (authority_valid.sound hKnown hAll).inv
  refine ⟨?_, ?_, ?_⟩
  · intro w sid mode session wanted now k i h' hNext hAccepted
    exact grounds_of_accepted hRec
      (authority_valid.contract hKnown hAll hNext) hAccepted
  · intro w ids epoch revision k found h' hNext hApplied
    have hMark : c.shared.hist.began w = epoch + revision :=
      authority_valid.contract hKnown hAll hNext
    unfold acceptUserSessions at hApplied
    split at hApplied
    · cases hApplied
    · split at hApplied
      · cases hApplied
      · rename_i hCurrent
        simp only [not_or, not_not, Bool.not_eq_true] at hCurrent
        rcases hCurrent with ⟨hOpen, hEpoch, hRevision⟩
        refine ⟨hOpen, ?_⟩
        rw [hRec.counted, hEpoch, hRevision, hMark]
  · intro w origin sid k h' _ hMapped
    unfold acceptSessionIdentity at hMapped
    split at hMapped
    · cases hMapped
    · rename_i hStands
      simp only [not_or, Bool.not_eq_true, Bool.not_eq_false,
        UserSessionOrigin.currentLocked, Bool.and_eq_true,
        decide_eq_true_eq] at hStands
      exact hRec.latest _ _ hStands.2.1

end UserHost

------------------------------------------------------------
-- A Logon
------------------------------------------------------------

section Logon

/- Users by number, all of them valid. -/
@[reducible]
def numberedSIDs : SIDs Nat where
  validSID _ := true

local instance : SIDs Nat := numberedSIDs

namespace UserHost

/- User 5 is enabled. -/
def enabledUser : UserAdmission Nat where
  users := AList.singleton 5 .enabled

/- The token of user 5 is found; every other call succeeds. -/
def found : HostOutcome Nat where
  token := some { sid := 5, sessionID := 1 }

/- Session 1 logs on and its worker gets as far as the launch. -/
def logonRun : List (Threads.Label (HostInput Nat) (HostOutcome Nat)) :=
  .event (.logon 1) :: List.replicate 7 (.run 0 found)

/- The worker is about to have its launch accepted. -/
def launches
    (c : Config (UserHost Nat) (HostAction Nat) (HostTask Nat)
      HostAction.Result)
    (w : HostWorkerId) : Bool :=
  match c.pool[w]? with
  | some (.act (.acceptUserLaunch sid mode session wanted now) _) =>
      decide (sid = 5 ∧ wanted = .session ⟨1, 1, 0⟩) &&
        (c.shared.acceptUserLaunch sid mode session wanted now).1.isOk
  | _ => false

theorem launch_authorised_logon :
    ∃ c, (threads (S := Nat)).system.Reachable c ∧
      c.shared.closed = false ∧
      Grounds c.shared 0 5 (.session ⟨1, 1, 0⟩) := by
  have hRun :
      ((threads (S := Nat)).system.run
          ⟨initial {} enabledUser 0, []⟩ logonRun).map
        (launches · 0) = some true := by
    decide +kernel
  rcases Option.map_eq_some_iff.mp hRun with ⟨c, hc, hLaunch⟩
  have hReach : threads.system.Reachable c :=
    System.reachable_of_run logonRun ⟨⟨{}, enabledUser, 0, rfl⟩, rfl⟩ hc
  refine ⟨c, hReach, ?_⟩
  unfold launches at hLaunch
  split at hLaunch
  · rename_i sid mode session wanted now k hNext
    simp only [Bool.and_eq_true, decide_eq_true_eq] at hLaunch
    rcases hLaunch with ⟨⟨rfl, rfl⟩, hOk⟩
    rcases hResult :
        c.shared.acceptUserLaunch 5 mode session
          (.session ⟨1, 1, 0⟩) now with ⟨answer, h'⟩
    rw [hResult] at hOk
    cases answer with
    | error err => cases hOk
    | ok i =>
        exact (launch_authorised hReach).1 0 5 mode session _ now k i h'
          hNext hResult
  · cases hLaunch

end UserHost

end Logon

end Winunitd
