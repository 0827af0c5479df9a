import Winunitd.UserHost.Authority

/-
  Every user manager process has an owner.

  A process that the launcher has returned stays reachable
  from the table of users until its kill is confirmed, so
  that a user never has two processes that may be alive.  The
  workers of a user are kept apart by the user's gate; the
  invariant says what the table, the instances and the
  process in the hands of a launch have to do with each other.

  Key definitions include:
    * `UserHost.Tracked`, `UserHost.Owned`
    * `UserHost.Keeps`
    * `UserHost.custody`

  Key theorems include:
    * `UserHost.custody_valid`
    * `UserHost.one_owned_process`
-/

------------------------------------------------------------
-- Ownership
------------------------------------------------------------

namespace Winunitd

open Lib

/- The attempt that a goroutine carries out. -/
def HostTask.asAttempt {S : Type} :
    HostTask S → Option (AttemptId × UserStopKey)
| .attempt a key => some (a, key)
| _ => none

namespace UserHost

open HostWorkers

variable {S : Type}
variable [SIDs S]

/- The attempts that are about to get a goroutine. -/
def attemptTasks (h : UserHost S) :
    List (AttemptId × UserStopKey) :=
  h.spawned.filterMap HostTask.asAttempt

/-
  The process is reachable from the table: its user has an
  instance, which holds the process or belongs to the launch
  that the launcher has just returned it to.
-/
def Tracked (h : UserHost S) (p : UserProcId) : Prop :=
  ∃ i, h.bySID.lookup (h.procs p) = some i ∧
    ((h.instances i).proc = some p ∨
      ((h.instances i).proc = none ∧
        h.hist.inHand (h.procs p) = some p))

/- The instance of the user, if any, holds no process. -/
def NoProc (h : UserHost S) (sid : S) : Prop :=
  ∀ i, h.bySID.lookup sid = some i → (h.instances i).proc = none

variable {sid : S}

theorem NoProc.of_entry
    {h : UserHost S}
    {i : InstanceId}
    (hi : h.bySID.lookup sid = some i)
    (hNone : (h.instances i).proc = none) :
    h.NoProc sid := by
  intro j hj
  rw [hi] at hj
  cases hj
  exact hNone

theorem NoProc.confirmed
    {h : UserHost S}
    (hNoProc : h.NoProc sid)
    (i : InstanceId)
    (p : UserProcId)
    (hi : h.bySID.lookup sid = some i)
    (hp : (h.instances i).proc = some p) :
    h.Confirmed p := by
  rw [hNoProc i hi] at hp
  cases hp

structure Owned (h : UserHost S) : Prop where
  listed :
    ∀ sid i, h.bySID.lookup sid = some i →
      i < h.instanceSequence ∧ (h.instances i).sid = sid
  held :
    ∀ sid i p, h.bySID.lookup sid = some i →
      (h.instances i).proc = some p →
        p < h.nextProc ∧ h.procs p = sid
  inHand :
    ∀ sid p, h.hist.inHand sid = some p →
      p < h.nextProc ∧ h.procs p = sid ∧ h.gates sid ≠ none
  tracked : ∀ p < h.nextProc, h.Confirmed p ∨ h.Tracked p
  bounded : Table.size h.bySID ≤ maxTrackedUserManagers
  known :
    ∀ a key, (key, a) ∈ h.pendingStops ∨ (a, key) ∈ h.attemptTasks →
      a < h.nextAttempt ∧ (h.attempts a).key = key
  ended :
    ∀ a p, a < h.nextAttempt → (h.attempts a).key = .user p →
      (h.attempts a).done = some none → h.Confirmed p

/- A process in hand belongs to a user whose gate is held. -/
theorem Owned.inHand_of_free
    {h : UserHost S}
    (hOwned : Owned h)
    (hFree : h.gates sid = none) :
    h.hist.inHand sid = none := by
  cases hHand : h.hist.inHand sid with
  | none => rfl
  | some p => exact absurd hFree (hOwned.inHand sid p hHand).2.2

/- Two processes of one user that are tracked are the same. -/
theorem Tracked.unique
    {h : UserHost S}
    {p q : UserProcId}
    (hp : h.Tracked p)
    (hq : h.Tracked q)
    (hUser : h.procs p = h.procs q) :
    p = q := by
  rcases hp with ⟨i, hi, hpi⟩
  rcases hq with ⟨j, hj, hqj⟩
  rw [hUser, hj] at hi
  cases hi
  rcases hpi with hp | ⟨hNone, hp⟩
  · rcases hqj with hq | ⟨hNone, _⟩
    · rw [hp] at hq
      exact Option.some.inj hq
    · rw [hp] at hNone
      cases hNone
  · rcases hqj with hq | ⟨_, hq⟩
    · rw [hq] at hNone
      cases hNone
    · rw [hUser, hq] at hp
      exact (Option.some.inj hp).symm

variable {p : UserProcId}

/- A user without a process has no process that is tracked. -/
theorem Tracked.of_noProc
    {h : UserHost S}
    (hNoProc : h.NoProc (h.procs p))
    (hHand : h.hist.inHand (h.procs p) = none) :
    ¬ h.Tracked p := by
  rintro ⟨i, hi, hp | ⟨_, hp⟩⟩
  · rw [hNoProc i hi] at hp
    cases hp
  · rw [hHand] at hp
    cases hp

------------------------------------------------------------
-- What Workers Rely On
------------------------------------------------------------

/-
  Whoever holds the gate of a user keeps the user's entry and
  its process; confirmations and attempts stay.
-/
structure Keeps (w : HostWorkerId) (h h' : UserHost S) : Prop where
  gate :
    ∀ sid, h.gates sid = some w →
      h'.gates sid = some w ∧
      h'.bySID.lookup sid = h.bySID.lookup sid ∧
      h'.hist.inHand sid = h.hist.inHand sid ∧
      ∀ i, h.bySID.lookup sid = some i →
        (h'.instances i).proc = (h.instances i).proc
  confirmed : ∀ p, h.Confirmed p → h'.Confirmed p
  killed : ∀ p, (w, p) ∈ h.hist.killed → (w, p) ∈ h'.hist.killed
  attempts :
    h.nextAttempt ≤ h'.nextAttempt ∧
      ∀ a < h.nextAttempt, (h'.attempts a).key = (h.attempts a).key

variable {w : HostWorkerId}

theorem Keeps.trans
    {h h' h'' : UserHost S}
    (a : Keeps w h h')
    (b : Keeps w h' h'') :
    Keeps w h h'' where
  gate := by
    intro sid hGate
    rcases a.gate sid hGate with ⟨hGate', hLook', hHand', hProc'⟩
    rcases b.gate sid hGate' with ⟨hGate'', hLook'', hHand'', hProc''⟩
    refine
      ⟨hGate'', hLook''.trans hLook', hHand''.trans hHand', ?_⟩
    intro i hi
    rw [hProc'' i (hLook'.trans hi), hProc' i hi]
  confirmed := fun p hp => b.confirmed p (a.confirmed p hp)
  killed := fun p hp => b.killed p (a.killed p hp)
  attempts := by
    refine ⟨a.attempts.1.trans b.attempts.1, ?_⟩
    intro i hi
    rw [b.attempts.2 i (lt_of_lt_of_le hi a.attempts.1),
      a.attempts.2 i hi]

/- All that this module speaks about. -/
def estate (h : UserHost S) :
    (Table S InstanceId × (InstanceId → Option UserProcId) ×
      (InstanceId → S) × InstanceId) ×
    ((S → Option HostWorkerId) × (S → Option UserProcId)) ×
    ((UserProcId → S) × UserProcId ×
      List (HostWorkerId × UserProcId) × List UserProcId) ×
    (AttemptId → UserStopAttempt) × AttemptId ×
    List (UserStopKey × AttemptId) × List (AttemptId × UserStopKey) :=
  ((h.bySID, fun i => (h.instances i).proc,
      fun i => (h.instances i).sid, h.instanceSequence),
    (h.gates, h.hist.inHand),
    (h.procs, h.nextProc, h.hist.killed, h.hist.dead),
    h.attempts, h.nextAttempt, h.pendingStops, h.attemptTasks)

/- The step changes nothing of it. -/
structure Same (h h' : UserHost S) : Prop where
  bySID : h'.bySID = h.bySID
  proc : ∀ i, (h'.instances i).proc = (h.instances i).proc
  sid : ∀ i, (h'.instances i).sid = (h.instances i).sid
  instanceSequence : h'.instanceSequence = h.instanceSequence
  gates : h'.gates = h.gates
  inHand : h'.hist.inHand = h.hist.inHand
  procs : h'.procs = h.procs
  nextProc : h'.nextProc = h.nextProc
  killed : h'.hist.killed = h.hist.killed
  dead : h'.hist.dead = h.hist.dead
  attempts : h'.attempts = h.attempts
  nextAttempt : h'.nextAttempt = h.nextAttempt
  pendingStops : h'.pendingStops = h.pendingStops
  tasks : h'.attemptTasks = h.attemptTasks

variable {h h' : UserHost S}

theorem Same.of_estate
    (hSame : h'.estate = h.estate) :
    Same h h' := by
  simp only [estate, Prod.mk.injEq] at hSame
  rcases hSame with
    ⟨⟨hB, hP, hS, hI⟩, ⟨hG, hH⟩, ⟨hQ, hN, hK, hD⟩, hA, hM, hW, hT⟩
  exact
    ⟨hB, congrFun hP, congrFun hS, hI, hG, hH, hQ, hN, hK, hD, hA, hM,
      hW, hT⟩

theorem Same.estate
    (hSame : Same h h') :
    h'.estate = h.estate := by
  simp only [UserHost.estate, hSame.bySID, hSame.proc, hSame.sid,
    hSame.instanceSequence, hSame.gates, hSame.inHand, hSame.procs,
    hSame.nextProc, hSame.killed, hSame.dead, hSame.attempts,
    hSame.nextAttempt, hSame.pendingStops, hSame.tasks]

theorem Same.trans
    {h h' h'' : UserHost S}
    (a : Same h h')
    (b : Same h' h'') :
    Same h h'' :=
  .of_estate (b.estate.trans a.estate)

theorem Same.refl (h : UserHost S) : Same h h := .of_estate rfl

theorem Same.keeps
    (hSame : Same h h')
    (w : HostWorkerId) :
    Keeps w h h' where
  gate := by
    intro sid hGate
    rw [hSame.gates, hSame.bySID, hSame.inHand]
    exact ⟨hGate, rfl, rfl, fun i _ => hSame.proc i⟩
  confirmed := by
    intro p hp
    unfold Confirmed
    rw [hSame.dead]
    exact hp
  killed := by
    intro p hp
    rw [hSame.killed]
    exact hp
  attempts := by
    rw [hSame.nextAttempt, hSame.attempts]
    exact ⟨Nat.le_refl _, fun _ _ => rfl⟩

theorem Same.confirmed
    (hSame : Same h h') :
    h'.Confirmed p ↔ h.Confirmed p := by
  unfold Confirmed
  rw [hSame.dead]

theorem Same.tracked
    (hSame : Same h h') :
    h'.Tracked p ↔ h.Tracked p := by
  unfold Tracked
  rw [hSame.procs]
  simp only [hSame.bySID, hSame.inHand, hSame.proc]

theorem Owned.same
    (hOwned : Owned h)
    (hSame : Same h h') :
    Owned h' where
  listed := by
    intro sid i hi
    rw [hSame.bySID] at hi
    rw [hSame.instanceSequence, hSame.sid]
    exact hOwned.listed sid i hi
  held := by
    intro sid i p hi hp
    rw [hSame.bySID] at hi
    rw [hSame.proc] at hp
    rw [hSame.nextProc, hSame.procs]
    exact hOwned.held sid i p hi hp
  inHand := by
    intro sid p hp
    rw [hSame.inHand] at hp
    rw [hSame.nextProc, hSame.procs, hSame.gates]
    exact hOwned.inHand sid p hp
  tracked := by
    intro p hp
    rw [hSame.nextProc] at hp
    rw [hSame.confirmed, hSame.tracked]
    exact hOwned.tracked p hp
  bounded := by
    rw [hSame.bySID]
    exact hOwned.bounded
  known := by
    intro a key hKnown
    rw [hSame.pendingStops, hSame.tasks] at hKnown
    rw [hSame.nextAttempt, hSame.attempts]
    exact hOwned.known a key hKnown
  ended := by
    intro a p ha hKey hDone
    rw [hSame.nextAttempt] at ha
    rw [hSame.attempts] at hKey hDone
    rw [hSame.confirmed]
    exact hOwned.ended a p ha hKey hDone

/- The table and the processes of the instances stay. -/
def Stays (h h' : UserHost S) : Prop :=
  h'.bySID = h.bySID ∧
    ∀ i, (h'.instances i).proc = (h.instances i).proc

/- An instance that holds a process loses it or its entry only
   once the kill of that process is confirmed. -/
def Releases (h h' : UserHost S) : Prop :=
  ∀ sid i p, h.bySID.lookup sid = some i →
    (h.instances i).proc = some p →
      (h'.bySID.lookup sid = some i ∧ (h'.instances i).proc = some p) ∨
        h.Confirmed p

theorem Same.stays
    (hSame : Same h h') :
    Stays h h' :=
  ⟨hSame.bySID, hSame.proc⟩

theorem Stays.releases
    (hStays : Stays h h') :
    Releases h h' := by
  intro sid i p hi hp
  rw [hStays.1, hStays.2]
  exact Or.inl ⟨hi, hp⟩

/- The step harms no worker and no entry. -/
structure Fair (h h' : UserHost S) : Prop where
  owned : Owned h'
  keeps : ∀ v, Keeps v h h'
  stays : Stays h h'

theorem Owned.fair
    (hOwned : Owned h)
    (hSame : Same h h') :
    Fair h h' :=
  ⟨hOwned.same hSame, hSame.keeps, hSame.stays⟩

/- The step harms no other worker, and no process is lost. -/
structure Custodial
    (w : HostWorkerId)
    (h h' : UserHost S) : Prop where
  owned : Owned h'
  keeps : ∀ v, v ≠ w → Keeps v h h'
  releases : Releases h h'

theorem Fair.custodial
    (hFair : Fair h h') :
    Custodial w h h' :=
  ⟨hFair.owned, fun v _ => hFair.keeps v, hFair.stays.releases⟩

------------------------------------------------------------
-- Decisions About Other Things
------------------------------------------------------------

section Aside

variable (h : UserHost S)
variable {f : UserInstance S → UserInstance S}

/- What a change of an instance leaves alone. -/
theorem withInstance_apply
    {i : InstanceId}
    {α : Type}
    {g : UserInstance S → α}
    (hf : ∀ inst, g (f inst) = g inst)
    (j : InstanceId) :
    g ((h.withInstance i f).instances j) = g (h.instances j) := by
  by_cases hj : j = i
  · subst hj
    simp [withInstance, hf]
  · simp [withInstance, hj]

/- A change of an instance that leaves its process alone. -/
theorem withInstance_same
    (i : InstanceId)
    (hProc : ∀ inst, (f inst).proc = inst.proc)
    (hSid : ∀ inst, (f inst).sid = inst.sid) :
    Same h (h.withInstance i f) :=
  { (Same.refl h) with
    proc := withInstance_apply h hProc
    sid := withInstance_apply h hSid }

theorem spawn_same
    {t : HostTask S}
    (ht : t.asAttempt = none) :
    Same h (h.spawn t) := by
  refine { (Same.refl h) with tasks := ?_ }
  simp [attemptTasks, spawn, List.filterMap_append, ht]

theorem acceptUserWorkClassLocked_same (cls : UserWorkClass) :
    Same h (h.acceptUserWorkClassLocked cls).2 := by
  unfold acceptUserWorkClassLocked
  repeat' split
  all_goals exact .of_estate rfl

theorem acceptSessionRequest_same (session : Nat) :
    Same h (h.acceptSessionRequest session).2 := by
  have hWork := acceptUserWorkClassLocked_same h .admission
  unfold acceptSessionRequest
  dsimp only
  repeat' split
  case h_1 =>
    rename_i err h₁ hRefused
    rw [hRefused] at hWork
    exact hWork.trans (.of_estate rfl)
  case h_2 =>
    rename_i work h₁ hAccepted
    rw [hAccepted] at hWork
    exact hWork.trans (.of_estate rfl)
  all_goals exact .of_estate rfl

theorem reserveSessions_same
    (since : Nat)
    (ids : List Nat)
    (acc : List (Nat × Nat) × UserHost S) :
    Same acc.2 (ids.foldl (reserveSession since) acc).2 := by
  refine List.foldlRecOn
    (motive := fun b : _ × UserHost S => Same acc.2 b.2) ids _
    (.of_estate rfl) ?_
  intro b hb id _
  refine hb.trans ?_
  unfold reserveSession
  split
  · exact .of_estate rfl
  · exact .of_estate rfl

theorem acceptUserSessions_same
    (w : HostWorkerId)
    (ids : List Nat)
    (epoch revision : Nat) :
    Same h (h.acceptUserSessions w ids epoch revision).2 := by
  unfold acceptUserSessions
  split
  · exact .of_estate rfl
  · split
    · exact .of_estate rfl
    · refine Same.trans ?_
        (Same.trans (reserveSessions_same (h.hist.began w) ids ([], _))
          (.of_estate rfl))
      exact .of_estate rfl

theorem acceptAdmissionPolicy_same (p : UserAdmission S) :
    Same h (h.acceptAdmissionPolicy p).2 := by
  unfold acceptAdmissionPolicy
  dsimp only
  repeat' split
  all_goals exact .of_estate rfl

theorem acceptAdmissionRevocation_same (sid : S) :
    Same h (h.acceptAdmissionRevocation sid).2 := by
  unfold acceptAdmissionRevocation
  dsimp only
  split
  all_goals exact .of_estate rfl

theorem observeUserAlive_same
    (sid : S)
    (i : InstanceId)
    (proc : UserProcId)
    (sampled : Int) :
    Same h (h.observeUserAlive sid i proc sampled) := by
  unfold observeUserAlive
  split
  · exact .of_estate rfl
  · split
    · exact .of_estate rfl
    · exact withInstance_same h i (fun _ => rfl) (fun _ => rfl)

theorem acceptUserCleanup_same (i : InstanceId) :
    Same h (h.acceptUserCleanup i).2 := by
  show Same h
    (h.withInstance i (fun inst => { inst with uncertain := true }))
  exact withInstance_same h i (fun _ => rfl) (fun _ => rfl)

theorem queueIdleCleanup_same (sid : S) :
    Same h (h.queueIdleCleanup sid) := by
  unfold queueIdleCleanup
  split
  · exact .of_estate rfl
  · exact spawn_same h rfl

theorem beginPass_same (pass : AttemptId) :
    Same h (h.beginPass pass).2 := by
  refine { (Same.refl h) with tasks := ?_ }
  have hNone :
      ∀ sids : List S,
        (sids.map (fun sid => HostTask.shutdownStop pass sid)).filterMap
          HostTask.asAttempt = [] := by
    intro sids
    simp [HostTask.asAttempt]
  simp [attemptTasks, beginPass, acceptUserShutdown,
    sealShutdownLocked, List.filterMap_append, hNone]

end Aside

------------------------------------------------------------
-- Gates, Attempts And Kills
------------------------------------------------------------

section Gates

variable {h : UserHost S}
variable {w : HostWorkerId}

variable {sid : S}

theorem takeGate_fair
    (hOwned : Owned h)
    (hFree : h.gates sid = none) :
    Fair h (h.takeGate w sid) := by
  refine ⟨{ hOwned with inHand := ?_ }, fun v =>
    { (Same.refl h).keeps v with gate := ?_ }, rfl, fun _ => rfl⟩
  · intro other p hp
    rcases hOwned.inHand other p hp with ⟨hLt, hUser, hGate⟩
    refine ⟨hLt, hUser, ?_⟩
    by_cases hEq : other = sid
    · subst hEq
      simp [takeGate]
    · simpa [takeGate, hEq] using hGate
  · intro other hGate
    have hNe : other ≠ sid := by
      rintro rfl
      rw [hFree] at hGate
      cases hGate
    refine ⟨?_, rfl, rfl, fun _ _ => rfl⟩
    simpa [takeGate, hNe] using hGate

theorem unlock_owned
    (hOwned : Owned h)
    (hHand : h.hist.inHand sid = none) :
    Owned (h.unlock sid) := by
  refine { hOwned with inHand := ?_ }
  intro other p hp
  rcases hOwned.inHand other p hp with ⟨hLt, hUser, hGate⟩
  refine ⟨hLt, hUser, ?_⟩
  have hNe : other ≠ sid := by
    rintro rfl
    have hSome : h.hist.inHand other = some p := hp
    rw [hHand] at hSome
    cases hSome
  simpa [unlock, hNe] using hGate

theorem unlock_keeps
    (hGate : h.gates sid = some w)
    {v : HostWorkerId}
    (hv : v ≠ w) :
    Keeps v h (h.unlock sid) := by
  refine { (Same.refl h).keeps v with gate := ?_ }
  intro other hOther
  have hNe : other ≠ sid := by
    rintro rfl
    rw [hGate] at hOther
    exact hv (Option.some.inj hOther).symm
  refine ⟨?_, rfl, rfl, fun _ _ => rfl⟩
  simpa [unlock, hNe] using hOther

/- A new attempt has no result yet. -/
theorem joinStop_fair
    (hOwned : Owned h)
    (key : UserStopKey) :
    Fair h (h.joinStop key).2 := by
  unfold joinStop
  split
  · exact hOwned.fair (.refl h)
  · refine ⟨{ hOwned with known := ?_, ended := ?_ }, fun v =>
      { (Same.refl h).keeps v with attempts := ⟨Nat.le_succ _, ?_⟩ },
      rfl, fun _ => rfl⟩
    · intro a key' hKnown
      have hCases :
          (a = h.nextAttempt ∧ key' = key) ∨
            ((key', a) ∈ h.pendingStops ∨
              (a, key') ∈ h.attemptTasks) := by
        simp only [spawn, attemptTasks, List.filterMap_append,
          List.mem_cons, List.mem_append, Prod.mk.injEq] at hKnown ⊢
        rcases hKnown with (⟨hk, ha⟩ | hOld) | (hOld | hNew)
        · exact Or.inl ⟨ha, hk⟩
        · exact Or.inr (Or.inl hOld)
        · exact Or.inr (Or.inr hOld)
        · simp only [HostTask.asAttempt, List.filterMap_cons,
            List.filterMap_nil, List.mem_singleton,
            Prod.mk.injEq] at hNew
          exact Or.inl hNew
      rcases hCases with ⟨rfl, rfl⟩ | hOld
      · simp [spawn]
      · rcases hOwned.known a key' hOld with ⟨ha, hKey⟩
        have hNe : a ≠ h.nextAttempt := Nat.ne_of_lt ha
        refine ⟨Nat.lt_succ_of_lt ha, ?_⟩
        simpa [spawn, hNe] using hKey
    · intro a p ha hKey hDone
      by_cases hNew : a = h.nextAttempt
      · subst hNew
        simp [spawn] at hDone
      · have hOld : a < h.nextAttempt :=
          lt_of_le_of_ne (Nat.lt_succ_iff.mp ha) hNew
        simp only [spawn, Function.update_of_ne hNew] at hKey hDone
        exact hOwned.ended a p hOld hKey hDone
    · intro a ha
      have hNe : a ≠ h.nextAttempt := Nat.ne_of_lt ha
      simp [spawn, hNe]

theorem dropAttempt_fair
    (hOwned : Owned h)
    (a : AttemptId) :
    Fair h (h.dropAttempt a) := by
  refine ⟨{ hOwned with known := ?_ }, fun v =>
    { (Same.refl h).keeps v with }, rfl, fun _ => rfl⟩
  intro b key hKnown
  apply hOwned.known b key
  rcases hKnown with hPending | hTask
  · exact Or.inl (List.mem_of_mem_filter hPending)
  · exact Or.inr hTask

theorem closeAttempt_owned
    (hOwned : Owned h)
    {a : AttemptId}
    {err : Option String}
    (hResult :
      err = none → ∀ p, (h.attempts a).key = .user p →
        h.Confirmed p) :
    Owned (h.closeAttempt a err) := by
  refine { hOwned with known := ?_, ended := ?_ }
  · intro b key hKnown
    rcases hOwned.known b key hKnown with ⟨hb, hKey⟩
    refine ⟨hb, ?_⟩
    by_cases hEq : b = a
    · subst hEq
      simpa [closeAttempt] using hKey
    · simpa [closeAttempt, hEq] using hKey
  · intro b p hb hKey hDone
    by_cases hEq : b = a
    · subst hEq
      simp only [closeAttempt, Function.update_self, Option.some.injEq]
        at hKey hDone
      exact hResult hDone p hKey
    · simp only [closeAttempt, Function.update_of_ne hEq] at hKey hDone
      exact hOwned.ended b p hb hKey hDone

theorem closeAttempt_keeps
    (a : AttemptId)
    (err : Option String)
    (v : HostWorkerId) :
    Keeps v h (h.closeAttempt a err) := by
  refine
    { (Same.refl h).keeps v with attempts := ?_ }
  refine ⟨Nat.le_refl _, ?_⟩
  intro b _
  by_cases hEq : b = a
  · subst hEq
    simp [closeAttempt]
  · simp [closeAttempt, hEq]

theorem killProcess_fair
    (hOwned : Owned h)
    (p : UserProcId)
    (o : HostOutcome S) :
    Fair h (h.killProcess w p o).2 := by
  unfold killProcess
  split
  · exact hOwned.fair (.refl h)
  · refine ⟨{ hOwned with }, fun v =>
      { (Same.refl h).keeps v with killed := ?_ }, rfl, fun _ => rfl⟩
    intro q hq
    exact List.mem_cons_of_mem _ hq

theorem processAlive_fair
    (hOwned : Owned h)
    (p : UserProcId)
    (o : HostOutcome S) :
    Fair h (h.processAlive w p o).2 := by
  unfold processAlive
  split
  · refine ⟨{ hOwned with tracked := ?_, ended := ?_ }, fun v =>
      { (Same.refl h).keeps v with confirmed := ?_ }, rfl, fun _ => rfl⟩
    · intro q hq
      exact (hOwned.tracked q hq).imp (List.mem_cons_of_mem _) id
    · intro a q ha hKey hDone
      exact List.mem_cons_of_mem _ (hOwned.ended a q ha hKey hDone)
    · intro q hq
      exact List.mem_cons_of_mem _ hq
  · exact hOwned.fair (.refl h)

end Gates

------------------------------------------------------------
-- Launches And Cleanup
------------------------------------------------------------

/- The worker has the gate and no process in its hands. -/
def Holding
    (w : HostWorkerId)
    (sid : S)
    (h : UserHost S) : Prop :=
  h.gates sid = some w ∧ h.hist.inHand sid = none

section Gated

variable {h : UserHost S}
variable {w : HostWorkerId}
variable {sid : S}

/- The step is about one user and lets everything else be. -/
structure Others (sid : S) (h h' : UserHost S) : Prop where
  gates : h'.gates = h.gates
  look :
    ∀ other, other ≠ sid →
      h'.bySID.lookup other = h.bySID.lookup other
  inHand :
    ∀ other, other ≠ sid →
      h'.hist.inHand other = h.hist.inHand other
  proc :
    ∀ other i, other ≠ sid → h.bySID.lookup other = some i →
      (h'.instances i).proc = (h.instances i).proc
  rest :
    h'.hist.dead = h.hist.dead ∧ h'.hist.killed = h.hist.killed ∧
      h'.nextAttempt = h.nextAttempt ∧ h'.attempts = h.attempts

variable {h' : UserHost S}

/- Nobody else's entry is touched by the holder of a gate. -/
theorem Others.keeps
    {v : HostWorkerId}
    (hOthers : Others sid h h')
    (hGate : h.gates sid = some w)
    (hv : v ≠ w) :
    Keeps v h h' where
  gate := by
    intro other hOther
    have hNe : other ≠ sid := by
      rintro rfl
      rw [hGate] at hOther
      exact hv (Option.some.inj hOther).symm
    refine ⟨?_, hOthers.look other hNe, hOthers.inHand other hNe, ?_⟩
    · rw [hOthers.gates]
      exact hOther
    · exact fun i hi => hOthers.proc other i hNe hi
  confirmed := by
    intro p hp
    unfold Confirmed
    rw [hOthers.rest.1]
    exact hp
  killed := by
    intro p hp
    rw [hOthers.rest.2.1]
    exact hp
  attempts := by
    rw [hOthers.rest.2.2.1, hOthers.rest.2.2.2]
    exact ⟨Nat.le_refl _, fun _ _ => rfl⟩

/- It remains to see what becomes of the user's own process. -/
theorem Others.custodial
    (hGate : h.gates sid = some w)
    (hOthers : Others sid h h')
    (hOwned : Owned h')
    (hOwn :
      ∀ i p, h.bySID.lookup sid = some i →
        (h.instances i).proc = some p → h.Confirmed p) :
    Custodial w h h' := by
  refine ⟨hOwned, fun v hv => hOthers.keeps hGate hv, ?_⟩
  intro other i p hi hp
  by_cases hEq : other = sid
  · subst hEq
    exact Or.inr (hOwn i p hi hp)
  · rw [hOthers.look other hEq, hOthers.proc other i hEq hi]
    exact Or.inl ⟨hi, hp⟩

/- The entries of other users stand for other instances. -/
theorem Owned.instance_ne
    (hOwned : Owned h)
    {other : S}
    {i j : InstanceId}
    (hi : h.bySID.lookup sid = some i)
    (hj : h.bySID.lookup other = some j)
    (hNe : other ≠ sid) :
    j ≠ i := by
  rintro rfl
  exact hNe
    ((hOwned.listed other j hj).2.symm.trans (hOwned.listed sid j hi).2)

/- Beside what a step does to the others, the invariant is about
   the user's own entry and processes. -/
theorem Owned.others
    (hOwned : Owned h)
    (hOthers : Others sid h h')
    (hSids :
      ∀ j < h.instanceSequence,
        (h'.instances j).sid = (h.instances j).sid)
    (hSequence : h.instanceSequence ≤ h'.instanceSequence)
    (hProcs : ∀ p < h.nextProc, h'.procs p = h.procs p)
    (hNextProc : h.nextProc ≤ h'.nextProc)
    (hStops :
      h'.pendingStops = h.pendingStops ∧
        h'.attemptTasks = h.attemptTasks)
    (hBounded : Table.size h'.bySID ≤ maxTrackedUserManagers)
    (hListed :
      ∀ i, h'.bySID.lookup sid = some i →
        i < h'.instanceSequence ∧ (h'.instances i).sid = sid)
    (hHeld :
      ∀ i p, h'.bySID.lookup sid = some i →
        (h'.instances i).proc = some p →
          p < h'.nextProc ∧ h'.procs p = sid)
    (hHand :
      ∀ p, h'.hist.inHand sid = some p →
        p < h'.nextProc ∧ h'.procs p = sid ∧ h.gates sid ≠ none)
    (hTracked :
      ∀ p < h'.nextProc, h.nextProc ≤ p ∨ h.procs p = sid →
        h'.Confirmed p ∨ h'.Tracked p) :
    Owned h' where
  listed := by
    intro other j hj
    by_cases hEq : other = sid
    · subst hEq
      exact hListed j hj
    · rw [hOthers.look other hEq] at hj
      have hOld := hOwned.listed other j hj
      rw [hSids j hOld.1]
      exact ⟨lt_of_lt_of_le hOld.1 hSequence, hOld.2⟩
  held := by
    intro other j p hj hp
    by_cases hEq : other = sid
    · subst hEq
      exact hHeld j p hj hp
    · rw [hOthers.look other hEq] at hj
      rw [hOthers.proc other j hEq hj] at hp
      have hOld := hOwned.held other j p hj hp
      rw [hProcs p hOld.1]
      exact ⟨lt_of_lt_of_le hOld.1 hNextProc, hOld.2⟩
  inHand := by
    intro other p hp
    rw [hOthers.gates]
    by_cases hEq : other = sid
    · subst hEq
      exact hHand p hp
    · rw [hOthers.inHand other hEq] at hp
      have hOld := hOwned.inHand other p hp
      rw [hProcs p hOld.1]
      exact ⟨lt_of_lt_of_le hOld.1 hNextProc, hOld.2⟩
  tracked := by
    intro p hp
    by_cases hOwn : h.nextProc ≤ p ∨ h.procs p = sid
    · exact hTracked p hp hOwn
    · rw [not_or, Nat.not_le] at hOwn
      unfold Confirmed Tracked
      rw [hProcs p hOwn.1, hOthers.rest.1, hOthers.look _ hOwn.2,
        hOthers.inHand _ hOwn.2]
      refine (hOwned.tracked p hOwn.1).imp id ?_
      rintro ⟨j, hj, hOwner⟩
      refine ⟨j, hj, ?_⟩
      rw [hOthers.proc _ j hOwn.2 hj]
      exact hOwner
  bounded := hBounded
  known := by
    intro a key hKnown
    rw [hStops.1, hStops.2] at hKnown
    rw [hOthers.rest.2.2.1, hOthers.rest.2.2.2]
    exact hOwned.known a key hKnown
  ended := by
    intro a p ha hKey hDone
    rw [hOthers.rest.2.2.1] at ha
    rw [hOthers.rest.2.2.2] at hKey hDone
    unfold Confirmed
    rw [hOthers.rest.1]
    exact hOwned.ended a p ha hKey hDone

/- The user is left without a process. -/
theorem Owned.cleared
    (hOwned : Owned h)
    (hOthers : Others sid h h')
    (hSids :
      ∀ j < h.instanceSequence,
        (h'.instances j).sid = (h.instances j).sid)
    (hSequence : h.instanceSequence ≤ h'.instanceSequence)
    (hProcs : h'.procs = h.procs ∧ h'.nextProc = h.nextProc)
    (hStops :
      h'.pendingStops = h.pendingStops ∧
        h'.attemptTasks = h.attemptTasks)
    (hBounded : Table.size h'.bySID ≤ maxTrackedUserManagers)
    (hListed :
      ∀ i, h'.bySID.lookup sid = some i →
        i < h'.instanceSequence ∧ (h'.instances i).sid = sid)
    (hNoProc : h'.NoProc sid)
    (hInHand : h'.hist.inHand = h.hist.inHand)
    (hHolding : Holding w sid h)
    (hOwn :
      ∀ i p, h.bySID.lookup sid = some i →
        (h.instances i).proc = some p → h.Confirmed p) :
    Custodial w h h' := by
  refine hOthers.custodial hHolding.1 ?_ hOwn
  refine hOwned.others hOthers hSids hSequence (fun p _ => ?_)
    hProcs.2.ge hStops hBounded hListed ?_ ?_ ?_
  · rw [hProcs.1]
  · intro j p hj hp
    rw [hNoProc j hj] at hp
    cases hp
  · intro p hp
    rw [hInHand, hHolding.2] at hp
    cases hp
  · intro p hp hUser
    rw [hProcs.2] at hp
    have hUser := hUser.resolve_left (Nat.not_le.mpr hp)
    unfold Confirmed
    rw [hOthers.rest.1]
    refine Or.inl ((hOwned.tracked p hp).elim id ?_)
    rintro ⟨i, hi, hOwner⟩
    rw [hUser] at hi hOwner
    rw [hHolding.2] at hOwner
    exact hOwn i p hi (hOwner.elim id (nomatch ·.2))

theorem track_others
    (hOwned : Owned h)
    (inst : UserInstance S) :
    Others inst.sid h (h.track inst).2 := by
  refine ⟨rfl, ?_, fun _ _ => rfl, ?_, ⟨rfl, rfl, rfl, rfl⟩⟩
  · intro other hNe
    exact AList.lookup_insert_ne hNe
  · intro other i _ hi
    have hLt := (hOwned.listed other i hi).1
    exact congrArg UserInstance.proc
      (Function.update_of_ne (Nat.ne_of_lt hLt) _ _)

/- A new instance takes the place of one without a process. -/
theorem track_custodial
    (hOwned : Owned h)
    {inst : UserInstance S}
    (hHolding : Holding w inst.sid h)
    (hNoProc : h.NoProc inst.sid)
    (hEmpty : inst.proc = none)
    (hRoom :
      inst.sid ∈ h.bySID ∨
        Table.size h.bySID < maxTrackedUserManagers) :
    Custodial w h (h.track inst).2 := by
  have hLook :
      (h.track inst).2.bySID.lookup inst.sid =
        some h.instanceSequence :=
    AList.lookup_insert _
  have hInst : (h.track inst).2.instances h.instanceSequence = inst :=
    Function.update_self _ _ _
  refine hOwned.cleared (track_others hOwned inst) ?_ (Nat.le_succ _)
    ⟨rfl, rfl⟩ ⟨rfl, rfl⟩ ?_ ?_
    (.of_entry hLook ((congrArg UserInstance.proc hInst).trans hEmpty))
    rfl hHolding hNoProc.confirmed
  · intro j hj
    exact congrArg UserInstance.sid
      (Function.update_of_ne (Nat.ne_of_lt hj) _ _)
  · show Table.size (h.bySID.insert inst.sid h.instanceSequence) ≤ _
    rcases hRoom with hMem | hLess
    · rw [Table.size_insert_mem _ hMem]
      exact hOwned.bounded
    · exact (Table.size_insert_le _ _ _).trans hLess
  · intro i hi
    rw [hLook] at hi
    cases hi
    rw [hInst]
    exact ⟨Nat.lt_succ_self _, rfl⟩

theorem acceptUserLaunch_cases
    (h : UserHost S)
    (sid : S)
    (mode : String)
    (session : Nat)
    (wanted : Wanted S)
    (now : Int) :
    ((∃ err, (h.acceptUserLaunch sid mode session wanted now).1 =
        .error err) ∧
      (h.acceptUserLaunch sid mode session wanted now).2 = h) ∨
    (∃ inst : UserInstance S,
      inst.sid = sid ∧ inst.proc = none ∧
      (sid ∈ h.bySID ∨
        Table.size h.bySID < maxTrackedUserManagers) ∧
      h.acceptUserLaunch sid mode session wanted now =
        (.ok h.instanceSequence, (h.track inst).2)) := by
  unfold acceptUserLaunch
  split
  · exact Or.inl ⟨⟨_, rfl⟩, rfl⟩
  · split
    · exact Or.inl ⟨⟨_, rfl⟩, rfl⟩
    · split
      · exact Or.inl ⟨⟨_, rfl⟩, rfl⟩
      · rename_i hRoom
        split
        · exact Or.inl ⟨⟨_, rfl⟩, rfl⟩
        · refine Or.inr
            ⟨h.newUserInstanceLocked sid mode session
              (userRecoveryDelay (h.instanceOf sid)) now, rfl, rfl, ?_,
              rfl⟩
          rw [not_and_or, not_not, not_le] at hRoom
          exact hRoom

theorem recordLingerTokenFailure_cases
    (h : UserHost S)
    (sid : S)
    (revision : Nat)
    (message : String)
    (now : Int) :
    h.recordLingerTokenFailure sid revision message now = h ∨
    (∃ inst : UserInstance S,
      inst.sid = sid ∧ inst.proc = none ∧ h.NoProc sid ∧
      (sid ∈ h.bySID ∨
        Table.size h.bySID < maxTrackedUserManagers) ∧
      h.recordLingerTokenFailure sid revision message now =
        (h.track inst).2) := by
  unfold recordLingerTokenFailure
  split
  · exact Or.inl rfl
  · split
    · exact Or.inl rfl
    · rename_i hRoom
      split
      · exact Or.inl rfl
      · rename_i hPrevious
        refine Or.inr ⟨_, rfl, rfl, ?_, ?_, rfl⟩
        · intro i hi
          simp only [instanceOf, hi, Option.map_some, Option.any_some,
            Bool.or_eq_true, not_or, Bool.not_eq_true,
            Option.isSome_eq_false_iff, Option.isNone_iff_eq_none]
            at hPrevious
          exact hPrevious.1
        · rw [not_and_or, not_not, not_le] at hRoom
          exact hRoom

variable {i : InstanceId}

/- The launcher returns a process to the launch of its user. -/
theorem startProcess_custodial
    (hOwned : Owned h)
    (hHolding : Holding w sid h)
    (hi : h.bySID.lookup sid = some i)
    (hNone : (h.instances i).proc = none)
    (o : HostOutcome S) :
    Custodial w h (h.startProcess sid o).2 := by
  have hNoProc : h.NoProc sid := .of_entry hi hNone
  unfold startProcess
  split
  · have hOthers : Others sid h
        { h with
          nextProc := h.nextProc + 1
          procs := Function.update h.procs h.nextProc sid
          hist :=
            { h.hist with
              inHand :=
                Function.update h.hist.inHand sid
                  (some h.nextProc) } } :=
      ⟨rfl, fun _ _ => rfl, fun _ hNe => Function.update_of_ne hNe _ _,
        fun _ _ _ _ => rfl, rfl, rfl, rfl, rfl⟩
    refine hOthers.custodial hHolding.1 ?_ hNoProc.confirmed
    refine hOwned.others hOthers (fun _ _ => rfl) (Nat.le_refl _) ?_
      (Nat.le_succ _) ⟨rfl, rfl⟩ hOwned.bounded (hOwned.listed sid) ?_
      ?_ ?_
    · intro p hp
      exact Function.update_of_ne (Nat.ne_of_lt hp) _ _
    · intro j p hj hp
      exact nomatch (hNoProc j hj).symm.trans hp
    · intro p hp
      have hIs : h.nextProc = p := by simpa using hp
      subst hIs
      refine ⟨Nat.lt_succ_self _, Function.update_self _ _ _, ?_⟩
      rw [hHolding.1]
      exact nofun
    · intro p hp hOwn
      rcases Nat.lt_succ_iff_lt_or_eq.mp hp with hLt | rfl
      · have hUser := hOwn.resolve_left (Nat.not_le.mpr hLt)
        refine (hOwned.tracked p hLt).imp id ?_
        intro hTracked
        subst hUser
        exact absurd hTracked (Tracked.of_noProc hNoProc hHolding.2)
      · refine Or.inr ⟨i, ?_, Or.inr ⟨hNone, ?_⟩⟩
        · exact
            (congrArg h.bySID.lookup (Function.update_self _ _ _)).trans
              hi
        · simp only [Function.update_self]
  · exact (hOwned.fair (.refl h)).custodial

theorem applyUserLaunch_others
    (hOwned : Owned h)
    (hi : h.bySID.lookup sid = some i)
    (proc : Option UserProcId)
    (err : Option String)
    (wanted : Wanted S)
    (now : Int) :
    Others sid h (h.applyUserLaunch sid i proc err wanted now).2 := by
  refine ⟨rfl, ?_, ?_, ?_, ⟨rfl, rfl, rfl, rfl⟩⟩
  · intro other hNe
    unfold applyUserLaunch
    dsimp only
    split
    · exact AList.lookup_erase_ne hNe
    · rfl
  · intro other hNe
    exact Function.update_of_ne hNe _ _
  · intro other j hNe hj
    have hIndex := hOwned.instance_ne hi hj hNe
    simp [applyUserLaunch, withInstance, hIndex]

/- The process of a launch is stored with its instance. -/
theorem applyUserLaunch_owned
    (hOwned : Owned h)
    {proc : Option UserProcId}
    (hi : h.bySID.lookup sid = some i)
    (hNone : (h.instances i).proc = none)
    (hHand : h.hist.inHand sid = proc)
    (err : Option String)
    (wanted : Wanted S)
    (now : Int) :
    Owned (h.applyUserLaunch sid i proc err wanted now).2 := by
  have hOthers := applyUserLaunch_others hOwned hi proc err wanted now
  have hSids :
      ∀ j, ((h.applyUserLaunch sid i proc err wanted now).2.instances
        j).sid = (h.instances j).sid := by
    intro j
    unfold applyUserLaunch
    dsimp only
    exact withInstance_apply h (g := UserInstance.sid) (by simp) j
  have hProc :
      ((h.applyUserLaunch sid i proc err wanted now).2.instances
        i).proc = proc := by
    simp [applyUserLaunch, withInstance]
  -- the entry stays, or goes without a process
  have hEntry :
      (h.applyUserLaunch sid i proc err wanted now).2.bySID = h.bySID ∨
        proc = none ∧
          (h.applyUserLaunch sid i proc err wanted now).2.bySID =
            h.bySID.erase sid := by
    unfold applyUserLaunch
    dsimp only
    split
    · rename_i hErase
      simp only [Bool.and_eq_true, Option.isNone_iff_eq_none] at hErase
      exact Or.inr ⟨hErase.1.1, rfl⟩
    · exact Or.inl rfl
  have hBack :
      ∀ j, (h.applyUserLaunch sid i proc err wanted now).2.bySID.lookup
        sid = some j → j = i := by
    intro j hj
    rcases hEntry with hSame | ⟨_, hErased⟩
    · rw [hSame, hi] at hj
      exact (Option.some.inj hj).symm
    · simp [hErased] at hj
  refine hOwned.others hOthers (fun j _ => hSids j) (Nat.le_refl _)
    (fun _ _ => rfl) (Nat.le_refl _) ⟨rfl, rfl⟩ ?_ ?_ ?_ ?_ ?_
  · rcases hEntry with hSame | ⟨_, hErased⟩
    · rw [hSame]
      exact hOwned.bounded
    · rw [hErased]
      exact (Table.size_erase_le _ _).trans hOwned.bounded
  · intro j hj
    rw [hSids, hBack j hj]
    exact hOwned.listed sid i hi
  · intro j p hj hp
    rw [hBack j hj, hProc] at hp
    have hOld := hOwned.inHand sid p (hHand.trans hp)
    exact ⟨hOld.1, hOld.2.1⟩
  · intro p hp
    simp [applyUserLaunch] at hp
  · intro p hp hOwn
    have hUser := hOwn.resolve_left (Nat.not_le.mpr hp)
    refine (hOwned.tracked p hp).imp id ?_
    rintro ⟨j, hj, hOwner⟩
    rw [hUser] at hj hOwner
    rw [NoProc.of_entry hi hNone j hj, hHand] at hOwner
    have hSome : proc = some p := hOwner.elim (nomatch ·) (·.2)
    refine ⟨i, ?_, Or.inl (hProc.trans hSome)⟩
    rcases hEntry with hSame | ⟨hEmpty, _⟩
    · rw [hSame]
      exact (congrArg h.bySID.lookup hUser).trans hi
    · rw [hEmpty] at hSome
      cases hSome

/- A cleanup without an error takes the process or the entry. -/
theorem applyUserCleanup_cases
    (h : UserHost S)
    (sid : S)
    (i : InstanceId)
    (err : Option String)
    (retainRecovery : Bool) :
    Same h (h.applyUserCleanup sid i err retainRecovery) ∧
        (err = none → h.bySID.lookup sid ≠ some i) ∨
      err = none ∧ h.bySID.lookup sid = some i ∧
        ((∃ f : UserInstance S → UserInstance S,
          (∀ inst, (f inst).sid = inst.sid) ∧
            (∀ inst, (f inst).proc = none) ∧
            h.applyUserCleanup sid i err retainRecovery =
              h.withInstance i f) ∨
          h.applyUserCleanup sid i err retainRecovery =
            { h with bySID := h.bySID.erase sid }) := by
  unfold applyUserCleanup
  split
  · rename_i hLook
    exact Or.inl ⟨.refl h, fun _ => hLook⟩
  · rename_i hLook
    cases err with
    | some message =>
        exact Or.inl
          ⟨withInstance_same h i (fun _ => rfl) (fun _ => rfl), nofun⟩
    | none =>
        refine Or.inr ⟨rfl, not_not.mp hLook, ?_⟩
        dsimp only
        split
        · refine Or.inl ⟨_, ?_, ?_, rfl⟩
          · exact fun _ => rfl
          · exact fun _ => rfl
        · exact Or.inr rfl

/- The cleanup of an entry whose process is confirmed dead. -/
theorem applyUserCleanup_custodial
    (hOwned : Owned h)
    {err : Option String}
    (hHolding : Holding w sid h)
    (hGone :
      err = none → h.bySID.lookup sid = some i →
        ∀ p, (h.instances i).proc = some p → h.Confirmed p)
    (retainRecovery : Bool) :
    Custodial w h (h.applyUserCleanup sid i err retainRecovery) := by
  rcases applyUserCleanup_cases h sid i err retainRecovery with
    ⟨hSame, _⟩ | ⟨hNone, hi, hCases⟩
  · exact (hOwned.fair hSame).custodial
  have hOwn :
      ∀ j p, h.bySID.lookup sid = some j →
        (h.instances j).proc = some p → h.Confirmed p := by
    intro j p hj hp
    rw [hi] at hj
    cases hj
    exact hGone hNone hi p hp
  rcases hCases with ⟨f, hSid, hProc, hEq⟩ | hEq
  · rw [hEq]
    have hSids := withInstance_apply h (i := i) hSid
    refine hOwned.cleared
      ⟨rfl, fun _ _ => rfl, fun _ _ => rfl, ?_, rfl, rfl, rfl, rfl⟩
      (fun j _ => hSids j) (Nat.le_refl _) ⟨rfl, rfl⟩ ⟨rfl, rfl⟩
      hOwned.bounded ?_ (.of_entry hi (by simp [withInstance, hProc]))
      rfl hHolding hOwn
    · intro other j hNe hj
      have hIndex := hOwned.instance_ne hi hj hNe
      simp [withInstance, hIndex]
    · intro j hj
      rw [hSids]
      exact hOwned.listed sid j hj
  · rw [hEq]
    exact hOwned.cleared
      ⟨rfl, fun _ hNe => AList.lookup_erase_ne hNe, fun _ _ => rfl,
        fun _ _ _ _ => rfl, rfl, rfl, rfl, rfl⟩
      (fun _ _ => rfl) (Nat.le_refl _) ⟨rfl, rfl⟩ ⟨rfl, rfl⟩
      ((Table.size_erase_le _ _).trans hOwned.bounded)
      (by simp) (by simp [NoProc]) rfl hHolding hOwn

end Gated

------------------------------------------------------------
-- The Protocol
------------------------------------------------------------

/- What the workers agree on. -/
def custody :
    Protocol (UserHost S) (HostAction S) (HostInput S)
      (HostOutcome S) (HostTask S) HostAction.Result where
  known _ _ _ := True
  cond _ _ _ _ := True
  econd _ _ := True
  inv := Owned
  fresh _ _ := True
  rely := Keeps
  contract w a h :=
    match a with
    | .unlock sid => Holding w sid h
    | .acceptUserLaunch sid _ _ _ _ => Holding w sid h ∧ h.NoProc sid
    | .start sid i _ =>
        Holding w sid h ∧ h.bySID.lookup sid = some i ∧
          (h.instances i).proc = none
    | .applyUserLaunch sid i proc _ _ _ =>
        h.gates sid = some w ∧ h.bySID.lookup sid = some i ∧
          (h.instances i).proc = none ∧ h.hist.inHand sid = proc
    | .recordLingerTokenFailure sid _ _ _ => Holding w sid h
    | .applyUserCleanup sid i err _ =>
        Holding w sid h ∧
          (err = none → h.bySID.lookup sid = some i →
            ∀ p, (h.instances i).proc = some p → h.Confirmed p)
    | .closeAttempt a err =>
        a < h.nextAttempt ∧
          (err = none → ∀ p, (h.attempts a).key = .user p →
            h.Confirmed p)
    | _ => True
  pre t _ h :=
    match t with
    | .attempt a key => a < h.nextAttempt ∧ (h.attempts a).key = key
    | _ => True

/- The goroutines that a step has started are as announced. -/
theorem pre_of_announced
    (hOwned : Owned h)
    {t : HostTask S}
    (ht : t ∈ h.spawned)
    (v : HostWorkerId) :
    custody.pre t v { h with spawned := [] } := by
  cases t
  case attempt a key =>
    apply hOwned.known a key
    refine Or.inr (List.mem_filterMap.mpr ⟨_, ht, rfl⟩)
  all_goals trivial

theorem drained_owned
    (hOwned : Owned h) :
    Owned { h with spawned := [] } := by
  refine { hOwned with known := ?_ }
  intro a key hKnown
  apply hOwned.known a key
  refine hKnown.imp id ?_
  intro hTask
  simp [attemptTasks] at hTask

theorem drained_keeps
    (h : UserHost S)
    (v : HostWorkerId) :
    Keeps v h { h with spawned := [] } :=
  { (Same.refl h).keeps v with }

variable {o : HostOutcome S}
variable {a : HostAction S}

/- Actions that ask for nothing keep everything. -/
theorem perform_harmless
    (hOwned : Owned h)
    (hHarmless : Harmless a)
    {x : a.Result × UserHost S}
    (hPerform : h.perform w o a = some x) :
    Fair h x.2 := by
  cases a
  case tryLock sid =>
    simp only [perform] at hPerform
    split at hPerform
    · rename_i hFree
      cases hPerform
      exact takeGate_fair hOwned hFree
    · cases hPerform
      exact hOwned.fair (.of_estate rfl)
  case lockContext sid =>
    simp only [perform] at hPerform
    split at hPerform
    · cases hPerform
      exact hOwned.fair (.of_estate rfl)
    · split at hPerform
      · rename_i hFree
        cases hPerform
        exact takeGate_fair hOwned hFree
      · cases hPerform
  case joinStop key =>
    simp only [perform] at hPerform
    split at hPerform
    · cases hPerform
      exact hOwned.fair (.of_estate rfl)
    · cases hPerform
      exact joinStop_fair hOwned key
  case dropAttempt a =>
    cases hPerform
    exact dropAttempt_fair hOwned a
  case alive p =>
    cases hPerform
    exact processAlive_fair hOwned p o
  case kill p =>
    cases hPerform
    exact killProcess_fair hOwned p o
  case queueIdleCleanup sid =>
    cases hPerform
    exact hOwned.fair (queueIdleCleanup_same h sid)
  case acceptUserWorkClass cls =>
    cases hPerform
    exact hOwned.fair (acceptUserWorkClassLocked_same h cls)
  case observeUserAlive sid i proc sampled =>
    cases hPerform
    exact hOwned.fair (observeUserAlive_same h sid i proc sampled)
  case acceptUserCleanup i =>
    cases hPerform
    exact hOwned.fair (acceptUserCleanup_same h i)
  case acceptUserShutdown pass =>
    cases hPerform
    exact hOwned.fair (beginPass_same h pass)
  case spawnLogon session request work =>
    cases hPerform
    have hCursor : Same h { h with lastReconcileSession := session } :=
      .of_estate rfl
    exact hOwned.fair (hCursor.trans (spawn_same _ rfl))
  case awaitStop a =>
    simp only [perform] at hPerform
    split at hPerform
    · cases hPerform
      exact hOwned.fair (.of_estate rfl)
    · rcases Option.map_eq_some_iff.mp hPerform with ⟨_, _, rfl⟩
      exact hOwned.fair (.of_estate rfl)
  case unlock | beginReconcile | acceptUserSessions
    | acceptAdmissionPolicy | beginLinger | acceptUserLaunch
    | applyUserLaunch | recordLingerTokenFailure | applyUserCleanup
    | closeAttempt | probeUserUnits | start =>
    exact hHarmless.elim
  -- no branch of the other actions touches the estate
  all_goals
    simp only [perform, finishNativeUserWork, finishSessionRequest,
      acceptSessionIdentity, acceptAdmissionRevocation,
      acceptLingerSnapshot] at hPerform
    repeat' split at hPerform
    all_goals
      cases hPerform
      try exact hOwned.fair (.of_estate rfl)

/- Actions of the gate's holder keep what the others rely on. -/
theorem perform_custody
    (hOwned : Owned h)
    (hContract : custody.contract w a h)
    {x : a.Result × UserHost S}
    (hPerform : h.perform w o a = some x) :
    Custodial w h x.2 := by
  by_cases hHarmless : Harmless a
  · exact (perform_harmless hOwned hHarmless hPerform).custodial
  have hSame : Same h x.2 → Custodial w h x.2 :=
    fun hS => (hOwned.fair hS).custodial
  cases a
  -- every other action returns at once
  all_goals
    first
    | exact absurd trivial hHarmless
    | have hx := Option.some.inj hPerform
      subst hx
  case unlock sid =>
    exact
      ⟨unlock_owned hOwned hContract.2,
        fun v hv => unlock_keeps hContract.1 hv,
        Stays.releases ⟨rfl, fun _ => rfl⟩⟩
  case acceptUserSessions ids epoch revision =>
    exact hSame (acceptUserSessions_same h w ids epoch revision)
  case acceptAdmissionPolicy p =>
    exact hSame (acceptAdmissionPolicy_same h p)
  case beginReconcile | beginLinger | probeUserUnits =>
    apply hSame
    simp only [beginReconcile, beginLinger, probeUserUnits]
    repeat' split
    all_goals exact .of_estate rfl
  case acceptUserLaunch sid mode session wanted now =>
    rcases hContract with ⟨hHolding, hNoProc⟩
    rcases acceptUserLaunch_cases h sid mode session wanted now with
      ⟨_, hState⟩ | ⟨inst, rfl, hEmpty, hRoom, hState⟩
    · rw [hState] at hSame ⊢
      exact hSame (.of_estate rfl)
    · rw [hState]
      exact track_custodial hOwned hHolding hNoProc hEmpty hRoom
  case applyUserLaunch sid i proc err wanted now =>
    rcases hContract with ⟨hGate, hi, hNone, hHand⟩
    have hOthers :=
      applyUserLaunch_others hOwned hi proc err wanted now
    have hNoProc : h.NoProc sid := .of_entry hi hNone
    exact hOthers.custodial hGate
      (applyUserLaunch_owned hOwned hi hNone hHand err wanted now)
      hNoProc.confirmed
  case recordLingerTokenFailure sid revision message now =>
    rcases recordLingerTokenFailure_cases h sid revision message now with
      hState | ⟨inst, rfl, hEmpty, hNoProc, hRoom, hState⟩
    · rw [hState] at hSame ⊢
      exact hSame (.of_estate rfl)
    · rw [hState]
      exact track_custodial hOwned hContract hNoProc hEmpty hRoom
  case applyUserCleanup sid i err retainRecovery =>
    exact applyUserCleanup_custodial hOwned hContract.1 hContract.2
      retainRecovery
  case closeAttempt a err =>
    exact
      ⟨closeAttempt_owned hOwned hContract.2,
        fun v _ => closeAttempt_keeps a err v,
        Stays.releases ⟨rfl, fun _ => rfl⟩⟩
  case start sid i token =>
    rcases hContract with ⟨hHolding, hi, hNone⟩
    exact startProcess_custodial hOwned hHolding hi hNone o

variable {ts : List (HostTask S)}

theorem exec_custody
    (hOwned : Owned h)
    {r : a.Result}
    (hContract : custody.contract w a h)
    (hExec : threads.exec w a o h = some (r, h', ts)) :
    Owned h' ∧ (∀ v, v ≠ w → Keeps v h h') ∧
      Releases h h' ∧ ∀ t ∈ ts, ∀ v, custody.pre t v h' := by
  rcases exec_eq_some hExec with ⟨h₁, hPerform, rfl, rfl⟩
  rcases perform_custody hOwned hContract hPerform with
    ⟨hOwned₁, hKeeps, hReleases⟩
  exact
    ⟨drained_owned hOwned₁,
      fun v hv => (hKeeps v hv).trans (drained_keeps h₁ v),
      hReleases, fun t ht v => pre_of_announced hOwned₁ ht v⟩

theorem exec_harmless
    (hOwned : Owned h)
    {r : a.Result}
    (hHarmless : Harmless a)
    (hExec : threads.exec w a o h = some (r, h', ts))
    (v : HostWorkerId) :
    Keeps v h h' := by
  rcases exec_eq_some hExec with ⟨h₁, hPerform, rfl, rfl⟩
  exact
    ((perform_harmless hOwned hHarmless hPerform).keeps v).trans
      (drained_keeps h₁ v)

/- Requests and notifications do not touch any entry. -/
theorem accept_same
    (h : UserHost S)
    (e : HostInput S) :
    Same h (h.accept e) := by
  refine accept_rule (P := Same h) (acceptSessionRequest_same h)
    (fun _ => .of_estate rfl) (acceptAdmissionPolicy_same h)
    (acceptUserWorkClassLocked_same h) (.of_estate rfl) ?_ e
  intro h₁ t ht hSame
  refine hSame.trans (spawn_same h₁ ?_)
  cases t
  case attempt a key => exact absurd rfl (ht a key)
  all_goals rfl

------------------------------------------------------------
-- Rules For Programs
------------------------------------------------------------

section Rules

variable {w : HostWorkerId}
variable {h : UserHost S}

variable {F : UserHost S → Prop}
variable {α : Type}

variable {p : HostCode S α}

/- Programs of harmless actions keep what is stable. -/
theorem custody_harmless
    (hF : ∀ h₁ h₂, F h₁ → Keeps w h₁ h₂ → F h₂)
    (hp : p.Forall Harmless)
    (hs : F h) :
    custody.Ok threads w (fun _ h' => F h') p h := by
  refine Protocol.Ok.of_forall (fun h₁ h₂ _ => hF h₁ h₂) ?_ hp hs
  intro a h₁ hHarmless hOwned h₁F hKnown
  constructor
  · cases a <;> first | exact hHarmless.elim | trivial
  · intro o r h₂ ts _ hExec _
    exact hF h₁ h₂ h₁F (exec_harmless hOwned hHarmless hExec w)

theorem custody_any
    (hp : p.Forall Harmless) :
    custody.Safe threads p :=
  fun _ _ => custody_harmless (fun _ _ _ _ => trivial) hp trivial

variable {β : Type}
variable {a : HostAction S}

variable {Q : β → UserHost S → Prop}
variable {k : a.Result → HostCode S β}

/- One harmless action and its answer. -/
theorem custody_call
    (hHarmless : Harmless a)
    (hNext :
      ∀ h₁ o r h₂, Owned h₁ → Keeps w h h₁ →
        h₁.perform w o a = some (r, h₂) → Keeps w h₁ h₂ →
        Keeps w h { h₂ with spawned := [] } →
          custody.Ok threads w Q (k r) { h₂ with spawned := [] }) :
    custody.Ok threads w Q (Prog.call a >>= k) h := by
  apply Protocol.Ok.call
  intro h₁ hOwned hKeeps hKnown
  refine ⟨?_, ?_⟩
  · cases a <;> first | exact hHarmless.elim | trivial
  · intro o r h₂ ts _ hExec _
    rcases exec_eq_some hExec with ⟨h₃, hPerform, rfl, rfl⟩
    have hStep := (perform_harmless hOwned hHarmless hPerform).keeps w
    exact hNext h₁ o r h₃ hOwned hKeeps hPerform hStep
      (hKeeps.trans (hStep.trans (drained_keeps h₃ w)))

/- One harmless action whose answer does not matter. -/
theorem custody_then
    (hF : ∀ h₁ h₂, F h₁ → Keeps w h₁ h₂ → F h₂)
    (hHarmless : Harmless a)
    (hs : F h)
    (hNext : ∀ r h', F h' → custody.Ok threads w Q (k r) h') :
    custody.Ok threads w Q (Prog.call a >>= k) h := by
  refine custody_call hHarmless ?_
  intro h₁ o r h₂ _ _ _ _ hKeeps
  exact hNext r _ (hF h _ hs hKeeps)

/- The worker has the gate, and the entry has this instance. -/
def AtEntry
    (w : HostWorkerId)
    (sid : S)
    (i : InstanceId)
    (proc : Option UserProcId)
    (h : UserHost S) : Prop :=
  Holding w sid h ∧ h.bySID.lookup sid = some i ∧
    (h.instances i).proc = proc

variable {sid : S}
variable {h₁ h₂ : UserHost S}

theorem Holding.keeps
    (hHolding : Holding w sid h₁)
    (hKeeps : Keeps w h₁ h₂) :
    Holding w sid h₂ := by
  rcases hKeeps.gate sid hHolding.1 with ⟨hGate, _, hHand, _⟩
  exact ⟨hGate, hHand.trans hHolding.2⟩

variable {i : InstanceId}
variable {proc : Option UserProcId}

theorem AtEntry.keeps
    (hAt : AtEntry w sid i proc h₁)
    (hKeeps : Keeps w h₁ h₂) :
    AtEntry w sid i proc h₂ := by
  rcases hAt with ⟨hHolding, hi, hProc⟩
  rcases hKeeps.gate sid hHolding.1 with ⟨_, hLook, _, hProcs⟩
  exact
    ⟨hHolding.keeps hKeeps, hLook.trans hi, (hProcs i hi).trans hProc⟩

theorem NoProc.keeps
    (hNoProc : h₁.NoProc sid)
    (hGate : h₁.gates sid = some w)
    (hKeeps : Keeps w h₁ h₂) :
    h₂.NoProc sid := by
  rcases hKeeps.gate sid hGate with ⟨_, hLook, _, hProcs⟩
  intro i hi
  have hOld := hLook.symm.trans hi
  exact (hProcs i hOld).trans (hNoProc i hOld)

/- A wait for a kill that ends without an error confirms it. -/
theorem stopsWait_custody
    (hF : ∀ h₁ h₂, F h₁ → Keeps w h₁ h₂ → F h₂)
    (p : UserProcId)
    (hs : F h) :
    custody.Ok threads w
      (fun err h' => F h' ∧ (err = none → h'.Confirmed p))
      (stopsWait (.user p)) h := by
  refine custody_call (by trivial) ?_
  intro h₁ o r h₂ hOwned _ hPerform _ hKeeps
  have h₂F := hF h _ hs hKeeps
  cases r with
  | error err => exact ⟨h₂F, nofun⟩
  | ok a =>
      have hKey :
          a < h₂.nextAttempt ∧ (h₂.attempts a).key = .user p := by
        simp only [perform] at hPerform
        split at hPerform
        · cases hPerform
        · cases hPerform
          unfold joinStop
          split
          · rename_i b hPending
            rcases List.lookup_eq_some_iff.mp hPending with
              ⟨before, after, hList, _⟩
            refine hOwned.known b _ (Or.inl ?_)
            simp [hList]
          · simp [spawn]
      refine custody_call (by trivial) ?_
      intro h₃ o' r h₄ hOwned₃ hKeeps₃ hPerform' _ hKeeps'
      refine ⟨hF _ _ h₂F hKeeps', ?_⟩
      intro hNone
      simp only [perform] at hPerform'
      split at hPerform'
      · cases hPerform'
        cases hNone
      · rcases Option.map_eq_some_iff.mp hPerform' with
          ⟨err, hDone, hEq⟩
        cases hEq
        rw [hNone] at hDone
        have hSame := hKeeps₃.attempts.2 a hKey.1
        exact hOwned₃.ended a p
          (lt_of_lt_of_le hKey.1 hKeeps₃.attempts.1)
          (hSame.trans hKey.2) hDone

/- What a cleanup leaves to the holder of the gate. -/
theorem applyUserCleanup_own
    {err : Option String}
    (hHolding : Holding w sid h)
    (hi : h.bySID.lookup sid = some i)
    (retainRecovery : Bool) :
    Holding w sid (h.applyUserCleanup sid i err retainRecovery) ∧
      (err = none →
        (h.applyUserCleanup sid i err retainRecovery).NoProc sid) := by
  rcases applyUserCleanup_cases h sid i err retainRecovery with
    ⟨hSame, hNe⟩ | ⟨_, _, ⟨f, _, hProc, hEq⟩ | hEq⟩
  · exact ⟨hHolding.keeps (hSame.keeps w),
      fun hNone => absurd hi (hNe hNone)⟩
  all_goals
    rw [hEq]
    refine ⟨hHolding, fun _ => ?_⟩
  · exact .of_entry hi (by simp [withInstance, hProc])
  · simp [NoProc]

/- The cleanup itself, with the process confirmed or absent. -/
theorem applyUserCleanup_custody
    (err : Option String)
    (retainRecovery : Bool)
    (hAt : AtEntry w sid i proc h)
    (hDead : err = none → ∀ p, proc = some p → h.Confirmed p) :
    custody.Ok threads w
      (fun err' h' =>
        Holding w sid h' ∧ (err' = none → h'.NoProc sid))
      (do
        call (.applyUserCleanup sid i err retainRecovery)
        pure err) h := by
  apply Protocol.Ok.call
  intro h₁ _ hKeeps _
  have hAt₁ := hAt.keeps hKeeps
  refine ⟨⟨hAt₁.1, ?_⟩, ?_⟩
  · intro hNone _ p hp
    rw [hAt₁.2.2] at hp
    exact hKeeps.confirmed p (hDead hNone p hp)
  · intro o r h₂ ts _ hExec _
    rcases exec_eq_some hExec with ⟨h₃, hPerform, rfl, rfl⟩
    cases hPerform
    exact applyUserCleanup_own hAt₁.1 hAt₁.2.1 retainRecovery

theorem cleanupUserInstance_custody
    (retainRecovery : Bool)
    (hHolding : Holding w sid h)
    (hi : h.bySID.lookup sid = some i) :
    custody.Ok threads w
      (fun err h' => Holding w sid h' ∧ (err = none → h'.NoProc sid))
      (cleanupUserInstance sid i retainRecovery) h := by
  have hAt : AtEntry w sid i (h.instances i).proc h := ⟨hHolding, hi, rfl⟩
  refine custody_call (by trivial) ?_
  intro h₁ o r h₂ _ hKeeps₁ hPerform _ hKeeps
  have hAt₂ := hAt.keeps hKeeps
  cases hPerform
  have hProc := (hAt.keeps hKeeps₁).2.2
  rw [hProc]
  cases hHeld : (h.instances i).proc with
  | none =>
      rw [hHeld] at hAt₂
      exact applyUserCleanup_custody none retainRecovery hAt₂
        nofun
  | some proc =>
      rw [hHeld] at hAt₂
      refine custody_call (by trivial) ?_
      intro h₃ o' r h₄ _ hKeeps₃ hPerform' _ hKeeps'
      have hAt₄ := hAt₂.keeps hKeeps'
      cases hPerform'
      have hSame := (hAt₂.keeps hKeeps₃).2.2
      rw [hSame]
      refine (stopsWait_custody (fun _ _ => AtEntry.keeps)
        proc hAt₄).bind ?_
      rintro err h₅ ⟨hAt₅, hDead⟩
      refine applyUserCleanup_custody err retainRecovery hAt₅ ?_
      intro hNone p hp
      cases hp
      exact hDead hNone

theorem killUserInstance_custody
    {i : Option InstanceId}
    (hHolding : Holding w sid h)
    (hi : ∀ j, i = some j → h.bySID.lookup sid = some j) :
    custody.Ok threads w (fun _ h' => Holding w sid h')
      (killUserInstance sid i) h := by
  cases i with
  | none => exact hHolding
  | some i =>
      exact Protocol.Ok.mono (fun _ _ hPost => hPost.1)
        (cleanupUserInstance_custody false hHolding (hi i rfl))

/- A stop finds the entry of its user, or nothing. -/
theorem stopTarget_eq
    {onlyIdle : Bool}
    (hi : h.stopTarget sid onlyIdle = some i) :
    h.bySID.lookup sid = some i := by
  unfold stopTarget at hi
  dsimp only at hi
  split at hi
  · split at hi
    · cases hi
    · exact hi
  · exact hi

theorem stopUserLocked_custody
    (onlyIdle : Bool)
    (hHolding : Holding w sid h) :
    custody.Ok threads w (fun _ h' => Holding w sid h')
      (stopUserLocked sid onlyIdle) h := by
  refine custody_call (by trivial) ?_
  intro h₁ o r h₂ _ _ hPerform _ hKeeps
  cases hPerform
  refine killUserInstance_custody (hHolding.keeps hKeeps) ?_
  intro j hj
  exact stopTarget_eq hj

/- Whoever gets a free gate finds no process in hand. -/
theorem holding_of_taken
    (hOwned : Owned h)
    (hFree : h.gates sid = none) :
    Holding w sid { h.takeGate w sid with spawned := [] } :=
  ⟨Function.update_self _ _ _, hOwned.inHand_of_free hFree⟩

/- The gate is given back with nothing in hand. -/
theorem unlock_custody
    {k : Unit → HostCode S β}
    (hHolding : Holding w sid h)
    (hNext : ∀ h', custody.Ok threads w Q (k ()) h') :
    custody.Ok threads w Q (Prog.call (.unlock sid) >>= k) h := by
  apply Protocol.Ok.call
  intro h₁ _ hKeeps _
  refine ⟨hHolding.keeps hKeeps, ?_⟩
  intro o r h₂ ts _ _ _
  exact hNext h₂

/- A worker that waits for a gate. -/
theorem lockContext_custody
    {k : Option String → HostCode S β}
    (hFailed : ∀ err h', custody.Ok threads w Q (k (some err)) h')
    (hTaken :
      ∀ h', Holding w sid h' → custody.Ok threads w Q (k none) h') :
    custody.Ok threads w Q (Prog.call (.lockContext sid) >>= k) h := by
  refine custody_call (by trivial) ?_
  intro h₁ o r h₂ hOwned _ hPerform _ _
  simp only [perform] at hPerform
  split at hPerform
  · cases hPerform
    exact hFailed _ _
  · split at hPerform
    · rename_i hFree
      cases hPerform
      exact hTaken _ (holding_of_taken hOwned hFree)
    · cases hPerform

/- A worker that does not wait for a gate. -/
theorem tryLock_custody
    {k : Bool → HostCode S β}
    (hBusy : ∀ h', custody.Ok threads w Q (k false) h')
    (hTaken :
      ∀ h', Holding w sid h' → custody.Ok threads w Q (k true) h') :
    custody.Ok threads w Q (Prog.call (.tryLock sid) >>= k) h := by
  refine custody_call (by trivial) ?_
  intro h₁ o r h₂ hOwned _ hPerform _ _
  simp only [perform] at hPerform
  split at hPerform
  · rename_i hFree
    cases hPerform
    exact hTaken _ (holding_of_taken hOwned hFree)
  · cases hPerform
    exact hBusy _

theorem stopUser_custody
    (sid : S)
    (onlyIdle : Bool) :
    custody.Safe threads (stopUser sid onlyIdle) := by
  intro w h
  refine lockContext_custody (fun _ _ => trivial) ?_
  intro h₁ hHolding
  refine (stopUserLocked_custody onlyIdle hHolding).bind ?_
  intro err h₂ hHolding₂
  exact unlock_custody hHolding₂ (fun _ => trivial)

theorem stopIdle_custody (sids : List S) :
    custody.Safe threads (stopIdle sids) := by
  induction sids with
  | nil => exact fun _ _ => trivial
  | cons sid sids ih =>
      exact (stopUser_custody sid true).bind (fun _ => ih)

/- The worker does not go on as an attempt. -/
def Plain (x : Option (HostTask S)) : Prop :=
  x.bind HostTask.asAttempt = none

theorem idleCleanup_custody (sid : S) :
    custody.Ok threads w (fun x _ => Plain x) (idleCleanup sid) h := by
  refine tryLock_custody (fun _ => rfl) ?_
  intro h₁ hHolding
  refine custody_then (fun _ _ => Holding.keeps)
    (by trivial) hHolding ?_
  intro gone h₂ hHolding₂
  cases gone with
  | true => exact unlock_custody hHolding₂ (fun _ => rfl)
  | false =>
      refine (stopUserLocked_custody true hHolding₂).bind ?_
      intro err h₃ hHolding₃
      refine unlock_custody hHolding₃ ?_
      intro h₄
      refine Protocol.Ok.next (fun _ => trivial) ?_
      intro gone h₅
      show Plain (if err.isNone || gone then none
        else some (.idleCleanup sid))
      split <;> rfl

theorem revoke_custody (sids : List S) :
    custody.Safe threads (revoke sids) := by
  induction sids with
  | nil => exact fun _ _ => trivial
  | cons sid sids ih =>
      intro w h
      refine lockContext_custody (fun _ => ih w) ?_
      intro h₁ hHolding
      refine custody_call (by trivial) ?_
      intro h₂ o r h₃ _ _ hPerform _ hKeeps
      have hHolding₃ := hHolding.keeps hKeeps
      rcases r with ⟨i, denied⟩
      cases denied with
      | false => exact unlock_custody hHolding₃ (ih w)
      | true =>
          have hFound : h₃.bySID.lookup sid = i := by
            have hx := Option.some.inj hPerform
            have hSame := acceptAdmissionRevocation_same h₂ sid
            have hState : h₃ = (h₂.acceptAdmissionRevocation sid).2 :=
              (congrArg Prod.snd hx).symm
            rw [hState, hSame.bySID]
            exact congrArg (fun x => x.1.1) hx
          refine (killUserInstance_custody hHolding₃ ?_).bind ?_
          · intro j hj
            exact hFound.trans hj
          · intro _ h₄ hHolding₄
            exact unlock_custody hHolding₄ (ih w)

/- Either the launch is over, or the user has no process. -/
theorem clearExited_custody
    {i : Option InstanceId}
    (hHolding : Holding w sid h)
    (hi : h.bySID.lookup sid = i) :
    custody.Ok threads w
      (fun result h' =>
        Holding w sid h' ∧ (result = none → h'.NoProc sid))
      (clearExited sid i) h := by
  cases i with
  | none =>
      refine ⟨hHolding, fun _ j hj => ?_⟩
      rw [hi] at hj
      cases hj
  | some i =>
      have hAt : AtEntry w sid i (h.instances i).proc h :=
        ⟨hHolding, hi, rfl⟩
      refine custody_call (by trivial) ?_
      intro h₁ o r h₂ _ hKeeps₁ hPerform _ hKeeps
      have hAt₂ := hAt.keeps hKeeps
      cases hPerform
      rw [(hAt.keeps hKeeps₁).2.2]
      cases hHeld : (h.instances i).proc with
      | none =>
          rw [hHeld] at hAt₂
          exact ⟨hAt₂.1, fun _ => .of_entry hAt₂.2.1 hAt₂.2.2⟩
      | some proc =>
          refine custody_then (fun _ _ => AtEntry.keeps)
            (by trivial) hAt₂ ?_
          intro sampled h₃ hAt₃
          refine custody_then (fun _ _ => AtEntry.keeps)
            (by trivial) hAt₃ ?_
          intro alive h₄ hAt₄
          cases alive with
          | true =>
              refine custody_then (fun _ _ => AtEntry.keeps)
                (by trivial) hAt₄ ?_
              intro _ h₅ hAt₅
              exact ⟨hAt₅.1, nofun⟩
          | false =>
              refine (cleanupUserInstance_custody true hAt₄.1
                hAt₄.2.1).bind ?_
              rintro err h₅ ⟨hHolding₅, hNoProc⟩
              cases err with
              | some err => exact ⟨hHolding₅, nofun⟩
              | none => exact ⟨hHolding₅, fun _ => hNoProc rfl⟩

/- What the worker knows of its entry once the launcher has
   returned. -/
def Launched
    (w : HostWorkerId)
    (sid : S)
    (i : InstanceId)
    (proc : Option UserProcId)
    (h : UserHost S) : Prop :=
  h.gates sid = some w ∧ h.bySID.lookup sid = some i ∧
    (h.instances i).proc = none ∧ h.hist.inHand sid = proc

theorem Launched.keeps
    (h : Launched w sid i proc h₁)
    (hKeeps : Keeps w h₁ h₂) :
    Launched w sid i proc h₂ := by
  rcases h with ⟨hGate, hi, hNone, hHand⟩
  rcases hKeeps.gate sid hGate with ⟨hG, hL, hH, hP⟩
  exact ⟨hG, hL.trans hi, (hP i hi).trans hNone, hH.trans hHand⟩

/- The launch of an accepted instance. -/
theorem startAccepted_custody
    (token : Option (UserToken S))
    (wanted : Wanted S)
    (hAt : AtEntry w sid i none h) :
    custody.Ok threads w (fun _ h' => Holding w sid h')
      (startAccepted sid token wanted i) h := by
  apply Protocol.Ok.call
  intro h₁ _ hKeeps₁ _
  have hAt₁ := hAt.keeps hKeeps₁
  refine ⟨hAt₁, ?_⟩
  intro o r h₂ ts _ hExec _
  rcases exec_eq_some hExec with ⟨h₃, hPerform, rfl, rfl⟩
  rcases r with ⟨proc, err⟩
  have hLaunched : Launched w sid i proc h₃ := by
    simp only [perform, Option.some.injEq, startProcess] at hPerform
    split at hPerform
    · cases hPerform
      exact
        ⟨hAt₁.1.1, hAt₁.2.1, hAt₁.2.2, Function.update_self _ _ _⟩
    · cases hPerform
      exact ⟨hAt₁.1.1, hAt₁.2.1, hAt₁.2.2, hAt₁.1.2⟩
  refine custody_then (fun _ _ => Launched.keeps) (by trivial)
    (hLaunched.keeps (drained_keeps h₃ w)) ?_
  intro now h₄ hFacts₄
  apply Protocol.Ok.call
  intro h₅ _ hKeeps₅ _
  have hFacts₅ := hFacts₄.keeps hKeeps₅
  refine ⟨hFacts₅, ?_⟩
  intro o' superseded h₆ ts' _ hExec' _
  rcases exec_eq_some hExec' with ⟨h₇, hPerform', rfl, rfl⟩
  have hState :
      (h₅.applyUserLaunch sid i proc err wanted now).2 = h₇ :=
    congrArg Prod.snd (Option.some.inj hPerform')
  have hHolding : Holding w sid { h₇ with spawned := [] } := by
    subst hState
    exact ⟨hFacts₅.1, Function.update_self _ _ _⟩
  cases err with
  | some err => exact hHolding
  | none =>
      cases proc with
      | none => exact hHolding
      | some p =>
          cases superseded with
          | false => exact hHolding
          | true =>
              refine (killUserInstance_custody hHolding ?_).bind (fun _
                _ hH => hH)
              intro j hj
              cases hj
              subst hState
              exact hFacts₅.2.1

theorem launchUser_custody
    (token : Option (UserToken S))
    (wanted : Wanted S)
    (hHolding : Holding w sid h) :
    custody.Ok threads w (fun _ h' => Holding w sid h')
      (launchUser sid token wanted) h := by
  refine custody_call (by trivial) ?_
  intro h₁ o r h₂ _ _ hPerform _ hKeeps
  have hHolding₂ := hHolding.keeps hKeeps
  cases hPerform
  cases hInspect : h₁.inspectUserLaunch sid wanted with
  | error err => exact hHolding₂
  | ok i =>
      have hi : h₁.bySID.lookup sid = i := by
        unfold inspectUserLaunch at hInspect
        split at hInspect
        · cases hInspect
        · split at hInspect
          · rename_i hLook
            split at hInspect
            · cases hInspect
            · cases hInspect
              exact hLook
          · rename_i j hLook
            split at hInspect
            · cases hInspect
            · cases hInspect
              exact hLook
      refine (clearExited_custody hHolding₂ hi).bind ?_
      rintro result h₃ ⟨hHolding₃, hNoProc⟩
      cases result with
      | some result => exact hHolding₃
      | none =>
          refine custody_then
            (F := fun h' => Holding w sid h' ∧ h'.NoProc sid)
            (fun _ _ hB hK =>
              ⟨hB.1.keeps hK, hB.2.keeps hB.1.1 hK⟩)
            (by trivial) ⟨hHolding₃, hNoProc rfl⟩ ?_
          rintro now h₄ ⟨hHolding₄, hNoProc₄⟩
          apply Protocol.Ok.call
          intro h₅ _ hKeeps₅ _
          have hHolding₅ := hHolding₄.keeps hKeeps₅
          refine
            ⟨⟨hHolding₅, hNoProc₄.keeps hHolding₄.1 hKeeps₅⟩, ?_⟩
          intro o' r h₆ ts _ hExec _
          rcases exec_eq_some hExec with ⟨h₇, hPerform, rfl, rfl⟩
          have hx := Option.some.inj hPerform
          rcases acceptUserLaunch_cases h₅ sid (userLaunchMode token).1
              (userLaunchMode token).2 wanted now with
            ⟨⟨err, hErr⟩, hState⟩ | ⟨inst, rfl, hEmpty, _, hResult⟩
          · have hSame : h₇ = h₅ := (congrArg Prod.snd hx).symm.trans hState
            have hAnswer : r = .error err :=
              (congrArg Prod.fst hx).symm.trans hErr
            subst hSame hAnswer
            exact hHolding₅
          · have hPair := hx.symm.trans hResult
            cases hPair
            refine startAccepted_custody token wanted ⟨hHolding₅, ?_, ?_⟩
            · exact AList.lookup_insert _
            · show (Function.update h₅.instances h₅.instanceSequence inst
                h₅.instanceSequence).proc = none
              rw [Function.update_self]
              exact hEmpty

theorem ensureRunning_custody
    (sid : S)
    (token : Option (UserToken S))
    (wanted : Wanted S) :
    custody.Safe threads (ensureRunning sid token wanted) := by
  intro w h
  refine tryLock_custody (fun _ => trivial) ?_
  intro h₁ hHolding
  refine (launchUser_custody token wanted hHolding).bind ?_
  intro err h₂ hHolding₂
  exact unlock_custody hHolding₂ (fun _ => trivial)

theorem recordLingerTokenFailure_custody
    (sid : S)
    (revision : Nat)
    (message : String) :
    custody.Safe threads
      (HostWorkers.recordLingerTokenFailure sid revision message) := by
  intro w h
  refine tryLock_custody (fun _ => trivial) ?_
  intro h₁ hHolding
  refine custody_then (fun _ _ => Holding.keeps)
    (by trivial) hHolding ?_
  intro now h₂ hHolding₂
  apply Protocol.Ok.call
  intro h₃ _ hKeeps _
  have hHolding₃ := hHolding₂.keeps hKeeps
  refine ⟨hHolding₃, ?_⟩
  intro o r h₄ ts _ hExec _
  rcases exec_eq_some hExec with ⟨h₅, hPerform, rfl, rfl⟩
  cases hPerform
  have hHolding₅ :
      Holding w sid
        { h₃.recordLingerTokenFailure sid revision message now with
          spawned := [] } := by
    rcases recordLingerTokenFailure_cases h₃ sid revision message now
      with hState | ⟨inst, _, _, _, _, hState⟩
    · rw [hState]
      exact hHolding₃
    · rw [hState]
      exact hHolding₃
  exact unlock_custody (k := fun _ => pure ()) hHolding₅
    (fun _ => trivial)

/- An attempt reports a kill only when it is confirmed. -/
theorem attemptStop_custody
    (hF : ∀ h₁ h₂, F h₁ → Keeps w h₁ h₂ → F h₂)
    (a : AttemptId)
    (key : UserStopKey)
    (hs : F h) :
    custody.Ok threads w
      (fun err h' =>
        F h' ∧ (err = none → ∀ p, key = .user p → h'.Confirmed p))
      (attemptStop a key) h := by
  cases key with
  | user proc =>
      refine custody_call (by trivial) ?_
      intro h₁ o r h₂ _ _ hPerform _ hKeeps₂
      have h₂F := hF h _ hs hKeeps₂
      cases r with
      | some err =>
          exact ⟨h₂F, fun hNone => absurd hNone (Option.some_ne_none _)⟩
      | none =>
          have hKilled : (w, proc) ∈ h₂.hist.killed := by
            simp only [perform, Option.some.injEq, killProcess]
              at hPerform
            split at hPerform
            · cases hPerform
            · cases hPerform
              exact List.mem_cons_self
          refine custody_call (by trivial) ?_
          intro h₃ o' alive h₄ _ hKeeps hPerform' _ hKeeps₄
          have h₄F := hF _ _ h₂F hKeeps₄
          cases alive with
          | true =>
              exact ⟨h₄F, fun hNone => absurd hNone (Option.some_ne_none _)⟩
          | false =>
              refine ⟨h₄F, ?_⟩
              rintro _ p hp
              cases hp
              have hKilled₃ := hKeeps.killed proc hKilled
              simp only [perform, Option.some.injEq, processAlive,
                hKilled₃, and_true] at hPerform'
              split at hPerform'
              · cases hPerform'
                exact List.mem_cons_self
              · rename_i hYes
                exact absurd (congrArg Prod.fst hPerform') hYes
  | userWork work =>
      exact Protocol.Ok.mono
        (fun _ _ hFs => ⟨hFs, fun _ _ hKey => by cases hKey⟩)
        (custody_harmless hF (attemptStop_harmless a (.userWork work)) hs)
  | userShutdown =>
      exact Protocol.Ok.mono
        (fun _ _ hFs => ⟨hFs, fun _ _ hKey => by cases hKey⟩)
        (custody_harmless hF (attemptStop_harmless a .userShutdown) hs)

/- The attempt that a worker carries out. -/
def Carries
    (a : AttemptId)
    (key : UserStopKey)
    (h : UserHost S) : Prop :=
  a < h.nextAttempt ∧ (h.attempts a).key = key

variable {key : UserStopKey}

theorem Carries.keeps
    {a : AttemptId}
    (hCarries : Carries a key h₁)
    (hKeeps : Keeps w h₁ h₂) :
    Carries a key h₂ :=
  ⟨lt_of_lt_of_le hCarries.1 hKeeps.attempts.1,
    (hKeeps.attempts.2 a hCarries.1).trans hCarries.2⟩

theorem attempt_custody
    {a : AttemptId}
    (hCarries : Carries a key h) :
    custody.Ok threads w (fun _ _ => True) (attempt a key) h := by
  refine (attemptStop_custody (fun _ _ => Carries.keeps) a
    key hCarries).bind ?_
  rintro err h₁ ⟨hCarries₁, hResult⟩
  refine custody_then
    (F := fun h' =>
      Carries a key h' ∧
        (err = none → ∀ p, key = .user p → h'.Confirmed p))
    (fun _ _ hB hK =>
      ⟨hB.1.keeps hK,
        fun hNone p hp => hK.confirmed p (hB.2 hNone p hp)⟩)
    (by trivial) ⟨hCarries₁, hResult⟩ ?_
  rintro _ h₂ ⟨hCarries₂, hResult₂⟩
  apply Protocol.Ok.call (k := fun _ => pure ())
  intro h₃ _ hKeeps _
  have hCarries₃ := hCarries₂.keeps hKeeps
  refine ⟨⟨hCarries₃.1, ?_⟩, fun _ _ _ _ _ _ _ => trivial⟩
  intro hNone p hp
  exact hKeeps.confirmed p
    (hResult₂ hNone p (hCarries₃.2.symm.trans hp))

------------------------------------------------------------
-- Other Programs
------------------------------------------------------------

theorem admitted_custody
    (policy : UserAdmission S)
    (token : UserToken S) :
    custody.Safe threads (admitted policy token) := by
  unfold admitted
  dsimp only
  split
  · refine Protocol.Safe.call (fun _ _ => trivial) (fun r => ?_)
    cases r <;> exact fun _ _ => trivial
  · exact fun _ _ => trivial

theorem admitToken_custody
    (origin : UserSessionOrigin)
    (policy : UserAdmission S)
    (token : UserToken S) :
    custody.Safe threads (admitToken origin policy token) := by
  unfold admitToken
  split
  · refine (admitted_custody policy token).bind (fun allow => ?_)
    cases allow with
    | false => exact fun _ _ => trivial
    | true =>
        refine Protocol.Safe.call (fun _ _ => trivial) (fun r => ?_)
        cases r with
        | error err => exact fun _ _ => trivial
        | ok accepted =>
            cases accepted with
            | false => exact fun _ _ => trivial
            | true =>
                exact (ensureRunning_custody token.sid (some token)
                  (.session origin)).bind (fun _ _ _ => trivial)
  · exact fun _ _ => trivial

theorem finish_custody
    (work : WorkId)
    (token : Option (UserToken S))
    {k : Option String → HostCode S β}
    (hk : ∀ err, custody.Safe threads (k err)) :
    custody.Safe threads
      (HostWorkers.finishNativeUserWork work token >>= k) :=
  (custody_any (finishNativeUserWork_harmless work token)).bind hk

theorem query_custody
    (session request : Nat)
    (work : WorkId) :
    custody.Safe (S := UserHost S) threads
      (queryAcceptedUserLogon session request work) := by
  have hEnd :
      ∀ token : Option (UserToken S),
        custody.Safe threads (do
          let _ ← HostWorkers.finishNativeUserWork work token
          call (.finishSessionRequest session request)) :=
    fun token => finish_custody work token
      (fun _ => custody_any ⟨trivial, fun _ => trivial⟩)
  refine Protocol.Safe.call (fun _ _ => trivial) (fun now => ?_)
  refine Protocol.Safe.call (fun _ _ => trivial) (fun r => ?_)
  cases r with
  | none => exact hEnd none
  | some found =>
      rcases found with ⟨revision, policy⟩
      refine Protocol.Safe.call (fun _ _ => trivial) (fun r => ?_)
      rcases r with ⟨token, err⟩
      cases err with
      | some err => exact hEnd token
      | none =>
          cases token with
          | none => exact hEnd none
          | some token =>
              exact (admitToken_custody _ policy token).bind
                (fun _ => hEnd (some token))

theorem startLinger_custody (record : LingerRecord S) :
    custody.Safe threads (startLinger record) := by
  refine Protocol.Safe.call (fun _ _ => trivial) (fun now => ?_)
  refine Protocol.Safe.call (fun _ _ => trivial) (fun r => ?_)
  cases r with
  | error err => exact fun _ _ => trivial
  | ok revision =>
      refine Protocol.Safe.call (fun _ _ => trivial) (fun r => ?_)
      cases r with
      | error err => exact fun _ _ => trivial
      | ok work =>
          refine Protocol.Safe.call (fun _ _ => trivial) (fun r => ?_)
          rcases r with ⟨token, err⟩
          have hEnd :
              ∀ startErr : Option String,
                custody.Safe threads (do
                  let closeErr ←
                    HostWorkers.finishNativeUserWork work token
                  pure (joinErrors startErr closeErr)) :=
            fun _ => finish_custody work token (fun _ _ _ => trivial)
          cases err with
          | some err =>
              exact (recordLingerTokenFailure_custody record.sid
                revision err).bind (fun _ => hEnd (some err))
          | none =>
              exact (ensureRunning_custody record.sid token
                (.linger record revision)).bind hEnd

theorem enumerateAccepted_custody (epoch revision : Nat) :
    custody.Safe (S := UserHost S) threads
      (enumerateAccepted epoch revision) := by
  refine Protocol.Safe.call (fun _ _ => trivial) (fun r => ?_)
  cases r with
  | error err => exact fun _ _ => trivial
  | ok ids =>
      dsimp only
      split
      · exact fun _ _ => trivial
      · refine Protocol.Safe.call (fun _ _ => trivial) (fun r => ?_)
        cases r with
        | none => exact fun _ _ => trivial
        | some found =>
            rcases found with ⟨requests, sids⟩
            exact (custody_any (dispatchReconcileRequests_harmless
              requests)).bind (fun _ => stopIdle_custody sids)

theorem reconcileAccepted_custody (work : WorkId) :
    custody.Safe (S := UserHost S) threads
      (reconcileAccepted work) := by
  refine Protocol.Safe.call (fun _ _ => trivial) (fun works => ?_)
  refine (custody_any (cleanupNativeUserWork_harmless false
    works)).bind (fun _ => ?_)
  refine Protocol.Safe.call (fun _ _ => trivial) (fun r => ?_)
  cases r with
  | none => exact finish_custody work none (fun _ _ _ => trivial)
  | some found =>
      rcases found with ⟨epoch, revision⟩
      refine (enumerateAccepted_custody epoch revision).bind (fun _ => ?_)
      exact finish_custody work none (fun _ _ _ => trivial)

theorem reconcile_custody
    (work : WorkId)
    (lingering : Bool) :
    custody.Ok threads w (fun x _ => Plain x)
      (reconcile work lingering) h := by
  refine (reconcileAccepted_custody work w h).bind ?_
  intro _ h₁ _
  cases lingering with
  | false => rfl
  | true =>
      refine Protocol.Ok.next (fun _ => trivial) ?_
      intro r h₂
      cases r <;> rfl

theorem shutdown_custody :
    custody.Ok threads w (fun x _ => Plain x) shutdown h := by
  refine (custody_any (stopsWait_harmless .userShutdown) w h).bind ?_
  intro err h₁ _
  have hReturn :
      ∀ h' : UserHost S,
        custody.Ok threads w (fun x _ => Plain x)
          (do
            call (.shutdownReturned err)
            pure (none : Option (HostTask S))) h' :=
    fun h' => Protocol.Ok.next (fun _ => trivial) (fun _ _ => rfl)
  cases err with
  | none => exact hReturn h₁
  | some message =>
      refine Protocol.Ok.next (fun _ => trivial) ?_
      intro retry h₂
      cases retry with
      | true => rfl
      | false => exact hReturn h₂

/- Only an attempt starts with a condition. -/
theorem goes_custody
    {p : HostCode S (Option (HostTask S))}
    (hp : custody.Ok threads w (fun x _ => Plain x) p h) :
    custody.Ok threads w (custody.Goes w) p h := by
  refine Protocol.Ok.mono ?_ hp
  rintro x h₁ hPlain h₂ _ _ t rfl
  cases t
  case attempt a key => cases hPlain
  all_goals trivial

theorem ends_custody
    (hp : custody.Safe threads p) :
    custody.Ok threads w (custody.Goes w) (ends p) h :=
  goes_custody ((hp w h).bind (fun _ _ _ => rfl))

theorem custody_allows : Allows (custody (S := S)) where
  harmless := custody_any
  policy := fun _ _ _ => trivial
  revoke := revoke_custody
  stopUser := stopUser_custody
  startLinger := startLinger_custody
  query := query_custody

theorem code_custody
    (t : HostTask S)
    (hPre : custody.pre t w h) :
    custody.Ok threads w (custody.Goes w) t.code h := by
  have hAll := custody_allows (S := S)
  cases t with
  | logon session request work joins =>
      exact ends_custody (logon_safe hAll session request work joins)
  | reconcile work lingering =>
      exact goes_custody (reconcile_custody work lingering)
  | lingerScan work => exact ends_custody (startLingering_safe hAll work)
  | enableLinger work => exact ends_custody (enableLinger_safe hAll work)
  | disableLinger work =>
      exact ends_custody (disableLinger_safe hAll work)
  | stopUser sid onlyIdle =>
      exact ends_custody (stopUser_custody sid onlyIdle)
  | idleCleanup sid => exact goes_custody (idleCleanup_custody sid)
  | revoke sids => exact ends_custody (revoke_custody sids)
  | refreshAdmission work =>
      exact ends_custody (refreshAdmission_safe hAll work)
  | attempt a key =>
      exact goes_custody
        ((attempt_custody hPre).bind (fun _ _ _ => rfl))
  | shutdownStop pass sid =>
      exact ends_custody (shutdownStop_safe hAll pass sid)
  | shutdown => exact goes_custody shutdown_custody

end Rules

theorem initial_owned
    (cfg : UserHostConfig)
    (policy : UserAdmission S)
    (nobody : S) :
    Owned (initial cfg policy nobody) where
  listed := by
    intro sid i hi
    simp [initial] at hi
  held := by
    intro sid i p hi _
    simp [initial] at hi
  inHand := by
    intro sid p hp
    simp [initial] at hp
  tracked := by
    intro p hp
    exact absurd hp (Nat.not_lt_zero p)
  bounded := Nat.zero_le _
  known := by
    intro a key hKnown
    simp [initial, attemptTasks] at hKnown
  ended := by
    intro a p ha
    exact absurd ha (Nat.not_lt_zero a)

theorem custody_valid :
    (custody (S := S)).Valid threads where
  rely_refl := fun w _ => (Same.of_estate rfl).keeps w
  rely_trans := fun _ _ _ _ a b => a.trans b
  init := by
    rintro h ⟨cfg, policy, nobody, rfl⟩
    exact ⟨initial_owned cfg policy nobody, fun _ => trivial⟩
  exec := by
    intro w a o h r h' ts hOwned _ hContract _ hExec
    rcases exec_custody hOwned hContract hExec with
      ⟨hOwned', hKeeps, _, hPre⟩
    exact
      ⟨hOwned', hKeeps, fun _ _ _ => trivial,
        fun t ht v _ => hPre t ht v⟩
  event := by
    intro e h h' ts hOwned _ hEvent
    cases hEvent
    have hSame := accept_same h e
    have hOwned' := hOwned.same hSame
    exact
      ⟨drained_owned hOwned',
        fun v => (hSame.keeps v).trans (drained_keeps _ v),
        fun _ _ => trivial,
        fun t ht v _ => pre_of_announced hOwned' ht v⟩
  code := fun t _ _ _ hPre => code_custody t hPre

------------------------------------------------------------
-- One Process Per User
------------------------------------------------------------

/-
  In every state that the host reaches: a step takes a process
  from its instance only once its kill is confirmed; every
  process that the launcher ever returned is confirmed dead or
  reachable from the table; a user has at most one that is not
  confirmed; and the table stays small.
-/
theorem one_owned_process
    {c : Config (UserHost S) (HostAction S) (HostTask S)
      HostAction.Result}
    (hReach : threads.system.Reachable c) :
    (∀ l c', threads.system.step c l = some c' →
      Releases c.shared c'.shared) ∧
    (∀ p < c.shared.nextProc,
      c.shared.Confirmed p ∨ c.shared.Tracked p) ∧
    (∀ p q, p < c.shared.nextProc → q < c.shared.nextProc →
      c.shared.procs p = c.shared.procs q →
      ¬ c.shared.Confirmed p → ¬ c.shared.Confirmed q → p = q) ∧
    Table.size c.shared.bySID ≤ 128 := by
  have hKnown :
      Protocol.Known (threads (S := S)) (fun _ _ _ => True) :=
    fun _ _ _ _ _ _ => trivial
  have hAll :
      threads.system.ReachableWhere (custody (S := S)).Admits c :=
    Protocol.admitted (fun _ _ _ _ => trivial) (fun _ _ => trivial)
      hReach
  have hOwned : Owned c.shared := (custody_valid.sound hKnown hAll).inv
  refine ⟨?_, hOwned.tracked, ?_, hOwned.bounded⟩
  · intro l c' hStep
    refine custody_valid.step_relates hKnown
      (fun _ => (Same.of_estate rfl).stays.releases) ?_ ?_ hAll hStep
    · intro w a o h r h' ts hInv hContract hExec
      exact (exec_custody hInv hContract hExec).2.2.1
    · intro e h h' ts _ hEvent
      cases hEvent
      exact (accept_same h e).stays.releases
  · intro p q hp hq hUser hpLive hqLive
    have hpTracked := (hOwned.tracked p hp).resolve_left hpLive
    have hqTracked := (hOwned.tracked q hq).resolve_left hqLive
    exact hpTracked.unique hqTracked hUser

end UserHost

------------------------------------------------------------
-- A Launch
------------------------------------------------------------

section Launch

local instance : SIDs Nat := numberedSIDs

namespace UserHost

/- The launcher returns a process together with an error. -/
def failedStart : HostOutcome Nat :=
  { found with err := some "access denied" }

/- The launch of session 1 fails with a process in hand. -/
def failedLaunchRun :
    List (Threads.Label (HostInput Nat) (HostOutcome Nat)) :=
  logonRun ++ [.run 0 found, .run 0 failedStart] ++
    List.replicate 2 (.run 0 found)

/- The process is kept with the instance of user 5. -/
theorem one_owned_process_failed :
    ∃ c, (threads (S := Nat)).system.Reachable c ∧
      c.shared.nextProc = 1 ∧ ¬ c.shared.Confirmed 0 ∧
      c.shared.Tracked 0 := by
  have hRun :
      ((threads (S := Nat)).system.run
          ⟨initial {} enabledUser 0, []⟩ failedLaunchRun).map
        (fun c => (c.shared.nextProc, c.shared.hist.dead)) =
          some (1, []) := by
    decide +kernel
  rcases Option.map_eq_some_iff.mp hRun with ⟨c, hc, hEnd⟩
  have hReach : threads.system.Reachable c :=
    System.reachable_of_run failedLaunchRun
      ⟨⟨{}, enabledUser, 0, rfl⟩, rfl⟩ hc
  simp only [Prod.mk.injEq] at hEnd
  have hLive : ¬ c.shared.Confirmed 0 := by
    simp [Confirmed, hEnd.2]
  have hFirst : 0 < c.shared.nextProc := by
    rw [hEnd.1]
    exact Nat.one_pos
  exact
    ⟨c, hReach, hEnd.1, hLive,
      ((one_owned_process hReach).2.1 0 hFirst).resolve_left hLive⟩

end UserHost

end Launch

end Winunitd
