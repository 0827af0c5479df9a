import Winunitd.Timers.Ownership

/-
  The order of reads and writes of stored records.

  The lock of the storage is held from the check of a worker to
  the end of its write, and from the check of the loader to the
  end of its load.  There is one holder at a time.  So the
  writes of one name are ordered by their arms: none of an old
  arm comes after one of a newer arm.  A step changes the
  record of the name that it writes and no other.

  Key definitions include:
    * `Holder`, `Engine.Holds`
    * `Engine.Locked`
    * `Engine.Ordered`
    * `Engine.Wrote`

  Key theorems include:
    * `Engine.Ordered.step`
    * `Engine.wrote_step`
-/

------------------------------------------------------------
-- Holders
------------------------------------------------------------

namespace Winunitd

namespace Timers

variable {K : Type}

/- Who may hold the lock of the storage. -/
inductive Holder where
| fire (i : Nat)
| result (i : Nat)
| loader
deriving DecidableEq, Repr

/- Between the check and the end of the write. -/
def FirePhase.Writing : FirePhase → Prop
| .save | .settle _ => True
| _ => False

def ResultPhase.Writing : ResultPhase → Prop
| .save | .settle _ => True
| _ => False

/- Between the check and the end of the load. -/
def LoadPhase.Reading : LoadPhase → Prop
| .read _ _ | .apply _ _ _ => True
| _ => False

namespace Engine

variable {s s' : Engine K}

def Holds (s : Engine K) : Holder → Prop
| .fire i => ∃ w, s.fires[i]? = some w ∧ w.phase.Writing
| .result i => ∃ v, s.results[i]? = some v ∧ v.phase.Writing
| .loader => ∃ p, s.loader = some p ∧ p.Reading

/- There is one holder of the lock at most. -/
structure Locked (s : Engine K) : Prop where
  held : ∀ h, s.Holds h → s.storageIO = true
  alone : ∀ h h', s.Holds h → s.Holds h' → h = h'

/- A free lock has no holder. -/
theorem Locked.free
    (h : s.Locked)
    (hFree : s.storageIO = false)
    (who : Holder) :
    ¬ s.Holds who := by
  intro hHolds
  rw [h.held who hHolds] at hFree
  cases hFree

/- No one else gets the lock. -/
theorem Locked.fewer
    (h : s.Locked)
    (hStorage : s'.storageIO = s.storageIO)
    (hFewer : ∀ who, s'.Holds who → s.Holds who) :
    s'.Locked :=
  ⟨fun who hHolds => by rw [hStorage]; exact h.held who (hFewer who hHolds),
    fun one two hOne hTwo =>
      h.alone one two (hFewer one hOne) (hFewer two hTwo)⟩

/- One worker, or the loader, moves on; it may hold the lock then. -/
structure Turn
    (s s' : Engine K)
    (who : Holder)
    (holds : Prop) : Prop where
  others : ∀ other, other ≠ who → s'.Holds other → s.Holds other
  own : s'.Holds who → holds

section Turns

variable {who : Holder}
variable {holds : Prop}
variable (h : s.Locked)
variable (hTurn : s.Turn s' who holds)

include h hTurn

theorem Locked.turn
    (hStorage : s'.storageIO = s.storageIO)
    (hHolds : holds → s.Holds who) :
    s'.Locked := by
  refine h.fewer hStorage (fun other hOther => ?_)
  by_cases hSame : other = who
  · subst hSame
    exact hHolds (hTurn.own hOther)
  · exact hTurn.others other hSame hOther

/- It takes the free lock. -/
theorem Locked.take
    (hFree : s.storageIO = false)
    (hStorage : s'.storageIO = true) :
    s'.Locked := by
  have hOnly : ∀ other, s'.Holds other → other = who := by
    intro other hHolds
    by_contra hNe
    exact h.free hFree other (hTurn.others other hNe hHolds)
  refine ⟨fun _ _ => hStorage, ?_⟩
  intro one two hOne hTwo
  rw [hOnly one hOne, hOnly two hTwo]

/- It gives the lock back. -/
theorem Locked.give
    (hHolds : s.Holds who)
    (hGone : ¬ holds) :
    s'.Locked := by
  have hNone : ∀ other, ¬ s'.Holds other := by
    intro other hOther
    by_cases hSame : other = who
    · subst hSame
      exact hGone (hTurn.own hOther)
    · exact hSame
        (h.alone other who (hTurn.others other hSame hOther) hHolds)
  exact ⟨fun other hOther => absurd hOther (hNone other),
    fun other _ hOther => absurd hOther (hNone other)⟩

end Turns

------------------------------------------------------------
-- Workers' Phases
------------------------------------------------------------

variable {i : Nat}

theorem turn_setFire
    ( storageIO : Bool)
    (w : FireWork) :
    s.Turn ({ s with storageIO := storageIO }.setFire i w) (.fire i)
      w.phase.Writing where
  others := by
    intro other hNe hHolds
    cases other with
    | fire j =>
        rcases hHolds with ⟨v, hv, hPhase⟩
        rcases Lib.Heap.getElem_set hv with ⟨rfl, _⟩ | ⟨_, hOld⟩
        · exact absurd rfl hNe
        · exact ⟨v, hOld, hPhase⟩
    | result j | loader => exact hHolds
  own := by
    rintro ⟨v, hv, hPhase⟩
    rcases Lib.Heap.getElem_set hv with ⟨_, rfl⟩ | ⟨hNe, _⟩
    · exact hPhase
    · exact absurd rfl hNe

theorem turn_setResult
    ( storageIO : Bool)
    (v : ResultWork) :
    s.Turn ({ s with storageIO := storageIO }.setResult i v) (.result i)
      v.phase.Writing where
  others := by
    intro other hNe hHolds
    cases other with
    | result j =>
        rcases hHolds with ⟨u, hu, hPhase⟩
        rcases Lib.Heap.getElem_set hu with ⟨rfl, _⟩ | ⟨_, hOld⟩
        · exact absurd rfl hNe
        · exact ⟨u, hOld, hPhase⟩
    | fire j | loader => exact hHolds
  own := by
    rintro ⟨u, hu, hPhase⟩
    rcases Lib.Heap.getElem_set hu with ⟨_, rfl⟩ | ⟨hNe, _⟩
    · exact hPhase
    · exact absurd rfl hNe

theorem turn_loader
    ( storageIO : Bool)
    (p : Option LoadPhase) :
    s.Turn { s with storageIO := storageIO, loader := p } .loader
      (∃ q, p = some q ∧ q.Reading) where
  others := by
    intro other hNe hHolds
    cases other with
    | fire j | result j => exact hHolds
    | loader => exact absurd rfl hNe
  own := id

/- The workers and the loader of two states are the same. -/
theorem holds_congr
    {who : Holder}
    (hFires : s'.fires = s.fires)
    (hResults : s'.results = s.results)
    (hLoader : s'.loader = s.loader ∨ s'.loader = some .pick)
    (h : s'.Holds who) :
    s.Holds who := by
  cases who with
  | fire i =>
      unfold Holds at h ⊢
      rw [hFires] at h
      exact h
  | result i =>
      unfold Holds at h ⊢
      rw [hResults] at h
      exact h
  | loader =>
      rcases h with ⟨p, hp, hPhase⟩
      rcases hLoader with hSame | hPick
      · exact ⟨p, hSame.symm.trans hp, hPhase⟩
      · rw [hPick] at hp
        cases hp
        exact hPhase.elim

------------------------------------------------------------
-- Order
------------------------------------------------------------

/- The arms of one name in the order of the writes. -/
structure Ordered (s : Engine K) : Prop where
  locked : s.Locked
  results : ∀ v ∈ s.results, v.event.token ≤ s.nextArm
  saved : ∀ x ∈ s.saved, x.1.token ≤ s.nextArm
  newest :
    ∀ name a, s.find name = some a →
      (∀ w ∈ s.fires, w.event.name = name →
        w.event.token ≤ a.token) ∧
      (∀ v ∈ s.results, v.event.name = name →
        v.event.token ≤ a.token) ∧
      ∀ x ∈ s.saved, x.1.name = name → x.1.token ≤ a.token
  sorted :
    s.saved.Pairwise
      (fun x y => x.1.name = y.1.name → x.1.token ≤ y.1.token)
  firesNext :
    ∀ w ∈ s.fires, w.phase = .save →
      ∀ x ∈ s.saved, x.1.name = w.event.name →
        x.1.token ≤ w.event.token
  resultsNext :
    ∀ v ∈ s.results, v.phase = .save →
      ∀ x ∈ s.saved, x.1.name = v.event.name →
        x.1.token ≤ v.event.token

/-
  The workers and the saved records are left alone; arms are
  the same or newer.
-/
structure Outside (s s' : Engine K) : Prop where
  fires : s'.fires = s.fires
  results : s'.results = s.results
  saved : s'.saved = s.saved
  disk : s'.disk = s.disk
  storageIO : s'.storageIO = s.storageIO
  loader : s'.loader = s.loader ∨ s'.loader = some .pick
  nextArm : s.nextArm ≤ s'.nextArm
  arms :
    ∀ name b, s'.find name = some b →
      (∃ a, s.find name = some a ∧ b.token = a.token) ∨
        s.nextArm < b.token

namespace Outside

theorem refl
    (s : Engine K) :
    s.Outside s :=
  ⟨rfl, rfl, rfl, rfl, rfl, Or.inl rfl, Nat.le_refl _,
    fun _ b hb => Or.inl ⟨b, hb, rfl⟩⟩

theorem trans
    {t : Engine K}
    (h : s.Outside s')
    (h' : s'.Outside t) :
    s.Outside t := by
  refine ⟨h'.fires.trans h.fires, h'.results.trans h.results,
    h'.saved.trans h.saved, h'.disk.trans h.disk,
    h'.storageIO.trans h.storageIO, ?_, h.nextArm.trans h'.nextArm, ?_⟩
  · rcases h'.loader with hSame | hPick
    · rw [hSame]
      exact h.loader
    · exact Or.inr hPick
  · intro name c hc
    rcases h'.arms name c hc with ⟨b, hb, hToken'⟩ | hNew
    · rcases h.arms name b hb with ⟨a, ha, hToken⟩ | hNew
      · exact Or.inl ⟨a, ha, hToken'.trans hToken⟩
      · rw [← hToken'] at hNew
        exact Or.inr hNew
    · exact Or.inr (Nat.lt_of_le_of_lt h.nextArm hNew)

/- Only the armed timers and the queue may change. -/
theorem of_kept
    (hKept : s.Kept s')
    (hArms :
      ∀ name b, s'.find name = some b →
        ∃ a, s.find name = some a ∧ b.token = a.token) :
    s.Outside s' where
  fires := hKept.fires
  results := hKept.results
  saved := hKept.saved
  disk := hKept.disk
  storageIO := hKept.storageIO
  loader := Or.inl hKept.loader
  nextArm := Nat.le_of_eq hKept.nextArm.symm
  arms := fun name b hb => Or.inl (hArms name b hb)

variable {a b : Armed K}

theorem put
    (hFind : s.find a.name = some b)
    (hToken : a.token = b.token) :
    s.Outside (s.put a) := by
  refine ⟨rfl, rfl, rfl, rfl, rfl, Or.inl rfl, Nat.le_refl _, ?_⟩
  refine forall_put ?_ hFind (Or.inl ⟨b, hFind, hToken⟩)
  exact fun name c hc => Or.inl ⟨c, hc, rfl⟩

theorem reschedule
    [Calendar K]
    (hFind : s.find a.name = some b)
    (hToken : a.token = b.token ∨ s.nextArm < a.token) :
    s.Outside (s.rescheduleLocked a) := by
  have hKept := kept_reschedule s a
  refine ⟨hKept.fires, hKept.results, hKept.saved, hKept.disk,
    hKept.storageIO, Or.inl hKept.loader,
    Nat.le_of_eq hKept.nextArm.symm, ?_⟩
  refine forall_reschedule ?_ ?_ hFind ?_
  · intro name c c' hSame hc
    rw [hSame.token]
    exact hc
  · exact fun name c hc => Or.inl ⟨c, hc, rfl⟩
  · rcases hToken with hSame | hNew
    · exact Or.inl ⟨b, hFind, hSame⟩
    · exact Or.inr hNew

theorem arm
    [Calendar K]
    (cfg : Config)
    (spec : Spec K) :
    s.Outside (s.arm cfg spec) := by
  refine arm_rule (P := s.Outside) (.refl s) (fun t a b hNew => ?_)
  have hToken : s.nextArm < a.token := by
    rw [hNew.token]
    exact Nat.lt_succ_self _
  have hArms := hNew.forall_find
    (Q := fun name c =>
      (∃ d, s.find name = some d ∧ c.token = d.token) ∨
        s.nextArm < c.token)
    (fun name c hc => Or.inl ⟨c, hc, rfl⟩) (Or.inr hToken)
  have hKept := kept_reschedule t a
  have hFind := hNew.find
  rcases hNew.state with ⟨_, _, loader, hLoader, rfl⟩
  refine ⟨hKept.fires, hKept.results, hKept.saved, hKept.disk,
    hKept.storageIO, ?_, ?_,
    forall_reschedule ?_ hArms hFind (Or.inr hToken)⟩
  · rw [hKept.loader]
    exact hLoader
  · rw [hKept.nextArm]
    exact Nat.le_succ _
  · intro name c c' hSame hc
    rw [hSame.token]
    exact hc

theorem disarm
    (s : Engine K)
    (name : String) :
    s.Outside (s.disarm name) :=
  .of_kept (kept_disarm s name)
    (fun _ b hb => ⟨b, (find_disarm hb).1, rfl⟩)

theorem noteActive
    [Calendar K]
    (unit : String)
    (when : Time)
    (s : Engine K)
    (name : String) :
    s.Outside (Engine.noteActive unit when s name) :=
  noteActive_rule (P := s.Outside) (.refl s)
    (fun a hFind _ _ => reschedule (b := a) hFind (Or.inl rfl))

theorem replan
    [Calendar K]
    (s : Engine K)
    (name : String) :
    s.Outside (s.replan name) :=
  replan_rule (P := s.Outside) (.refl s)
    (fun a hFind => put (b := a) hFind rfl)
    (fun _ hFind _ => reschedule hFind (Or.inl rfl))

theorem retry
    [Calendar K]
    (s : Engine K)
    (event : Fire) :
    s.Outside (s.retry event) :=
  retry_rule (P := s.Outside) (.refl s)
    (fun a _ hFind _ _ => reschedule (b := a) hFind (Or.inl rfl))

theorem planMove
    [Calendar K]
    (hMove : PlanMove s s') :
    s.Outside s' := by
  refine .of_kept (kept_planMove hMove) ?_
  cases hMove with
  | pick => exact fun _ b hb => ⟨b, hb, rfl⟩
  | publish name ref gen clockGen found =>
      refine planPublish_rule
        (P := fun t => ∀ name b, t.find name = some b →
          ∃ a, s.find name = some a ∧ b.token = a.token)
        (fun _ b hb => ⟨b, hb, rfl⟩) ?_
      intro a item pq items k hFind _
      refine forall_put (b := a) ?_ hFind ⟨a, hFind, rfl⟩
      exact fun _ b hb => ⟨b, hb, rfl⟩

theorem fireDone
    [Calendar K]
    (s : Engine K)
    (w : FireWork) :
    s.Outside (s.fireDone w) := by
  have hLess : s.Outside { s with activeFires := s.activeFires - 1 } :=
    ⟨rfl, rfl, rfl, rfl, rfl, Or.inl rfl, Nat.le_refl _,
      fun _ b hb => Or.inl ⟨b, hb, rfl⟩⟩
  refine fireDone_rule (P := s.Outside) hLess ?_
  rintro a _ error rfl _ hFind _ _
  exact ⟨hLess.trans (reschedule hFind (Or.inl rfl)),
    fun _ => hLess.trans (put hFind rfl)⟩

theorem applyResult
    (s : Engine K)
    (w : ResultWork) :
    s.Outside (s.applyResult w) :=
  applyResult_rule (P := s.Outside) (.refl s)
    (fun a hFind _ _ _ => put (b := a) hFind rfl)

/- After a write the lock is free, and the rest is as before. -/
theorem persistSettle
    [Calendar K]
    (s : Engine K)
    (event : Fire)
    (ref : Nat)
    (err : Option String) :
    Outside { s with storageIO := false }
      (s.persistSettle event ref err).1 :=
  persistSettle_rule (P := Outside _) (.refl _)
    (fun a _ _ hFind _ _ => reschedule (b := a) hFind (Or.inl rfl))

theorem loadApply
    [Calendar K]
    (s : Engine K)
    (name : String)
    (ref : Nat)
    (result : Except String Runtime) :
    Outside { s with storageIO := false, loader := some .pick }
      (s.loadApply name ref result) := by
  refine loadApply_rule (P := Outside _) (.refl _) ?_
  rintro a _ rfl hFind _ _ _ _
  exact reschedule hFind (Or.inl (loaded_same s.clock a result).2.1)

theorem setFire
    (h : s.Outside s')
    (i : Nat)
    (w : FireWork) :
    (s.setFire i w).Outside (s'.setFire i w) :=
  { h with fires := congrArg (fun fs => fs.set i w) h.fires }

theorem setResult
    (h : s.Outside s')
    (i : Nat)
    (v : ResultWork) :
    (s.setResult i v).Outside (s'.setResult i v) :=
  { h with results := congrArg (fun vs => vs.set i v) h.results }

end Outside

/- The arm of an event's name is not older than the event. -/
def Older (s : Engine K) (event : Fire) : Prop :=
  ∀ a, s.find event.name = some a → event.token ≤ a.token

/- The writes of an event's name are not newer than the event. -/
def Follows (s : Engine K) (event : Fire) : Prop :=
  ∀ x ∈ s.saved, x.1.name = event.name → x.1.token ≤ event.token

namespace Ordered

/- The order, worker by worker. -/
theorem of_workers
    (hLocked : s.Locked)
    (hFires :
      ∀ w ∈ s.fires, s.Older w.event ∧
        (w.phase = .save → s.Follows w.event))
    (hResults :
      ∀ v ∈ s.results, v.event.token ≤ s.nextArm ∧ s.Older v.event ∧
        (v.phase = .save → s.Follows v.event))
    (hSaved : ∀ x ∈ s.saved, x.1.token ≤ s.nextArm ∧ s.Older x.1)
    (hSorted :
      s.saved.Pairwise
        (fun x y => x.1.name = y.1.name → x.1.token ≤ y.1.token)) :
    s.Ordered where
  locked := hLocked
  results v hv := (hResults v hv).1
  saved x hx := (hSaved x hx).1
  newest := by
    intro name a ha
    refine ⟨?_, ?_, ?_⟩
    · rintro w hw rfl
      exact (hFires w hw).1 a ha
    · rintro v hv rfl
      exact (hResults v hv).2.1 a ha
    · rintro x hx rfl
      exact (hSaved x hx).2 a ha
  sorted := hSorted
  firesNext w hw := (hFires w hw).2
  resultsNext v hv := (hResults v hv).2.2

section Workers

variable (h : s.Ordered)

include h

theorem fire
    (w : FireWork)
    (hw : w ∈ s.fires) :
    s.Older w.event ∧ (w.phase = .save → s.Follows w.event) :=
  ⟨fun a ha => (h.newest _ a ha).1 w hw rfl, h.firesNext w hw⟩

theorem result
    (v : ResultWork)
    (hv : v ∈ s.results) :
    v.event.token ≤ s.nextArm ∧ s.Older v.event ∧
      (v.phase = .save → s.Follows v.event) :=
  ⟨h.results v hv, fun a ha => (h.newest _ a ha).2.1 v hv rfl,
    h.resultsNext v hv⟩

theorem save
    (x : Fire × Runtime)
    (hx : x ∈ s.saved) :
    x.1.token ≤ s.nextArm ∧ s.Older x.1 :=
  ⟨h.saved x hx, fun a ha => (h.newest _ a ha).2.2 x hx rfl⟩

theorem outside
    (hOwned : s.Owned)
    (hOutside : s.Outside s') :
    s'.Ordered := by
  have hOlder : ∀ event, event.token ≤ s.nextArm → s.Older event →
      s'.Older event := by
    intro event hBound hOld b hb
    rcases hOutside.arms event.name b hb with ⟨a, ha, hToken⟩ | hNew
    · rw [hToken]
      exact hOld a ha
    · exact hBound.trans (Nat.le_of_lt hNew)
  have hFollows : ∀ event, s.Follows event → s'.Follows event := by
    intro event hOld
    unfold Follows
    rw [hOutside.saved]
    exact hOld
  refine of_workers ?_ ?_ ?_ ?_ ?_
  · exact h.locked.fewer hOutside.storageIO
      (fun who hHolds =>
        holds_congr hOutside.fires hOutside.results hOutside.loader
          hHolds)
  · rw [hOutside.fires]
    intro w hw
    have hOld := h.fire w hw
    exact ⟨hOlder _ (hOwned.fires w hw) hOld.1,
      fun hPhase => hFollows _ (hOld.2 hPhase)⟩
  · rw [hOutside.results]
    intro v hv
    have hOld := h.result v hv
    exact ⟨hOld.1.trans hOutside.nextArm, hOlder _ hOld.1 hOld.2.1,
      fun hPhase => hFollows _ (hOld.2.2 hPhase)⟩
  · rw [hOutside.saved]
    intro x hx
    have hOld := h.save x hx
    exact ⟨hOld.1.trans hOutside.nextArm, hOlder _ hOld.1 hOld.2⟩
  · rw [hOutside.saved]
    exact h.sorted

variable {i : Nat}

/- A worker's next phase that is not the write itself. -/
theorem setFire
    {w : FireWork}
    ( storageIO : Bool)
    (hw : s.fires[i]? = some w)
    (phase : FirePhase)
    (hLocked :
      Locked
        ({ s with storageIO := storageIO }.setFire i
          { w with phase := phase }))
    (hNext : phase = .save → s.Follows w.event) :
    Ordered
      ({ s with storageIO := storageIO }.setFire i
        { w with phase := phase }) := by
  refine of_workers hLocked ?_ h.result h.save h.sorted
  intro v hv
  rcases List.mem_or_eq_of_mem_set hv with hBefore | rfl
  · exact h.fire v hBefore
  · exact ⟨(h.fire w (List.mem_of_getElem? hw)).1, hNext⟩

theorem setResult
    {v : ResultWork}
    ( storageIO : Bool)
    (hv : s.results[i]? = some v)
    (phase : ResultPhase)
    (hLocked :
      Locked
        ({ s with storageIO := storageIO }.setResult i
          { v with phase := phase }))
    (hNext : phase = .save → s.Follows v.event) :
    Ordered
      ({ s with storageIO := storageIO }.setResult i
        { v with phase := phase }) := by
  refine of_workers hLocked h.fire ?_ h.save h.sorted
  intro u hu
  rcases List.mem_or_eq_of_mem_set hu with hBefore | rfl
  · exact h.result u hBefore
  · have hOld := h.result v (List.mem_of_getElem? hv)
    exact ⟨hOld.1, hOld.2.1, hNext⟩

/- The current arm of a name is not older than its writes. -/
theorem current
    {event : Fire}
    (hMay : s.MaySave event) :
    s.Follows event := by
  unfold MaySave at hMay
  split at hMay
  · exact hMay.elim
  · rename_i a hFind
    unfold Follows
    rw [← hMay.2.1]
    exact (h.newest event.name a hFind).2.2

/- A record is written by the only one who may write. -/
theorem write
    {who : Holder}
    {event : Fire}
    (rt : Runtime)
    (disk : String → Runtime)
    (err : Option String)
    (hToken : event.token ≤ s.nextArm)
    (hOlder : s.Older event)
    (hNext : s.Follows event)
    (hHolds : s.Holds who)
    (hFire :
      ∀ j w, who = .fire j → s.fires[j]? = some w → w.event = event)
    (hResult :
      ∀ j v, who = .result j → s.results[j]? = some v →
        v.event = event) :
    Ordered
      { s with
        disk := disk
        saved := s.savedAfter event rt err } := by
  have hFollows :
      ∀ x ∈ s.savedAfter event rt err, x.1.name = event.name →
        x.1.token ≤ event.token := by
    unfold savedAfter
    split
    · exact List.forall_mem_append.mpr
        ⟨hNext, List.forall_mem_singleton.mpr (fun _ => Nat.le_refl _)⟩
    · exact hNext
  refine of_workers { h.locked with } ?_ ?_ ?_ ?_
  · intro w hw
    refine ⟨(h.fire w hw).1, fun hSave => ?_⟩
    rcases List.mem_iff_getElem?.mp hw with ⟨j, hj⟩
    have hSame :=
      h.locked.alone who (.fire j) hHolds ⟨w, hj, by rw [hSave]; trivial⟩
    rw [hFire j w hSame hj]
    exact hFollows
  · intro v hv
    have hOld := h.result v hv
    refine ⟨hOld.1, hOld.2.1, fun hSave => ?_⟩
    rcases List.mem_iff_getElem?.mp hv with ⟨j, hj⟩
    have hSame :=
      h.locked.alone who (.result j) hHolds
        ⟨v, hj, by rw [hSave]; trivial⟩
    rw [hResult j v hSame hj]
    exact hFollows
  · unfold savedAfter
    split
    · exact List.forall_mem_append.mpr
        ⟨h.save, List.forall_mem_singleton.mpr ⟨hToken, hOlder⟩⟩
    · exact h.save
  · unfold savedAfter
    split
    · rw [List.pairwise_append]
      refine ⟨h.sorted, List.pairwise_singleton _ _, ?_⟩
      intro y hy z hz hName
      rw [List.mem_singleton.mp hz] at hName ⊢
      exact hNext y hy hName
    · exact h.sorted

end Workers

variable {i : Nat}
variable {w : FireWork}
variable {v : ResultWork}

theorem launch
    [Calendar K]
    {a : Armed K}
    (cfg : Config)
    (due : DueTimer)
    (actual : Time)
    (h : s.Ordered)
    (hOwned : s.Owned)
    (hFind : s.find a.name = some a) :
    (s.launch cfg a due actual).Ordered := by
  have hEvent :=
    Owned.accept_event cfg due actual (hOwned.arms a.name a hFind)
  rcases launch_eq cfg s a due actual with
    ⟨rt, a', n, event, pq, items, k, g, p, rfl, _, hSame, hEq⟩
  have hName := hSame.name
  have hPut : s.Outside (s.put a') := by
    refine .put (b := a) ?_ hSame.token
    rw [hName]
    exact hFind
  have hNext := h.outside hOwned hPut
  rw [hEq]
  refine of_workers ?_ ?_ hNext.result hNext.save hNext.sorted
  · refine h.locked.fewer rfl ?_
    intro who hHolds
    cases who with
    | fire i =>
        rcases hHolds with ⟨w, hw, hPhase⟩
        rcases Lib.Heap.getElem_snoc hw with hOld | ⟨_, rfl⟩
        · exact ⟨w, hOld, hPhase⟩
        · exact hPhase.elim
    | result i | loader => exact hHolds
  · refine List.forall_mem_append.mpr
      ⟨hNext.fire, List.forall_mem_singleton.mpr ⟨?_, nofun⟩⟩
    -- the event has the token of the arm
    intro b hb
    have hSelf : (s.put a').find a'.name = some a' := by
      refine find_put_self (b := a) ?_
      rw [hName]
      exact hFind
    change (s.put a').find _ = some b at hb
    rw [hEvent.2, ← hName, hSelf] at hb
    cases hb
    exact Nat.le_of_eq (hEvent.1.trans hSame.token.symm)

variable {cfg : Config}

section

variable (h : s.Ordered)
variable (hOwned : s.Owned)

include h hOwned

theorem consume
    [Calendar K]
    {now : Time}
    {due : DueTimer}
    {a : Armed K}
    (hPopped : Popped s now due s' a) :
    (s'.consumeLocked cfg due now).Ordered := by
  have hPut : s.Outside s' := by
    have hFind := hPopped.own
    rcases hPopped.after with ⟨pq, rfl⟩
    have hQueue : s.Outside { s with pq := pq } :=
      ⟨rfl, rfl, rfl, rfl, rfl, Or.inl rfl, Nat.le_refl _,
        fun _ b hb => Or.inl ⟨b, hb, rfl⟩⟩
    exact hQueue.trans (.put (b := a) hFind rfl)
  have h' := h.outside hOwned hPut
  exact hPopped.consume_rule h' (fun _ hFound =>
    h'.launch cfg due now (hOwned.popped hPopped) hFound)

theorem fireMove
    [Calendar K]
    (hw : s.fires[i]? = some w)
    (hMove : FireMove cfg s i w s') :
    s'.Ordered := by
  have hMem := List.mem_of_getElem? hw
  have hHolds : w.phase.Writing → s.Holds (.fire i) :=
    fun hPhase => ⟨w, hw, hPhase⟩
  -- a phase in which the worker holds nothing
  have hStep : ∀ phase : FirePhase, ¬ phase.Writing →
      Ordered (s.setFire i { w with phase := phase }) := by
    intro phase hPhase
    refine h.setFire s.storageIO hw phase ?_ ?_
    · exact h.locked.turn (turn_setFire _ _) rfl
        (fun hWriting => absurd hWriting hPhase)
    · rintro rfl
      exact absurd trivial hPhase
  -- the end of a write
  have hSettle : ∀ (phase : FirePhase) (err : Option String),
      w.phase = .settle err → ¬ phase.Writing →
      Ordered ((s.persistSettle w.event w.ref err).1.setFire i
        { w with phase := phase }) := by
    intro phase err hOld hPhase
    have hFree := h.setFire false hw phase
      (h.locked.give (turn_setFire _ _)
        (hHolds (by rw [hOld]; trivial)) hPhase)
      (by rintro rfl; exact absurd trivial hPhase)
    refine hFree.outside ?_
      ((Outside.persistSettle s w.event w.ref err).setFire i _)
    have hSet := hOwned.setFire hw (by rw [hOld]; simp) phase
    exact { hSet with }
  cases hMove with
  | hold hPhase hFree hMay =>
      exact h.setFire true hw .save
        (h.locked.take (turn_setFire _ _) hFree rfl)
        (fun _ => h.current hMay)
  | pass | late | back => exact hStep .finish id
  | save r disk err hPhase hSave =>
      have hOwn := hHolds (by rw [hPhase]; trivial)
      have hOld := h.fire w hMem
      have hWritten := h.write w.rt disk err
        (hOwned.fires w hMem) hOld.1 (hOld.2 hPhase) hOwn
        (by
          rintro j u ⟨⟩ hu
          rw [hw] at hu
          cases hu
          rfl)
        (fun _ _ hWho => by cases hWho)
      have hLocked := hWritten.locked.turn
        (turn_setFire s.storageIO { w with phase := .settle err }) rfl
        (fun _ => hOwn)
      exact hWritten.setFire s.storageIO hw (.settle err) hLocked nofun
  | ready err hPhase => exact hSettle .current err hPhase id
  | drop err hPhase => exact hSettle .finish err hPhase id
  | call => exact hStep .calling id
  | done hPhase =>
      exact (hStep .done id).outside
        (hOwned.setFire hw (by rw [hPhase]; simp) .done)
        ((Outside.fireDone s w).setFire i _)

theorem resultMove
    [Calendar K]
    (hv : s.results[i]? = some v)
    (hMove : ResultMove cfg s i v s') :
    s'.Ordered := by
  have hMem := List.mem_of_getElem? hv
  have hHolds : v.phase.Writing → s.Holds (.result i) :=
    fun hPhase => ⟨v, hv, hPhase⟩
  have hStep : ∀ phase : ResultPhase, ¬ phase.Writing →
      Ordered (s.setResult i { v with phase := phase }) := by
    intro phase hPhase
    refine h.setResult s.storageIO hv phase ?_ ?_
    · exact h.locked.turn (turn_setResult _ _) rfl
        (fun hWriting => absurd hWriting hPhase)
    · rintro rfl
      exact absurd trivial hPhase
  have hSettle : ∀ (phase : ResultPhase) (err : Option String),
      v.phase = .settle err → ¬ phase.Writing →
      Ordered ((s.persistSettle v.event v.ref err).1.setResult i
        { v with phase := phase }) := by
    intro phase err hOld hPhase
    have hFree := h.setResult false hv phase
      (h.locked.give (turn_setResult _ _)
        (hHolds (by rw [hOld]; trivial)) hPhase)
      (by rintro rfl; exact absurd trivial hPhase)
    exact hFree.outside { hOwned with }
      ((Outside.persistSettle s v.event v.ref err).setResult i _)
  cases hMove with
  | hold hPhase hFree hMay =>
      exact h.setResult true hv .save
        (h.locked.take (turn_setResult _ _) hFree rfl)
        (fun _ => h.current hMay)
  | pass => exact hStep .done id
  | save r disk err hPhase hSave =>
      have hOwn := hHolds (by rw [hPhase]; trivial)
      have hOld := h.result v hMem
      have hWritten := h.write v.rt disk err
        hOld.1 hOld.2.1 (hOld.2.2 hPhase) hOwn
        (fun _ _ hWho => by cases hWho)
        (by
          rintro j u ⟨⟩ hu
          rw [hv] at hu
          cases hu
          rfl)
      have hLocked := hWritten.locked.turn
        (turn_setResult s.storageIO { v with phase := .settle err }) rfl
        (fun _ => hOwn)
      exact hWritten.setResult s.storageIO hv (.settle err) hLocked nofun
  | ready err hPhase => exact hSettle .apply err hPhase id
  | drop err hPhase => exact hSettle .done err hPhase id
  | apply hPhase =>
      exact (hStep .done id).outside { hOwned with }
        ((Outside.applyResult s v).setResult i _)

theorem loadMove
    [Calendar K]
    (hMove : LoadMove cfg s s') :
    s'.Ordered := by
  have hStep : ∀ ( storageIO : Bool) (p : Option LoadPhase),
      Locked { s with storageIO := storageIO, loader := p } →
      Ordered { s with storageIO := storageIO, loader := p } :=
    fun _ _ hLocked =>
      of_workers hLocked h.fire h.result h.save h.sorted
  cases hMove with
  | pick | exit | pass =>
      refine hStep s.storageIO _ (h.locked.turn (turn_loader _ _) rfl ?_)
      rintro ⟨q, hq, hReading⟩
      cases hq
      try exact hReading.elim
  | hold name ref hLoader hFree hLoading =>
      exact hStep true _ (h.locked.take (turn_loader _ _) hFree rfl)
  | read name ref r result hLoader hLoad =>
      exact hStep s.storageIO _ (h.locked.turn (turn_loader _ _) rfl
        (fun _ => ⟨.read name ref, hLoader, trivial⟩))
  | apply name ref result hLoader =>
      have hFree := hStep false (some .pick)
        (h.locked.give (turn_loader _ _)
          ⟨.apply name ref result, hLoader, trivial⟩
          (by rintro ⟨q, ⟨⟩, hReading⟩; exact hReading))
      exact hFree.outside { hOwned with }
        (.loadApply s name ref result)

/- A call that begins to record a result holds nothing yet. -/
theorem recordResult
    (event : Fire)
    (success : Bool) :
    (s.recordResult event success).Ordered := by
  rcases recordResult_cases s event success with
    hEq | ⟨a, rt, hFind, hToken, _, _, _, hEq⟩
  · rw [hEq]
    exact h
  · rw [hEq]
    refine of_workers ?_ h.fire ?_ h.save h.sorted
    · refine h.locked.fewer rfl ?_
      intro who hWho
      cases who with
      | result i =>
          rcases hWho with ⟨v, hv, hPhase⟩
          rcases Lib.Heap.getElem_snoc hv with hOld | ⟨_, rfl⟩
          · exact ⟨v, hOld, hPhase⟩
          · exact hPhase.elim
      | fire i | loader => exact hWho
    · refine List.forall_mem_append.mpr
        ⟨h.result, List.forall_mem_singleton.mpr ⟨?_, ?_, nofun⟩⟩
      · dsimp only
        rw [← hToken]
        exact (hOwned.arms event.name a hFind).token
      · intro b hb
        have hb' : s.find event.name = some b := hb
        rw [hFind] at hb'
        cases hb'
        exact Nat.le_of_eq hToken.symm

/- Every step keeps the order of the writes. -/
theorem step
    [Calendar K]
    {l : Label K}
    (hInstalled : s.Installed)
    (hStep : s.step cfg l = some s') :
    s'.Ordered := by
  have hNext := hOwned.step hInstalled hStep
  -- a change that is neither of a worker nor of an arm
  have hSame : ∀ (t : Engine K) clock clockGen running,
      t.Owned → t.Ordered →
      Ordered
        { t with
          clock := clock
          clockGen := clockGen
          running := running } :=
    fun t _ _ _ hOwns hOrders => hOrders.outside hOwns
      ⟨rfl, rfl, rfl, rfl, rfl, Or.inl rfl, Nat.le_refl _,
        fun _ b hb => Or.inl ⟨b, hb, rfl⟩⟩
  refine (Carries.step (P := fun t => t.Owned ∧ t.Ordered) ?_
    hInstalled.dropStale ⟨hOwned, h⟩ hStep).2
  exact
    { set := fun t clock clockGen ht _ =>
        ⟨{ ht.1 with },
          hSame t clock clockGen t.running ht.1 ht.2⟩
      stop :=
        ⟨{ hOwned with },
          hSame s s.clock s.clockGen false hOwned h⟩
      arm := fun spec _ =>
        ⟨hOwned.arm cfg spec, h.outside hOwned (.arm cfg spec)⟩
      disarm := fun t name ht _ =>
        ⟨ht.1.disarm name, ht.2.outside ht.1 (.disarm t name)⟩
      note := fun _ t _ name ht _ =>
        ⟨ht.1.noteActive _ _ name,
          ht.2.outside ht.1 (.noteActive _ _ t name)⟩
      fireDue := fun _ ht =>
        (fireDue_rule (P := fun u => u.Owned ∧ u.Ordered) cfg
          (fun u due u' a _ hU _ hPopped _ =>
            ⟨hU.1.consume hPopped, hU.2.consume hU.1 hPopped⟩)
          (hInstalled.ticked _) ht).1
      replan := fun t name ht =>
        ⟨ht.1.replan name, ht.2.outside ht.1 (.replan t name)⟩
      retry := fun event _ =>
        ⟨hOwned.retry event, h.outside hOwned (.retry s event)⟩
      record := fun event success hLabel => by
        subst hLabel
        cases hStep
        exact ⟨hNext, h.recordResult hOwned event success⟩
      plan := fun hPlan =>
        ⟨hNext, h.outside hOwned (.planMove (planStep_move hPlan))⟩
      load := fun _ _ _ hMove => ⟨hNext, h.loadMove hOwned hMove⟩
      fire := fun _ _ hw hMove => ⟨hNext, h.fireMove hOwned hw hMove⟩
      result := fun _ _ hv hMove =>
        ⟨hNext, h.resultMove hOwned hv hMove⟩ }

end

theorem of_reachable
    [Calendar K]
    (h : (timing K cfg).Reachable s) :
    s.Ordered := by
  refine Lib.System.reachable_invariant ?_ ?_ h
  · rintro t ⟨clock, disk, _, rfl⟩
    refine ⟨⟨?_, ?_⟩, by simp [start], by simp [start], ?_,
      List.Pairwise.nil, by simp [start], by simp [start]⟩
    · intro who hWho
      cases who <;> simp [Holds, start] at hWho
    · intro who _ hWho
      cases who <;> simp [Holds, start] at hWho
    · intro name a hFind
      cases hFind
  · intro t l t' hReach hOrdered hStep
    exact Ordered.step (s := t) hOrdered (.of_reachable hReach)
      (.of_reachable hReach) hStep

end Ordered

------------------------------------------------------------
-- Records On The Disk
------------------------------------------------------------

/-
  What a step does to the stored records: nothing, or one write,
  which is saved or has failed after it replaced the record.
-/
inductive Wrote (s s' : Engine K) : Prop where
| nothing :
    s'.disk = s.disk → s'.saved = s.saved → Wrote s s'
| saved (event : Fire) (rt : Runtime) :
    s'.disk = Function.update s.disk event.name rt.persisted →
    s'.saved = s.saved ++ [(event, rt)] → Wrote s s'
| torn (event : Fire) (rt : Runtime) :
    s'.disk = Function.update s.disk event.name rt.persisted →
    s'.saved = s.saved → Wrote s s'

theorem Wrote.congr
    {t t' : Engine K}
    (h : Wrote s t)
    (hDisk : t'.disk = t.disk)
    (hSaved : t'.saved = t.saved) :
    Wrote s t' := by
  cases h with
  | nothing hOld hNone =>
      exact .nothing (hDisk.trans hOld) (hSaved.trans hNone)
  | saved event rt hNew hOne =>
      exact .saved event rt (hDisk.trans hNew) (hSaved.trans hOne)
  | torn event rt hNew hNone =>
      exact .torn event rt (hDisk.trans hNew) (hSaved.trans hNone)

theorem Wrote.outside
    {t t' : Engine K}
    (h : Wrote s t)
    (hOutside : t.Outside t') :
    Wrote s t' :=
  h.congr hOutside.disk hOutside.saved

theorem wrote_save
    {cfg : Config}
    {event : Fire}
    {rt : Runtime}
    {r : StoreResult}
    {disk : String → Runtime}
    {err : Option String}
    (hStored : cfg.stored = true)
    (h :
      s.save cfg event.name rt r = some ({ s with disk := disk }, err)) :
    Wrote s
      { s with disk := disk, saved := s.savedAfter event rt err } := by
  have hDisk : ∀ {t : Engine K}, t = { s with disk := disk } →
      disk = t.disk := fun hEq => (congrArg Engine.disk hEq).symm
  unfold save at h
  simp only [hStored, Bool.true_eq_false, ↓reduceIte] at h
  split at h
  · rcases Prod.mk.inj (Option.some.inj h) with ⟨hEq, rfl⟩
    exact .nothing (hDisk hEq) rfl
  · rcases Prod.mk.inj (Option.some.inj h) with ⟨hEq, rfl⟩
    exact .saved event rt (hDisk hEq) rfl
  · split at h
    · cases h
    · split at h
      · rcases Prod.mk.inj (Option.some.inj h) with ⟨hEq, rfl⟩
        exact .torn event rt (hDisk hEq) rfl
      · rcases Prod.mk.inj (Option.some.inj h) with ⟨hEq, rfl⟩
        exact .nothing (hDisk hEq) rfl

/- A launch leaves the records to its worker. -/
theorem Wrote.fireDue
    [Calendar K]
    {t : Engine K}
    (h : Wrote s t)
    (hInstalled : t.Installed)
    (cfg : Config) :
    Wrote s (t.fireDueLocked cfg) := by
  refine (fireDue_rule (P := Wrote s) cfg ?_ hInstalled h).1
  intro u due t' a _ ht _ hPopped _
  have ht' : Wrote s t' := by
    rcases hPopped.after with ⟨pq, rfl⟩
    exact ht.congr rfl rfl
  refine hPopped.consume_rule ht' (fun _ _ => ?_)
  rcases launch_eq cfg t' { a with item := none } due t.clock.now with
    ⟨_, _, _, _, _, _, _, _, _, _, _, _, hEq⟩
  rw [hEq]
  exact ht'.congr rfl rfl

/- Every step writes one record at most. -/
theorem wrote_step
    [Calendar K]
    {cfg : Config}
    {l : Label K}
    (hStored : cfg.stored = true)
    (hInstalled : s.Installed)
    (hStep : s.step cfg l = some s') :
    Wrote s s' := by
  have hNothing : Wrote s s := .nothing rfl rfl
  have hSettle : ∀ event ref err,
      Wrote s (s.persistSettle event ref err).1 := fun event ref err =>
    Wrote.outside (t := { s with storageIO := false })
      (.nothing rfl rfl) (.persistSettle s event ref err)
  refine Carries.step ?_ hInstalled.dropStale hNothing hStep
  exact
    { set := fun _ _ _ ht _ => ht.congr rfl rfl
      stop := .nothing rfl rfl
      arm := fun spec _ => hNothing.outside (.arm cfg spec)
      disarm := fun t name ht _ => ht.outside (.disarm t name)
      note := fun _ t _ name ht _ =>
        ht.outside (.noteActive _ _ t name)
      fireDue := fun _ ht => ht.fireDue (hInstalled.ticked _) cfg
      replan := fun t name ht => ht.outside (.replan t name)
      retry := fun event _ => hNothing.outside (.retry s event)
      record := fun event success _ => by
        rcases recordResult_eq s event success with ⟨results, hEq⟩
        rw [hEq]
        exact .nothing rfl rfl
      plan := fun hPlan =>
        hNothing.outside (.planMove (planStep_move hPlan))
      load := fun _ _ _ hMove => by
        cases hMove with
        | pick | exit | hold | pass | read => exact .nothing rfl rfl
        | apply name ref result =>
            exact Wrote.outside
              (t := { s with storageIO := false, loader := some .pick })
              (.nothing rfl rfl) (.loadApply s name ref result)
      fire := fun i w _ hMove => by
        cases hMove with
        | hold | pass | call | late | back => exact .nothing rfl rfl
        | save r disk err _ hSave =>
            exact (wrote_save hStored hSave).congr rfl rfl
        | ready err | drop err => exact (hSettle _ _ err).congr rfl rfl
        | done => exact (hNothing.outside (.fireDone s w)).congr rfl rfl
      result := fun i v _ hMove => by
        cases hMove with
        | hold | pass => exact .nothing rfl rfl
        | save r disk err _ hSave =>
            exact (wrote_save hStored hSave).congr rfl rfl
        | ready err | drop err => exact (hSettle _ _ err).congr rfl rfl
        | apply =>
            exact (hNothing.outside (.applyResult s v)).congr rfl rfl }

end Engine

end Timers

end Winunitd
