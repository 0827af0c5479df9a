import Winunitd.Timers.Steps

/-
  The heap holds the deadlines of the armed timers.

  Every item of the heap is the item of the armed timer of its
  name, with that timer's generation, and a timer that is being
  planned, loaded or is suspended has none.  Between the removal
  of a deadline and the next plan one timer is out of the heap;
  `Queued` says so for both.

  Key definitions include:
    * `Queued`
    * `Engine.Installed`

  Key theorems include:
    * `Engine.Installed.reschedule`
    * `Engine.Installed.popDue`
    * `Engine.Installed.step`
-/

------------------------------------------------------------
-- Queues
------------------------------------------------------------

namespace Winunitd

namespace Timers

variable {K : Type}

/-
  The heap has the deadlines of the armed timers, except for
  the timer `out`.
-/
structure Queued
    (arms : String → Option (Armed K))
    (pq : Lib.Heap Nat)
    (items : Nat → PqItem)
    (nextItem : Nat)
    (out : Option String) : Prop where
  indexed : pq.Indexed
  fresh : ∀ it ∈ pq.arr, it < nextItem
  owned :
    ∀ it ∈ pq.arr, out ≠ some (items it).name ∧
      ∃ a, arms (items it).name = some a ∧ a.item = some it ∧
        (items it).gen = a.gen
  listed :
    ∀ name a it, out ≠ some name → arms name = some a →
      a.item = some it → it ∈ pq.arr ∧ (items it).name = name

namespace Queued

variable {arms arms' : String → Option (Armed K)}
variable {pq : Lib.Heap Nat}
variable {items : Nat → PqItem}
variable {nextItem : Nat}
variable {name : String}

/- An object of the heap stands where it says. -/
theorem getElem_pos
    (h : pq.Indexed)
    {it : Nat}
    (hMem : it ∈ pq.arr) :
    0 ≤ pq.pos it ∧ pq.arr[(pq.pos it).toNat]? = some it := by
  rcases List.mem_iff_getElem?.mp hMem with ⟨i, hi⟩
  rw [h i it hi]
  exact ⟨Int.natCast_nonneg i, hi⟩

/- Without its item the timer is out. -/
theorem remove
    (h : Queued arms pq items nextItem none)
    (less : Nat → Nat → Bool)
    {a : Armed K}
    {it i : Nat}
    (hArm : arms name = some a)
    (hItem : a.item = some it)
    (hi : pq.arr[i]? = some it) :
    ∃ pq', pq.remove less i = (some it, pq') ∧
      Queued arms pq' items nextItem (some name) := by
  rcases Lib.Heap.remove_spec h.indexed less hi with
    ⟨pq', hRemove, hIndexed, hPerm⟩
  have hMem : ∀ x ∈ pq'.arr, x ∈ pq.arr ∧ x ≠ it := by
    intro x hx
    have hNodup := hPerm.nodup_iff.mp h.indexed.nodup
    refine ⟨hPerm.mem_iff.mpr (List.mem_cons_of_mem _ hx), ?_⟩
    rintro rfl
    exact (List.nodup_cons.mp hNodup).1 hx
  refine ⟨pq', hRemove, ⟨hIndexed, ?_, ?_, ?_⟩⟩
  · intro x hx
    exact h.fresh x (hMem x hx).1
  · intro x hx
    rcases h.owned x (hMem x hx).1 with ⟨_, b, hb, hbItem, hGen⟩
    refine ⟨?_, b, hb, hbItem, hGen⟩
    intro hName
    rw [← Option.some.inj hName, hArm] at hb
    cases hb
    rw [hItem] at hbItem
    exact (hMem x hx).2 (Option.some.inj hbItem).symm
  · intro m b x hOut hb hbItem
    rcases h.listed m b x (by simp) hb hbItem with ⟨hx, hName⟩
    refine ⟨?_, hName⟩
    rcases List.mem_cons.mp (hPerm.mem_iff.mp hx) with rfl | hRest
    · have hOwn := h.listed name a x (by simp) hArm hItem
      exact absurd (congrArg some (hOwn.2.symm.trans hName)) hOut
    · exact hRest

/- A timer that is out and has no item. -/
theorem settle
    (h : Queued arms pq items nextItem (some name))
    (hOthers : ∀ m, m ≠ name → arms' m = arms m)
    (hNone : ∀ a, arms' name = some a → a.item = none) :
    Queued arms' pq items nextItem none := by
  refine ⟨h.indexed, h.fresh, ?_, ?_⟩
  · intro it hIt
    rcases h.owned it hIt with ⟨hOut, a, ha, hItem, hGen⟩
    refine ⟨by simp, a, ?_, hItem, hGen⟩
    rw [hOthers _ (fun hEq => hOut (congrArg some hEq.symm))]
    exact ha
  · intro m a it _ ha hItem
    by_cases hm : m = name
    · subst hm
      rw [hNone a ha] at hItem
      cases hItem
    · rw [hOthers m hm] at ha
      exact h.listed m a it (fun hEq => hm (Option.some.inj hEq).symm)
        ha hItem

/- A timer that is out gets a new item. -/
theorem enqueue
    {less : Nat → Nat → Bool}
    {when : Time}
    {gen : Nat}
    {a : Armed K}
    (h : Queued arms pq items nextItem (some name))
    (hOthers : ∀ m, m ≠ name → arms' m = arms m)
    (hArm : arms' name = some a)
    (hItem : a.item = some nextItem)
    (hGen : gen = a.gen) :
    Queued arms' (pq.push less nextItem)
      (Function.update items nextItem
        { name := name, when := when, gen := gen })
      (nextItem + 1) none := by
  have hNew : nextItem ∉ pq.arr := fun hMem =>
    Nat.lt_irrefl _ (h.fresh nextItem hMem)
  have hMem := fun it =>
    (Lib.Heap.push_perm less pq nextItem).mem_iff (a := it)
  have hOld :
      ∀ it ∈ pq.arr,
        Function.update items nextItem
          { name := name, when := when, gen := gen } it = items it := by
    intro it hIt
    have hNe : it ≠ nextItem := by
      rintro rfl
      exact hNew hIt
    exact Function.update_of_ne hNe _ _
  refine ⟨h.indexed.push less hNew, ?_, ?_, ?_⟩
  · intro it hIt
    rcases List.mem_cons.mp ((hMem it).mp hIt) with rfl | hIn
    · exact Nat.lt_succ_self _
    · exact Nat.lt_succ_of_lt (h.fresh it hIn)
  · intro it hIt
    refine ⟨by simp, ?_⟩
    rcases List.mem_cons.mp ((hMem it).mp hIt) with rfl | hIn
    · rw [Function.update_self]
      exact ⟨a, hArm, hItem, hGen⟩
    · rw [hOld it hIn]
      rcases h.owned it hIn with ⟨hOut, b, hb, hbItem, hbGen⟩
      refine ⟨b, ?_, hbItem, hbGen⟩
      rw [hOthers _ (fun hEq => hOut (congrArg some hEq.symm))]
      exact hb
  · intro m b it _ hb hbItem
    by_cases hm : m = name
    · subst hm
      rw [hArm] at hb
      cases hb
      rw [hItem] at hbItem
      cases hbItem
      exact ⟨(hMem _).mpr List.mem_cons_self,
        by rw [Function.update_self]⟩
    · rw [hOthers m hm] at hb
      rcases h.listed m b it (fun hEq => hm (Option.some.inj hEq).symm)
          hb hbItem with ⟨hIn, hName⟩
      refine ⟨(hMem it).mpr (List.mem_cons_of_mem _ hIn), ?_⟩
      rw [hOld it hIn]
      exact hName

/- Timers whose items and generations are the same. -/
theorem congr
    (h : Queued arms pq items nextItem none)
    (hKept :
      ∀ m a it, arms m = some a → a.item = some it →
        ∃ a', arms' m = some a' ∧ a'.item = some it ∧
          a'.gen = a.gen)
    (hOld :
      ∀ m a' it, arms' m = some a' → a'.item = some it →
        ∃ a, arms m = some a ∧ a.item = some it) :
    Queued arms' pq items nextItem none := by
  refine ⟨h.indexed, h.fresh, ?_, ?_⟩
  · intro it hIt
    rcases h.owned it hIt with ⟨hOut, a, ha, hItem, hGen⟩
    rcases hKept _ a it ha hItem with ⟨a', ha', hItem', hGen'⟩
    exact ⟨hOut, a', ha', hItem', hGen.trans hGen'.symm⟩
  · intro m a' it hOut ha' hItem
    rcases hOld m a' it ha' hItem with ⟨a, ha, hSame⟩
    exact h.listed m a it hOut ha hSame

end Queued

------------------------------------------------------------
-- Plans
------------------------------------------------------------

namespace Engine

variable {s : Engine K}

/- A timer without a plan has no deadline. -/
structure Settled (a : Armed K) : Prop where
  idle :
    a.planning = true ∨ a.loading = true ∨ a.storageError ≠ "" →
      a.item = none
  planned :
    a.planning = true → a.loading = false ∧ a.storageError = ""

/- The heap holds the deadlines of the armed timers. -/
structure Installed (s : Engine K) : Prop where
  names : s.names.Nodup
  queue : Queued s.find s.pq s.items s.nextItem none
  settled :
    s.running = true → ∀ name a, s.find name = some a → Settled a

/- It holds those of all but one timer. -/
structure Opened (s : Engine K) (out : String) : Prop where
  names : s.names.Nodup
  queue : Queued s.find s.pq s.items s.nextItem (some out)
  settled :
    s.running = true →
      ∀ name a, name ≠ out → s.find name = some a → Settled a

/- Taking a timer's deadline off the heap. -/
theorem Installed.dequeue
    (h : s.Installed)
    {a b : Armed K}
    (hFind : s.find a.name = some b)
    (hItem : a.item = b.item) :
    Opened { s with pq := s.dequeued a } a.name := by
  refine ⟨h.names, ?_, fun hRun name c _ => h.settled hRun name c⟩
  show Queued s.find (s.dequeued a) s.items s.nextItem (some a.name)
  unfold dequeued
  split
  · rename_i hNone
    refine ⟨h.queue.indexed, h.queue.fresh, ?_, ?_⟩
    · intro it hIt
      rcases h.queue.owned it hIt with ⟨_, c, hc, hcItem, hGen⟩
      refine ⟨?_, c, hc, hcItem, hGen⟩
      intro hName
      rw [← Option.some.inj hName, hFind] at hc
      cases hc
      rw [← hItem, hNone] at hcItem
      cases hcItem
    · intro m c it _ hc hcItem
      exact h.queue.listed m c it (by simp) hc hcItem
  · rename_i it hSome
    have hbItem : b.item = some it := hItem.symm.trans hSome
    rcases h.queue.listed a.name b it (by simp) hFind hbItem with
      ⟨hMem, _⟩
    have hPos := Queued.getElem_pos h.queue.indexed hMem
    rcases h.queue.remove (less s.items) hFind hbItem hPos.2 with
      ⟨pq', hRemove, hQueued⟩
    dsimp only
    rw [if_pos hPos, hRemove]
    exact hQueued

namespace Opened

/- Writing back a timer that has lost its deadline. -/
theorem put
    {a b : Armed K}
    (h : s.Opened a.name)
    (hFind : s.find a.name = some b)
    (hNone : a.item = none)
    (hSettled : s.running = true → Settled a) :
    (s.put a).Installed := by
  have hOwn := find_put_self hFind
  refine ⟨?_, ?_, ?_⟩
  · rw [names_put]
    exact h.names
  · refine h.queue.settle ?_ ?_
    · intro m hm
      exact find_put_ne hm
    · intro c hc
      rw [hOwn] at hc
      cases hc
      exact hNone
  · intro hRun name c hc
    by_cases hName : name = a.name
    · subst hName
      rw [hOwn] at hc
      cases hc
      exact hSettled hRun
    · rw [find_put_ne hName] at hc
      exact h.settled hRun name c hName hc

/- Writing back a timer with a new deadline. -/
theorem enqueue
    {a b : Armed K}
    {when : Time}
    (h : s.Opened a.name)
    (hFind : s.find a.name = some b)
    (hReady :
      a.planning = false ∧ a.loading = false ∧ a.storageError = "") :
    ((s.enqueue a when a.gen).1.put
      (s.enqueue a when a.gen).2).Installed := by
  have hOther :
      ∀ m, m ≠ a.name →
        ((s.enqueue a when a.gen).1.put
          (s.enqueue a when a.gen).2).find m = s.find m := by
    intro m hm
    rw [find_put_ne (a := (s.enqueue a when a.gen).2) hm]
    rfl
  have hOwn :
      ((s.enqueue a when a.gen).1.put
          (s.enqueue a when a.gen).2).find a.name =
        some (s.enqueue a when a.gen).2 :=
    find_put_self (a := (s.enqueue a when a.gen).2) (b := b) hFind
  refine ⟨?_, ?_, ?_⟩
  · rw [names_put]
    exact h.names
  · exact h.queue.enqueue hOther hOwn rfl rfl
  · intro hRun name c hc
    by_cases hName : name = a.name
    · subst hName
      rw [hOwn] at hc
      cases hc
      refine ⟨?_, ?_⟩
      · intro hIdle
        simp [Engine.enqueue, hReady] at hIdle
      · intro hPlan
        simp [Engine.enqueue, hReady] at hPlan
    · rw [hOther name hName] at hc
      exact h.settled hRun name c hName hc

end Opened

namespace Installed

/- A new plan for a timer. -/
theorem reschedule
    [Calendar K]
    {a b : Armed K}
    (h : s.Installed)
    (hFind : s.find a.name = some b)
    (hItem : a.item = b.item) :
    (s.rescheduleLocked a).Installed := by
  have hOpened := h.dequeue hFind hItem
  rcases reschedule_cases s a with
    ⟨a', p, hSame, hNone, hGen, hPlanned,
      ⟨_, hEq⟩ | ⟨hPlan, hLoad, hError, when, _, hEq⟩⟩
  · unfold rescheduleLocked
    rw [hEq]
    have hName := hSame.name
    rw [← hName] at hFind hOpened
    refine Opened.put (b := b) ?_ hFind hNone ?_
    · exact { hOpened with }
    · intro _
      refine ⟨fun _ => hNone, ?_⟩
      rw [hSame.loading, hSame.storageError]
      exact hPlanned
  · unfold rescheduleLocked
    rw [hEq]
    have hName := hSame.name
    rw [← hName] at hFind hOpened
    refine Opened.enqueue (b := b) ?_ hFind ⟨hPlan, ?_, ?_⟩
    · exact { hOpened with }
    · rw [hSame.loading]
      exact hLoad
    · rw [hSame.storageError]
      exact hError

/- A change to a timer that leaves its deadline. -/
theorem put
    {a b : Armed K}
    (h : s.Installed)
    (hFind : s.find a.name = some b)
    (hItem : a.item = b.item)
    (hGen : a.gen = b.gen)
    (hSettled : s.running = true → Settled a) :
    (s.put a).Installed := by
  refine ⟨?_, ?_, ?_⟩
  · rw [names_put]
    exact h.names
  · refine h.queue.congr ?_ ?_
    · intro m c it hc hcItem
      by_cases hm : m = a.name
      · subst hm
        rw [hFind] at hc
        cases hc
        exact ⟨a, find_put_self hFind, hItem.trans hcItem, hGen⟩
      · refine ⟨c, ?_, hcItem, rfl⟩
        rw [find_put_ne hm]
        exact hc
    · intro m c it hc hcItem
      by_cases hm : m = a.name
      · subst hm
        rw [find_put_self hFind] at hc
        cases hc
        exact ⟨b, hFind, hItem.symm.trans hcItem⟩
      · rw [find_put_ne hm] at hc
        exact ⟨c, hc, hcItem⟩
  · intro hRun name c hc
    by_cases hName : name = a.name
    · subst hName
      rw [find_put_self hFind] at hc
      cases hc
      exact hSettled hRun
    · rw [find_put_ne hName] at hc
      exact h.settled hRun name c hc

end Installed

------------------------------------------------------------
-- Fires
------------------------------------------------------------

/- No item of the heap is stale. -/
theorem Installed.dropStale
    (h : s.Installed) :
    s.dropStaleLocked = s := by
  unfold dropStaleLocked
  cases s.pq.arr.length with
  | zero => rfl
  | succ fuel =>
      unfold dropStaleAux
      split
      · rfl
      · rename_i it hHead
        rcases h.queue.owned it (List.mem_of_mem_head? hHead) with
          ⟨_, a, ha, _, hGen⟩
        have hFresh : ¬ s.Stale it := by
          unfold Stale
          rw [ha]
          simpa using hGen
        rw [if_neg hFresh]

variable {now : Time}

/- The best position is that of a ready item. -/
theorem bestReady_spec
    {i : Nat}
    (h : s.bestReady now = some i) :
    ∃ it, s.pq.arr[i]? = some it ∧ s.Ready now it := by
  unfold bestReady at h
  revert h
  refine List.foldlRecOn
    (motive := fun best =>
      best = some i → ∃ it, s.pq.arr[i]? = some it ∧ s.Ready now it)
    _ _ ?_ ?_
  · intro hNone
    cases hNone
  · intro best ih j _ hBest
    split at hBest
    · exact ih hBest
    · rename_i it hj
      split at hBest
      · rename_i hReady
        split at hBest
        · cases hBest
          exact ⟨it, hj, hReady⟩
        · split at hBest
          · cases hBest
            exact ⟨it, hj, hReady⟩
          · exact ih hBest
      · exact ih hBest

/- A popped deadline and the timer it belongs to. -/
structure Popped
    (s : Engine K)
    (now : Time)
    (due : DueTimer)
    (s' : Engine K)
    (a : Armed K) : Prop where
  find : s.find due.name = some a
  ref : due.ref = a.ref
  gen : due.generation = a.gen
  item : a.item ≠ none
  ready : a.firing = false
  room : s.activeFires < maxTimerCallbacks
  due : ItemDue s.clock now a
  after :
    ∃ pq, s' = { s with pq := pq }.put { a with item := none }

variable {due : DueTimer}
variable {s' : Engine K}

theorem Installed.popDue
    (h : s.Installed)
    (hPop : s.popDueLocked now = some (due, s')) :
    ∃ a, Popped s now due s' a ∧ s'.Installed := by
  unfold popDueLocked at hPop
  rw [h.dropStale] at hPop
  dsimp only at hPop
  split at hPop
  · cases hPop
  · rename_i best hBest
    rcases bestReady_spec hBest with ⟨it, hIt, hReady⟩
    rcases h.queue.owned it (List.mem_of_getElem? hIt) with
      ⟨_, a, ha, hItem, hGen⟩
    have hName := name_of_find ha
    rcases h.queue.remove (less s.items) ha hItem hIt with
      ⟨pq, hRemove, hQueued⟩
    unfold Ready at hReady
    rw [ha] at hReady
    rw [hRemove] at hPop
    have hFind : find { s with pq := pq } (s.items it).name = some a :=
      ha
    simp only [hFind, if_pos hItem, Option.some.injEq,
      Prod.mk.injEq] at hPop
    rcases hPop with ⟨rfl, rfl⟩
    refine ⟨a, ⟨?_, rfl, hGen, ?_, hReady.2.1, hReady.2.2.1,
      hReady.2.2.2, pq, rfl⟩, ?_⟩
    · rw [hName]
      exact ha
    · rw [hItem]
      simp
    · rw [← hName] at ha hQueued
      refine Opened.put (b := a) ?_ ha rfl ?_
      · exact ⟨h.names, hQueued, fun hRun m b _ => h.settled hRun m b⟩
      · intro hRun
        exact ⟨fun _ => rfl, (h.settled hRun a.name a ha).planned⟩

variable {a : Armed K}

section

variable (h : Popped s now due s' a)

include h

/- The timer stands without its deadline. -/
theorem Popped.found :
    s'.find due.name = some { a with item := none } := by
  have hName := name_of_find h.find
  rcases h.after with ⟨pq, rfl⟩
  rw [← hName]
  refine find_put_self (a := { a with item := none }) (b := a) ?_
  rw [← h.find, ← hName]
  rfl

theorem Popped.others
    {name : String}
    (hNe : name ≠ due.name) :
    s'.find name = s.find name := by
  rcases h.after with ⟨pq, rfl⟩
  rw [← name_of_find h.find] at hNe
  rw [find_put_ne (a := { a with item := none }) hNe]
  rfl

variable {cfg : Config}

/- A popped deadline is accepted unless the engine has stopped. -/
theorem Popped.consume
    [Calendar K] :
    s'.consumeLocked cfg due now =
      if s.running = false then s'
      else s'.launch cfg { a with item := none } due now := by
  have hFind := h.found
  have hMatch : ¬ (a.ref ≠ due.ref ∨ a.gen ≠ due.generation) := by
    rw [h.ref, h.gen]
    simp
  have hSame : s'.running = s.running ∧
      s'.activeFires = s.activeFires := by
    rcases h.after with ⟨pq, rfl⟩
    exact ⟨rfl, rfl⟩
  have hRoom :
      ¬ (a.firing = true ∨ maxTimerCallbacks ≤ s'.activeFires) := by
    have hLess := h.room
    rw [hSame.2, h.ready]
    simp only [Bool.false_eq_true, false_or]
    omega
  unfold consumeLocked
  rw [hFind, hSame.1]
  dsimp only
  rw [if_neg hMatch, if_neg hRoom]

theorem Popped.own :
    s.find a.name = some a := by
  have hFind := h.find
  rw [← name_of_find hFind] at hFind
  exact hFind

end

variable {P : Engine K → Prop}

section

variable [Calendar K]

/- A popped deadline is dropped, or its timer is launched. -/
theorem Popped.consume_rule
    (hPopped : Popped s now due s' a)
    (h : P s')
    (hLaunch :
      s.running = true → s'.find a.name = some { a with item := none } →
        P (s'.launch cfg { a with item := none } due now)) :
    P (s'.consumeLocked cfg due now) := by
  rw [hPopped.consume]
  split
  · exact h
  · rename_i hRun
    rw [Bool.not_eq_false] at hRun
    have hFound := hPopped.found
    rw [← name_of_find hPopped.find] at hFound
    exact hLaunch hRun hFound

theorem Installed.launch
    {actual : Time}
    (h : s.Installed)
    (hFind : s.find a.name = some a)
    (hNone : a.item = none) :
    (s.launch cfg a due actual).Installed := by
  rcases accept_arm (s := s) cfg a due actual with ⟨rt, hArm⟩
  unfold Engine.launch
  dsimp only
  rw [hArm]
  split
  · refine Installed.reschedule (b := a) ?_ ?_ ?_
    · exact { h with }
    · exact hFind
    · rfl
  · refine Installed.put (b := a) ?_ ?_ ?_ ?_ ?_
    · exact { h with }
    · exact hFind
    · rfl
    · rfl
    · intro hRun
      exact ⟨fun _ => hNone, (h.settled hRun a.name a hFind).planned⟩

theorem Installed.consume
    (hPopped : Popped s now due s' a)
    (h : s'.Installed) :
    (s'.consumeLocked cfg due now).Installed :=
  hPopped.consume_rule h (fun _ hFound => h.launch hFound rfl)

theorem Popped.clock
    (h : Popped s now due s' a) :
    (s'.consumeLocked cfg due now).clock = s.clock := by
  rw [h.consume]
  rcases h.after with ⟨pq, rfl⟩
  split
  · rfl
  · rcases launch_eq cfg
        (Engine.put { s with pq := pq } { a with item := none })
        { a with item := none } due now with
      ⟨_, _, _, _, _, _, _, _, _, _, _, _, hEq⟩
    rw [hEq]
    rfl

/-
  What each popped and consumed deadline keeps, any number of
  turns of the loop keeps.
-/
theorem fireDueAux_rule
    (cfg : Config)
    (hStep :
      ∀ t due t' a, t.clock = s.clock → P t → t.Installed →
        t.popDueLocked s.clock.now = some (due, t') →
        Popped t s.clock.now due t' a → t'.Installed →
        P (t'.consumeLocked cfg due s.clock.now))
    (turns : Nat)
    (h : s.Installed)
    (hP : P s) :
    P (fireDueAux cfg s.clock.now turns s) ∧
      (fireDueAux cfg s.clock.now turns s).Installed := by
  have hLoop :
      ∀ fuel t, t.clock = s.clock → P t → t.Installed →
        P (fireDueAux cfg s.clock.now fuel t) ∧
          (fireDueAux cfg s.clock.now fuel t).Installed := by
    intro fuel
    induction fuel with
    | zero => exact fun t _ hP h => ⟨hP, h⟩
    | succ fuel ih =>
        intro t hClock hP h
        unfold fireDueAux
        split
        · exact ⟨hP, h⟩
        · rename_i due t' hPop
          rcases h.popDue hPop with ⟨a, hPopped, h'⟩
          exact ih _ (hPopped.clock.trans hClock)
            (hStep t due t' a hClock hP h hPop hPopped h')
            (Installed.consume hPopped h')
  exact hLoop turns s rfl hP h

/- What each consumed deadline keeps, the whole loop keeps. -/
theorem fireDue_rule
    (cfg : Config)
    (hStep :
      ∀ t due t' a, t.clock = s.clock → P t → t.Installed →
        Popped t s.clock.now due t' a → t'.Installed →
        P (t'.consumeLocked cfg due s.clock.now))
    (h : s.Installed)
    (hP : P s) :
    P (s.fireDueLocked cfg) ∧ (s.fireDueLocked cfg).Installed :=
  fireDueAux_rule cfg
    (fun t due t' a hClock hP h _ => hStep t due t' a hClock hP h)
    _ h hP

end

------------------------------------------------------------
-- Steps
------------------------------------------------------------

namespace Installed

section

variable (h : s.Installed)

include h

/- A new timer without a deadline. -/
theorem append
    (hNew : s.find a.name = none)
    (hNone : a.item = none)
    (hPlan : a.planning = false) :
    Installed { s with armed := s.armed ++ [a] } := by
  have hFind := find_append hNew
  refine ⟨?_, ?_, ?_⟩
  · unfold Engine.names
    rw [List.map_append, List.map_singleton, List.nodup_append_comm]
    refine List.nodup_cons.mpr ⟨?_, h.names⟩
    unfold find at hNew
    exact Lib.Keyed.find_eq_none_iff.mp hNew
  · refine h.queue.congr ?_ ?_
    · intro m b it hb hItem
      refine ⟨b, ?_, hItem, rfl⟩
      rw [hFind, if_neg]
      · exact hb
      · rintro rfl
        rw [hNew] at hb
        cases hb
    · intro m b it hb hItem
      rw [hFind] at hb
      split at hb
      · cases hb
        rw [hNone] at hItem
        cases hItem
      · exact ⟨b, hb, hItem⟩
  · intro hRun name b hb
    rw [hFind] at hb
    split at hb
    · cases hb
      refine ⟨fun _ => hNone, fun hTrue => ?_⟩
      rw [hPlan] at hTrue
      cases hTrue
    · exact h.settled hRun name b hb

/- A disarmed timer leaves with its deadline. -/
theorem disarm
    (name : String) :
    (s.disarm name).Installed := by
  unfold Engine.disarm
  split
  · exact h
  · rename_i a hFind
    have hName := name_of_find hFind
    subst hName
    have hGone :
        ∀ m, m ≠ a.name →
          find
              { s with
                pq := s.dequeued a
                armed :=
                  Lib.Keyed.remove Armed.name a.name s.armed } m =
            s.find m := fun m hm =>
      Lib.Keyed.find_remove_ne hm s.armed
    have hNone :
        find
            { s with
              pq := s.dequeued a
              armed := Lib.Keyed.remove Armed.name a.name s.armed }
            a.name = none :=
      Lib.Keyed.find_remove_self a.name s.armed
    refine ⟨?_, ?_, ?_⟩
    · exact h.names.sublist (List.filter_sublist.map _)
    · refine (h.dequeue hFind rfl).queue.settle hGone ?_
      intro b hb
      rw [hNone] at hb
      cases hb
    · intro hRun m b hb
      by_cases hm : m = a.name
      · subst hm
        rw [hNone] at hb
        cases hb
      · rw [hGone m hm] at hb
        exact h.settled hRun m b hb

theorem arm
    [Calendar K]
    (cfg : Config)
    (spec : Spec K) :
    (s.arm cfg spec).Installed := by
  rcases arm_cases cfg s spec with
    hEq | ⟨loader, hRun, _, ⟨a, hFind, hEq⟩ | ⟨hNew, hEq⟩⟩
  · rw [hEq]
    exact h
  · rcases refreshed_eq a (s.nextArm + 1) spec with
      ⟨loading, error, hFresh⟩
    rw [hEq, hFresh]
    exact Installed.reschedule (b := a)
      { h with } hFind rfl
  · have hAppend := h.append (a := newArm cfg s spec) hNew rfl rfl
    have hFind := find_append (a := newArm cfg s spec) hNew
      (newArm cfg s spec).name
    rw [if_pos rfl] at hFind
    rw [hEq]
    exact Installed.reschedule (b := newArm cfg s spec)
      { hAppend with } hFind rfl

/- A planned timer has no deadline yet and gets the one found. -/
theorem planPublish
    (name : String)
    (ref gen clockGen : Nat)
    (found : Deadline) :
    (s.planPublish name ref gen clockGen found).Installed := by
  rcases planPublish_cases s name ref gen clockGen found with
    hEq | ⟨a, hFind, hRun, _, rfl, _, hPlanning,
      hEq | ⟨when, _, hEq⟩⟩
  · rw [hEq]
    exact { h with }
  · rw [← name_of_find hFind] at hFind
    have hSettled := h.settled hRun a.name a hFind
    rw [hEq]
    refine Installed.put (b := a) { h with }
      hFind rfl rfl ?_
    intro _
    refine ⟨fun _ => hSettled.idle (Or.inl hPlanning), ?_⟩
    intro hPlan
    cases hPlan
  · rw [← name_of_find hFind] at hFind
    have hSettled := h.settled hRun a.name a hFind
    have hOpened := h.dequeue hFind rfl
    rw [hEq]
    exact Opened.enqueue
      (s := { s with pq := s.dequeued a, planner := some .pick })
      (a := { published a clockGen found with item := none })
      (b := a)
      { hOpened with } hFind
      ⟨rfl, hSettled.planned hPlanning⟩

theorem fireDue
    [Calendar K]
    (cfg : Config) :
    (s.fireDueLocked cfg).Installed :=
  (fireDue_rule (P := fun _ => True) cfg (fun _ _ _ _ _ _ _ _ _ => trivial)
    h trivial).2

/- No deadline depends on the number of clock changes. -/
theorem ticked (clockGen : Nat) :
    Installed { s with clockGen := clockGen } :=
  { h with }

variable {cfg : Config}
variable {l : Label K}
variable {s' : Engine K}

theorem reworks
    [Calendar K] :
    Reworks cfg Installed s l s' where
  set _ _ _ ht _ := { ht with }
  stop := ⟨h.names, h.queue, nofun⟩
  rest _ _ _ _ _ _ _ _ ht := { ht with }
  arm spec _ := h.arm cfg spec
  disarm _ name ht _ := ht.disarm name
  put t a b ht hFind hEdits hPlan hSame := by
    refine ht.put hFind hEdits.item hPlan.gen (fun hRun => ?_)
    rcases hSame hRun with ⟨hPlanning, hLoading, hError⟩
    have hSettled := ht.settled hRun a.name b hFind
    constructor
    · rw [hPlanning, hLoading, hError, hEdits.item]
      exact hSettled.idle
    · rw [hPlanning, hLoading, hError]
      exact hSettled.planned
  reschedule _ _ _ ht hFind hEdits := ht.reschedule hFind hEdits.item
  fireDue _ ht := ht.fireDue cfg
  plan hPlan := by
    cases planStep_move hPlan with
    | pick => exact { h with }
    | publish name ref gen clockGen found =>
        exact h.planPublish name ref gen clockGen found

/- Every step keeps the heap right. -/
theorem step
    [Calendar K]
    (hStep : s.step cfg l = some s') :
    s'.Installed :=
  h.reworks.step h.dropStale h hStep

end

theorem of_initial
    (h : s.Initial) :
    s.Installed := by
  rcases h with ⟨clock, disk, _, rfl⟩
  refine ⟨List.nodup_nil, ⟨?_, ?_, ?_, ?_⟩, ?_⟩
  · intro i r hr
    cases hr
  · intro it hIt
    cases hIt
  · intro it hIt
    cases hIt
  · intro name a it _ hFind
    cases hFind
  · intro _ name a hFind
    cases hFind

theorem of_reachable
    [Calendar K]
    (h : (timing K cfg).Reachable s) :
    s.Installed := by
  refine Lib.System.reachable_invariant ?_ ?_ h
  · intro t hInit
    exact of_initial hInit
  · intro t l t' _ hInstalled hStep
    exact Installed.step (s := t) hInstalled hStep

end Installed

/- Only deadlines that are due are consumed. -/
theorem step_consumed
    [Calendar K]
    {l : Label K}
    (hInstalled : s.Installed)
    (hStep : s.step cfg l = some s') :
    s'.consumed = s.consumed ∨
      ∃ clockGen,
        s'.consumed =
          (fireDueLocked cfg { s with clockGen := clockGen }).consumed := by
  refine Reworks.step (P := fun t => t.consumed = s.consumed ∨
    ∃ clockGen, t.consumed =
      (fireDueLocked cfg { s with clockGen := clockGen }).consumed)
    ?_ hInstalled.dropStale (Or.inl rfl) hStep
  exact
    { set := fun _ _ _ ht _ => ht
      stop := Or.inl rfl
      rest := fun _ _ _ _ _ _ _ _ ht => ht
      arm := fun spec _ => Or.inl (arm_consumed s cfg spec)
      disarm := fun t name ht _ => by
        rw [(kept_disarm t name).consumed]
        exact ht
      put := fun _ _ _ ht _ _ _ _ => ht
      reschedule := fun t a _ ht _ _ => by
        rw [(kept_reschedule t a).consumed]
        exact ht
      fireDue := fun clockGen _ => Or.inr ⟨clockGen, rfl⟩
      plan := fun hPlan =>
        Or.inl (kept_planMove (planStep_move hPlan)).consumed }

end Engine

end Timers

end Winunitd
