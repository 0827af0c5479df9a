import Winunitd.Journal.Writer

/-
  Conservation of captured records.

  `Sound` ties the fair queue to the records of a run: where
  each record is, in which order, and what the counters say.
  Every operation of the queue moves one record and keeps it;
  the writer and the files move the records that have left
  the queue.

  Key definitions include:
    * `bytesOf`, `ofGroup`
    * `CaptureQueue.Totals`, `CaptureQueue.Sound`
    * `Store.Conserved`

  Key theorems include:
    * `CaptureQueue.makeCaptureRoom_fuel`
    * `CaptureQueue.Sound.enqueue`
    * `CaptureQueue.Sound.pop`
    * `Store.Conserved.step`
    * `Store.capture_conserved`
-/

------------------------------------------------------------
-- Counting Records
------------------------------------------------------------

namespace Winunitd

namespace Journal

open Lib

variable {G : Type}

/- Message bytes of a list of records. -/
def bytesOf (ws : List (CaptureWrite G)) : Nat :=
  (ws.map CaptureWrite.size).sum

@[simp] theorem bytesOf_nil : bytesOf ([] : List (CaptureWrite G)) = 0 :=
  rfl

@[simp] theorem bytesOf_cons
    (w : CaptureWrite G)
    (ws : List (CaptureWrite G)) :
    bytesOf (w :: ws) = w.size + bytesOf ws := by
  simp [bytesOf]

@[simp] theorem bytesOf_append
    (ws vs : List (CaptureWrite G)) :
    bytesOf (ws ++ vs) = bytesOf ws + bytesOf vs := by
  simp [bytesOf]

variable {ws vs : List (CaptureWrite G)}

theorem bytesOf_perm
    (h : ws.Perm vs) :
    bytesOf ws = bytesOf vs :=
  (h.map _).sum_nat

variable [DecidableEq G]

/- The records of one group, in order. -/
def ofGroup (g : G) (ws : List (CaptureWrite G)) :
    List (CaptureWrite G) :=
  ws.filter (fun w => w.group = g)

@[simp] theorem ofGroup_append
    (g : G)
    (ws vs : List (CaptureWrite G)) :
    ofGroup g (ws ++ vs) = ofGroup g ws ++ ofGroup g vs := by
  simp [ofGroup]

@[simp] theorem ofGroup_nil (g : G) :
    ofGroup g ([] : List (CaptureWrite G)) = [] :=
  rfl

theorem ofGroup_cons_self
    (w : CaptureWrite G)
    (ws : List (CaptureWrite G)) :
    ofGroup w.group (w :: ws) = w :: ofGroup w.group ws := by
  simp [ofGroup]

theorem ofGroup_cons_other
    {g : G}
    {w : CaptureWrite G}
    (h : w.group ≠ g)
    (ws : List (CaptureWrite G)) :
    ofGroup g (w :: ws) = ofGroup g ws := by
  simp [ofGroup, h]

theorem ofGroup_perm
    (h : ws.Perm vs)
    (g : G) :
    (ofGroup g ws).Perm (ofGroup g vs) :=
  h.filter _

------------------------------------------------------------
-- The Queue
------------------------------------------------------------

namespace CaptureQueue

/-
  The counters agree with the records that are queued or in
  flight, and stay within the limits.
-/
@[mk_iff] structure Totals
    (s : CaptureQueue G)
    (out : List (CaptureWrite G)) : Prop where
  records : s.queuedRecords = out.length
  bytes : s.queuedBytes = bytesOf out
  groupRecords : ∀ g, (s.groups g).records = (ofGroup g out).length
  groupBytes : ∀ g, (s.groups g).bytes = bytesOf (ofGroup g out)

structure Bounded (s : CaptureQueue G) : Prop where
  records : s.queuedRecords ≤ captureQueueRecords
  bytes : s.queuedBytes ≤ captureQueueBytes
  groupRecords : ∀ g, (s.groups g).records ≤ invocationQueueRecords
  groupBytes : ∀ g, (s.groups g).bytes ≤ invocationQueueBytes

/- A queue holds some records, all of its own group. -/
structure Formed (q : CapturePending G) : Prop where
  nonempty : q.items ≠ []
  own : ∀ w ∈ q.items, w.group = q.group
  bytes : q.bytes = bytesOf q.items

/-
  The queue in a run.  `flight` is popped and not released,
  `sent` left the queue for the writer, `enq` was enqueued
  and `rest` is neither pending nor counted.
-/
structure Sound
    (s : CaptureQueue G)
    (flight sent enq rest : List (CaptureWrite G)) : Prop where
  groups : (s.captureQueues.map (·.group)).Nodup
  formed : ∀ q ∈ s.captureQueues, Formed q
  totals : Totals s (s.pending ++ flight)
  bounded : Bounded s
  perm : enq.Perm (s.pending ++ (s.counted ++ rest))
  droppedRecords :
    s.stats.totalStats.droppedRecords = s.counted.length
  droppedBytes :
    s.stats.totalStats.droppedBytes = bytesOf s.counted
  order : ∀ g, (ofGroup g sent).Sublist (ofGroup g enq)
  queueOrder :
    ∀ q ∈ s.captureQueues,
      (ofGroup q.group sent ++ q.items).Sublist (ofGroup q.group enq)

section Counters

variable {s : CaptureQueue G}
variable {out out' : List (CaptureWrite G)}

theorem Totals.perm
    (h : Totals s out)
    (hPerm : out.Perm out') :
    Totals s out' where
  records := by
    rw [h.records, hPerm.length_eq]
  bytes := by
    rw [h.bytes, bytesOf_perm hPerm]
  groupRecords g := by
    rw [h.groupRecords g, (ofGroup_perm hPerm g).length_eq]
  groupBytes g := by
    rw [h.groupBytes g, bytesOf_perm (ofGroup_perm hPerm g)]

variable {s' : CaptureQueue G}

/- The counters are all that totals depend on. -/
theorem Totals.congr
    (h : Totals s out)
    (hRecords : s'.queuedRecords = s.queuedRecords)
    (hBytes : s'.queuedBytes = s.queuedBytes)
    (hGroups : s'.groups = s.groups) :
    Totals s' out := by
  rcases h with ⟨h₁, h₂, h₃, h₄⟩
  refine ⟨by rw [hRecords, h₁], by rw [hBytes, h₂], ?_, ?_⟩
  · intro g
    rw [hGroups, h₃]
  · intro g
    rw [hGroups, h₄]

/- The counters of `s` are those of `s'` and one record more. -/
structure OneMore
    (s s' : CaptureQueue G)
    (work : CaptureWrite G) : Prop where
  records : s.queuedRecords = s'.queuedRecords + 1
  bytes : s.queuedBytes = s'.queuedBytes + work.size
  group :
    ∀ g, s.groups g =
      if work.group = g then
        ⟨(s'.groups g).bytes + work.size, (s'.groups g).records + 1⟩
      else s'.groups g

theorem OneMore.release
    (work : CaptureWrite G) :
    OneMore s (s.releaseCapture work) work where
  records := by simp [releaseCapture]
  bytes := by simp [releaseCapture]
  group g := by
    by_cases hg : work.group = g
    · simp [releaseCapture, ← hg]
    · simp [releaseCapture, hg, Ne.symm hg]

theorem OneMore.push
    (work : CaptureWrite G) :
    OneMore (s.push work) s work where
  records := rfl
  bytes := rfl
  group g := by
    by_cases hg : work.group = g
    · simp [CaptureQueue.push, ← hg]
    · simp [CaptureQueue.push, hg, Ne.symm hg]

variable {work : CaptureWrite G}

theorem OneMore.totals
    (h : OneMore s s' work) :
    Totals s (work :: out) ↔ Totals s' out := by
  have hGroup : ∀ g,
      ((s.groups g).records = (ofGroup g (work :: out)).length ↔
        (s'.groups g).records = (ofGroup g out).length) ∧
      ((s.groups g).bytes = bytesOf (ofGroup g (work :: out)) ↔
        (s'.groups g).bytes = bytesOf (ofGroup g out)) := by
    intro g
    rw [h.group g]
    by_cases hg : work.group = g
    · subst hg
      rw [if_pos rfl, ofGroup_cons_self, List.length_cons, bytesOf_cons]
      simp only
      omega
    · rw [if_neg hg, ofGroup_cons_other hg]
      exact ⟨Iff.rfl, Iff.rfl⟩
  have hTotal :
      (s.queuedRecords = (work :: out).length ↔
        s'.queuedRecords = out.length) ∧
      (s.queuedBytes = bytesOf (work :: out) ↔
        s'.queuedBytes = bytesOf out) := by
    rw [h.records, h.bytes, List.length_cons, bytesOf_cons]
    omega
  simp only [totals_iff, hTotal, hGroup]

theorem OneMore.bounded
    (h : OneMore s s' work)
    (hBounded : Bounded s) :
    Bounded s' := by
  have hGroup : ∀ g, (s'.groups g).records ≤ (s.groups g).records ∧
      (s'.groups g).bytes ≤ (s.groups g).bytes := by
    intro g
    rw [h.group g]
    split
    · simp only
      omega
    · simp
  rcases hBounded with ⟨hRecords, hBytes, hRecordsOf, hBytesOf⟩
  rw [h.records] at hRecords
  rw [h.bytes] at hBytes
  exact ⟨by omega, by omega, fun g => (hGroup g).1.trans (hRecordsOf g),
    fun g => (hGroup g).2.trans (hBytesOf g)⟩

end Counters

------------------------------------------------------------
-- Moving Records
------------------------------------------------------------

section Moves

variable {s : CaptureQueue G}
variable {flight sent enq rest : List (CaptureWrite G)}

variable {work : CaptureWrite G}

omit [DecidableEq G] in
/- A record at the end of the counted ones. -/
theorem perm_counted
    {pending pending' : List (CaptureWrite G)}
    (h : pending.Perm (work :: pending'))
    (counted rest : List (CaptureWrite G)) :
    (pending ++ (counted ++ rest)).Perm
      (pending' ++ ((counted ++ [work]) ++ rest)) := by
  refine (h.append_right _).trans ?_
  rw [List.append_assoc, List.cons_append]
  refine List.perm_middle.symm.trans ?_
  exact List.perm_middle.symm.append_left pending'

variable [Name.LetterCase]

/- An eviction takes the newest record of its victim. -/
theorem pending_evict
    (hKeys : (s.captureQueues.map (·.group)).Nodup)
    {victim : CapturePending G}
    (hMem : victim ∈ s.captureQueues)
    {items : List (CaptureWrite G)}
    (hItems : victim.items = items ++ [work]) :
    s.pending.Perm (work :: (s.evict victim).pending) := by
  unfold evict
  rw [hItems, List.getLast?_concat]
  refine Keyed.flatMap_modify [] [work] hKeys
    (Keyed.find_of_mem hKeys hMem) ?_
  simp only [hItems, List.dropLast_concat, List.nil_append]
  exact List.perm_append_comm

theorem nodup_evict
    (hKeys : (s.captureQueues.map (·.group)).Nodup)
    (victim : CapturePending G) :
    ((s.evict victim).captureQueues.map (·.group)).Nodup := by
  unfold evict
  split
  · exact hKeys
  · exact Keyed.nodup_modify (fun _ => rfl) hKeys

/-
  One round more than there are waiting records changes
  nothing: each round takes one of them.
-/
theorem makeCaptureRoom_succ
    (group : G)
    (size : Int)
    {fuel : Nat}
    (orders : List (List G))
    (hKeys : (s.captureQueues.map (·.group)).Nodup)
    (hFuel : s.pending.length ≤ fuel) :
    makeCaptureRoom group size (fuel + 1) orders s =
      makeCaptureRoom group size fuel orders s := by
  induction fuel generalizing s orders with
  | zero =>
      unfold makeCaptureRoom
      split
      · rename_i hPressed
        split
        · simp [hPressed]
        · -- a victim would be waiting
          rename_i victim hPick
          rcases pickVictim_some hPick with ⟨hMem, _, hMany⟩
          have hNone := List.eq_nil_of_length_eq_zero
            (Nat.le_zero.mp hFuel)
          have hEmpty :=
            List.flatMap_eq_nil_iff.mp hNone victim
              (mem_of_mem_loopOrder hMem)
          rw [hEmpty] at hMany
          cases hMany
      · rename_i hRoom
        simp [hRoom]
  | succ fuel ih =>
      unfold makeCaptureRoom
      split
      · split
        · rfl
        · rename_i victim hPick
          rcases pickVictim_some hPick with ⟨hMem, _, hMany⟩
          have hSome : victim.items ≠ [] := by
            intro hNil
            rw [hNil] at hMany
            cases hMany
          have hLess :=
            (pending_evict hKeys (mem_of_mem_loopOrder hMem)
              (List.dropLast_append_getLast hSome).symm).length_eq
          rw [List.length_cons] at hLess
          exact ih orders.tail (nodup_evict hKeys victim) (by omega)
      · rfl

/- The number of waiting records is fuel enough to make room. -/
theorem makeCaptureRoom_fuel
    (group : G)
    (size : Int)
    (orders : List (List G))
    (hKeys : (s.captureQueues.map (·.group)).Nodup)
    {fuel : Nat}
    (hFuel : s.pending.length ≤ fuel) :
    makeCaptureRoom group size fuel orders s =
      makeCaptureRoom group size s.pending.length orders s := by
  induction fuel, hFuel using Nat.le_induction with
  | base => rfl
  | succ fuel hFuel ih =>
      rw [makeCaptureRoom_succ group size orders hKeys hFuel, ih]

section

variable (h : Sound s flight sent enq rest)

include h

/- A record that is refused is counted. -/
theorem Sound.drop
    (work : CaptureWrite G) :
    Sound (s.dropCapture work) flight sent (enq ++ [work]) rest where
  groups := h.groups
  formed := h.formed
  totals := { h.totals with }
  bounded := { h.bounded with }
  perm := by
    refine (h.perm.append_right [work]).trans ?_
    refine (List.perm_append_singleton _ _).trans ?_
    exact perm_counted (List.Perm.refl _) s.counted rest
  droppedRecords := by
    rw [dropCapture, (StatsBook.total_add _ _ _).1, h.droppedRecords,
      List.length_append]
    rfl
  droppedBytes := by
    rw [dropCapture, (StatsBook.total_add _ _ _).2, h.droppedBytes,
      bytesOf_append]
    rfl
  order g := by
    rw [ofGroup_append]
    exact (h.order g).trans (List.sublist_append_left _ _)
  queueOrder q hq := by
    rw [ofGroup_append]
    exact (h.queueOrder q hq).trans (List.sublist_append_left _ _)

/- The newest record of a victim is counted and released. -/
theorem Sound.evict
    {victim : CapturePending G}
    (hMem : victim ∈ s.captureQueues)
    (hMany : 1 < victim.items.length) :
    Sound (s.evict victim) flight sent enq rest ∧
      ∀ g, g ≠ victim.group →
        (s.evict victim).groups g = s.groups g := by
  have hSplit : ∃ items work, victim.items = items ++ [work] := by
    have hNonempty := (h.formed victim hMem).nonempty
    exact ⟨_, _, (List.dropLast_append_getLast hNonempty).symm⟩
  rcases hSplit with ⟨items, work, hItems⟩
  have hLast : victim.items.getLast? = some work := by
    rw [hItems, List.getLast?_concat]
  have hDropLast : victim.items.dropLast = items := by
    rw [hItems, List.dropLast_concat]
  have hWork : work.group = victim.group := by
    apply (h.formed victim hMem).own
    rw [hItems]
    exact List.mem_append_right _ List.mem_cons_self
  have hSame :
      ∀ q ∈ s.captureQueues, q.group = victim.group → q = victim :=
    fun q hq hEq => List.inj_on_of_nodup_map h.groups hq hMem hEq
  have hMove := pending_evict h.groups hMem hItems
  have hTotals :
      Totals s (work :: ((s.evict victim).pending ++ flight)) :=
    h.totals.perm (hMove.append_right flight)
  have hCounted := perm_counted hMove s.counted rest
  unfold CaptureQueue.evict at hTotals hCounted ⊢
  rw [hLast] at hTotals hCounted ⊢
  constructor
  · constructor
    case groups =>
      exact Keyed.nodup_modify (fun _ => rfl) h.groups
    case formed =>
      apply Keyed.forall_modify h.formed
      intro q hq hEq
      rw [hSame q hq hEq]
      constructor
      · simp only [hDropLast]
        intro hNil
        rw [hItems, hNil] at hMany
        simp at hMany
      · intro w hw
        exact (h.formed victim hMem).own w
          (List.mem_of_mem_dropLast hw)
      · have hBytes := (h.formed victim hMem).bytes
        rw [hItems, bytesOf_append] at hBytes
        simp only [hDropLast, hBytes, bytesOf_cons]
        simp [bytesOf]
    case totals =>
      exact (OneMore.release work).totals.mp (hTotals.congr rfl rfl rfl)
    case bounded =>
      exact (OneMore.release work).bounded { h.bounded with }
    case perm => exact h.perm.trans hCounted
    case droppedRecords =>
      exact (h.drop work).droppedRecords
    case droppedBytes =>
      exact (h.drop work).droppedBytes
    case order => exact h.order
    case queueOrder =>
      apply Keyed.forall_modify h.queueOrder
      intro q hq _
      refine List.Sublist.trans ?_ (h.queueOrder q hq)
      exact (List.dropLast_sublist q.items).append_left _
  · intro g hg
    simp only [releaseCapture, dropCapture, Function.update_apply]
    rw [if_neg (hWork.symm ▸ hg)]

omit [Name.LetterCase] in
/- An admitted record joins the queue of its group. -/
theorem Sound.push
    (hRoom : ¬ s.Pressed work.size)
    (hBytes :
      (s.groups work.group).bytes + work.size ≤ invocationQueueBytes)
    (hRecords :
      (s.groups work.group).records < invocationQueueRecords) :
    Sound (s.push work) flight sent (enq ++ [work]) rest := by
  have hNewOrder :
      ∀ g, (ofGroup g enq).Sublist (ofGroup g (enq ++ [work])) := by
    intro g
    rw [ofGroup_append]
    exact List.sublist_append_left _ _
  have hOwn :
      ofGroup work.group (enq ++ [work]) =
        ofGroup work.group enq ++ [work] := by
    rw [ofGroup_append, ofGroup_cons_self, ofGroup_nil]
  -- where the record goes, and what the new queues look like
  have hQueues :
      ((s.push work).captureQueues.map (·.group)).Nodup ∧
        (∀ q ∈ (s.push work).captureQueues, Formed q) ∧
        (s.push work).pending.Perm (work :: s.pending) ∧
        ∀ q ∈ (s.push work).captureQueues,
          (ofGroup q.group sent ++ q.items).Sublist
            (ofGroup q.group (enq ++ [work])) := by
    unfold CaptureQueue.push CaptureQueue.pending
    cases hFind :
        Keyed.find (·.group) work.group s.captureQueues with
    | none =>
        have hNew := Keyed.find_eq_none_iff.mp hFind
        simp only [List.map_append, List.map_cons, List.map_nil,
          List.flatMap_append, List.flatMap_cons, List.flatMap_nil,
          List.append_nil]
        refine ⟨?_, ?_, ?_, ?_⟩
        · refine (List.perm_append_singleton _ _).nodup_iff.mpr ?_
          exact List.nodup_cons.mpr ⟨hNew, h.groups⟩
        · refine List.forall_mem_append.mpr ⟨h.formed, ?_⟩
          rw [List.forall_mem_singleton]
          exact ⟨by simp, by simp, by simp [bytesOf]⟩
        · exact List.perm_append_singleton _ _
        · refine List.forall_mem_append.mpr
            ⟨fun q hq => (h.queueOrder q hq).trans (hNewOrder _), ?_⟩
          rw [List.forall_mem_singleton, hOwn]
          exact (h.order work.group).append_right _
    | some q =>
        refine ⟨?_, ?_, ?_, ?_⟩
        · exact Keyed.nodup_modify (fun _ => rfl) h.groups
        · apply Keyed.forall_modify h.formed
          intro p hp hEq
          have hFormed := h.formed p hp
          refine ⟨by simp, ?_, by simp [hFormed.bytes, bytesOf]⟩
          exact List.forall_mem_append.mpr
            ⟨hFormed.own, List.forall_mem_singleton.mpr hEq.symm⟩
        · refine (Keyed.flatMap_modify [work] []
            h.groups hFind ?_).symm
          exact List.perm_append_comm
        · apply Keyed.forall_modify
            (fun p hp => (h.queueOrder p hp).trans (hNewOrder _))
          intro p hp hEq
          simp only [hEq]
          rw [hOwn, ← List.append_assoc, ← hEq]
          exact (h.queueOrder p hp).append_right _
  rcases hQueues with ⟨hGroups, hFormed, hPerm, hOrder⟩
  have hLimits : s.queuedBytes + work.size ≤ captureQueueBytes ∧
      s.queuedRecords < captureQueueRecords := by
    unfold Pressed at hRoom
    omega
  constructor
  case groups => exact hGroups
  case formed => exact hFormed
  case totals =>
    refine ((OneMore.push work).totals.mpr h.totals).perm ?_
    exact hPerm.symm.append_right flight
  case bounded =>
    constructor
    · simp only [CaptureQueue.push]
      omega
    · simp only [CaptureQueue.push]
      omega
    · intro g
      have hOld := h.bounded.groupRecords g
      rw [(OneMore.push work).group g]
      split <;> rename_i hg
      · simp only [← hg]
        omega
      · exact hOld
    · intro g
      rw [(OneMore.push work).group g]
      split <;> rename_i hg
      · exact hg ▸ hBytes
      · exact h.bounded.groupBytes g
  case perm =>
    refine (h.perm.append_right [work]).trans ?_
    refine (List.perm_append_singleton _ _).trans ?_
    exact hPerm.symm.append_right _
  case droppedRecords => exact h.droppedRecords
  case droppedBytes => exact h.droppedBytes
  case order => exact fun g => (h.order g).trans (hNewOrder g)
  case queueOrder => exact hOrder

/- A call of `enqueue` admits its record or counts it. -/
theorem Sound.enqueue
    (orders : List (List G))
    (work : CaptureWrite G) :
    Sound (s.enqueue orders work) flight sent (enq ++ [work])
      rest := by
  unfold CaptureQueue.enqueue
  split
  · exact h.drop work
  rename_i hAdmit
  unfold Refused at hAdmit
  rw [not_or, not_or, not_or, not_or] at hAdmit
  rcases hAdmit with ⟨_, _, hBytes, hRecords, _⟩
  have hRoom :=
    makeCaptureRoom_rule
      (P := fun s' =>
        Sound s' flight sent enq rest ∧
          s'.groups work.group = s.groups work.group)
      work.group work.size
      (fun t victim ht hMem hOther hMany => by
        have hNext := ht.1.evict hMem hMany
        exact ⟨hNext.1,
          (hNext.2 work.group (Ne.symm hOther)).trans ht.2⟩)
      s.pending.length orders ⟨h, rfl⟩
  split
  · rename_i s' hMake
    rw [hMake] at hRoom
    exact hRoom.1.1.drop work
  · rename_i s' hMake
    rw [hMake] at hRoom
    refine hRoom.1.1.push (hRoom.2 rfl) ?_ ?_
    · rw [hRoom.1.2]
      omega
    · rw [hRoom.1.2]
      omega

end

omit [Name.LetterCase]

omit [DecidableEq G] in
theorem requeue_pending
    (qs : List (CapturePending G))
    (q : CapturePending G) :
    ((requeue qs q).flatMap CapturePending.items).Perm
      (q.items ++ qs.flatMap CapturePending.items) := by
  unfold requeue
  split
  · rename_i hNil
    rw [List.length_eq_zero_iff.mp hNil]
    exact List.Perm.refl _
  · rw [List.flatMap_append]
    simp only [List.flatMap_cons, List.flatMap_nil, List.append_nil]
    exact List.perm_append_comm

variable {qs : List (CapturePending G)}
variable {q : CapturePending G}

omit [DecidableEq G] in
/- What holds of the other queues and of the served one. -/
theorem forall_requeue
    {P : CapturePending G → Prop}
    (hQs : ∀ p ∈ qs, P p)
    (hq : q.items ≠ [] → P q) :
    ∀ p ∈ requeue qs q, P p := by
  intro p hp
  unfold requeue at hp
  split at hp
  · exact hQs p hp
  · rename_i hSome
    rcases List.mem_append.mp hp with hOld | hLast
    · exact hQs p hOld
    · rw [List.mem_singleton.mp hLast]
      exact hq (fun hNil => hSome (by rw [hNil]; rfl))

omit [DecidableEq G] in
theorem nodup_requeue
    (h : (q.group :: qs.map (·.group)).Nodup) :
    ((requeue qs q).map (·.group)).Nodup := by
  unfold requeue
  split
  · exact (List.nodup_cons.mp h).2
  · rw [List.map_append]
    exact (List.perm_append_singleton _ _).nodup_iff.mpr h

variable {s' : CaptureQueue G}

/- The oldest record of the first queue goes to the writer. -/
theorem Sound.pop
    (h : Sound s [] sent enq rest)
    (hPop : s.pop = some (work, s')) :
    Sound s' [work] (sent ++ [work]) enq (work :: rest) := by
  unfold CaptureQueue.pop at hPop
  split at hPop
  · cases hPop
  rename_i q qs hQueues
  split at hPop
  · cases hPop
  rename_i items hItems
  cases hPop
  have hMem : q ∈ s.captureQueues := by
    rw [hQueues]
    exact List.mem_cons_self
  have hTail : ∀ p ∈ qs, p ∈ s.captureQueues := by
    intro p hp
    rw [hQueues]
    exact List.mem_cons_of_mem _ hp
  have hGroups := h.groups
  rw [hQueues, List.map_cons] at hGroups
  have hFormed := h.formed q hMem
  have hWork : work.group = q.group := by
    apply hFormed.own
    rw [hItems]
    exact List.mem_cons_self
  have hOther : ∀ p ∈ qs, work.group ≠ p.group := by
    intro p hp hEq
    apply (List.nodup_cons.mp hGroups).1
    rw [← hWork, hEq]
    exact List.mem_map_of_mem hp
  have hQueue := h.queueOrder q hMem
  rw [hItems, ← hWork] at hQueue
  have hMove :
      s.pending.Perm
        (work ::
          (requeue qs
            { q with
              items := items
              bytes := q.bytes - work.size }).flatMap
            CapturePending.items) := by
    unfold CaptureQueue.pending
    rw [hQueues, List.flatMap_cons, hItems, List.cons_append]
    refine List.Perm.cons work ?_
    exact (requeue_pending qs
      { q with
        items := items
        bytes := q.bytes - work.size }).symm
  constructor
  case groups => exact nodup_requeue hGroups
  case formed =>
    apply forall_requeue (fun p hp => h.formed p (hTail p hp))
    intro hSome
    refine ⟨hSome, ?_, ?_⟩
    · intro v hv
      apply hFormed.own
      rw [hItems]
      exact List.mem_cons_of_mem _ hv
    · have hBytes := hFormed.bytes
      rw [hItems, bytesOf_cons] at hBytes
      simp only
      omega
  case totals =>
    have hTotals := h.totals
    rw [List.append_nil] at hTotals
    refine (hTotals.perm ?_).congr rfl rfl rfl
    exact hMove.trans (List.perm_append_singleton _ _).symm
  case bounded => exact { h.bounded with }
  case perm =>
    refine h.perm.trans ((hMove.append_right _).trans ?_)
    rw [List.cons_append]
    refine List.perm_middle.symm.trans ?_
    exact List.perm_middle.symm.append_left _
  case droppedRecords => exact h.droppedRecords
  case droppedBytes => exact h.droppedBytes
  case order =>
    intro g
    rw [ofGroup_append]
    by_cases hg : work.group = g
    · subst hg
      rw [ofGroup_cons_self, ofGroup_nil]
      refine List.Sublist.trans ?_ hQueue
      apply List.Sublist.append_left
      exact (List.nil_sublist items).cons_cons work
    · rw [ofGroup_cons_other hg, ofGroup_nil, List.append_nil]
      exact h.order g
  case queueOrder =>
    apply forall_requeue
    · intro p hp
      rw [ofGroup_append, ofGroup_cons_other (hOther p hp),
        ofGroup_nil, List.append_nil]
      exact h.queueOrder p (hTail p hp)
    · intro _
      simp only
      rw [← hWork, ofGroup_append, ofGroup_cons_self, ofGroup_nil,
        List.append_assoc]
      exact hQueue

/- Records beyond the queue may be listed in any order. -/
theorem Sound.rest_perm
    {rest' : List (CaptureWrite G)}
    (h : Sound s flight sent enq rest)
    (hRest : rest.Perm rest') :
    Sound s flight sent enq rest' :=
  { h with
    perm := h.perm.trans ((hRest.append_left _).append_left _) }

/- A record that left the queue may get lost on its way. -/
theorem Sound.sent_sublist
    {sent' : List (CaptureWrite G)}
    (h : Sound s flight sent enq rest)
    (hSent : sent'.Sublist sent) :
    Sound s flight sent' enq rest := by
  have hGroup :
      ∀ g, (ofGroup g sent').Sublist (ofGroup g sent) :=
    fun g => hSent.filter _
  exact
    { h with
      order := fun g => (hGroup g).trans (h.order g)
      queueOrder := fun q hq =>
        ((hGroup q.group).append_right _).trans (h.queueOrder q hq) }

/- The writer is done with a record. -/
theorem Sound.release
    (h : Sound s [work] sent enq rest) :
    Sound (s.releaseCapture work) [] sent enq rest :=
  { h with
    totals := by
      rw [List.append_nil]
      exact (OneMore.release work).totals.mp
        (h.totals.perm (List.perm_append_singleton _ _))
    bounded := (OneMore.release work).bounded h.bounded }

/- Records that are given up are counted. -/
theorem Sound.count
    {lost rest' : List (CaptureWrite G)}
    (h : Sound s flight sent enq rest)
    (hRest : rest.Perm (lost ++ rest'))
    (hQueues : s'.captureQueues = s.captureQueues)
    (hRecords : s'.queuedRecords = s.queuedRecords)
    (hBytes : s'.queuedBytes = s.queuedBytes)
    (hGroups : s'.groups = s.groups)
    (hCounted : s'.counted = s.counted ++ lost)
    (hDropped :
      s'.stats.totalStats.droppedRecords =
          s.stats.totalStats.droppedRecords + lost.length ∧
        s'.stats.totalStats.droppedBytes =
          s.stats.totalStats.droppedBytes + bytesOf lost) :
    Sound s' flight sent enq rest' := by
  have hPending : s'.pending = s.pending := by
    unfold pending
    rw [hQueues]
  constructor
  case groups => exact hQueues ▸ h.groups
  case formed => exact hQueues ▸ h.formed
  case totals =>
    rw [hPending]
    exact h.totals.congr hRecords hBytes hGroups
  case bounded =>
    rcases h.bounded with ⟨h₁, h₂, h₃, h₄⟩
    exact ⟨hRecords ▸ h₁, hBytes ▸ h₂, hGroups ▸ h₃, hGroups ▸ h₄⟩
  case perm =>
    rw [hPending, hCounted, List.append_assoc]
    exact h.perm.trans ((hRest.append_left _).append_left _)
  case droppedRecords =>
    rw [hDropped.1, hCounted, List.length_append, h.droppedRecords]
  case droppedBytes =>
    rw [hDropped.2, hCounted, bytesOf_append, h.droppedBytes]
  case order => exact h.order
  case queueOrder => exact hQueues ▸ h.queueOrder

/- The queue changes where no record and no counter is. -/
theorem Sound.congr
    (h : Sound s flight sent enq rest)
    (hQueues : s'.captureQueues = s.captureQueues)
    (hRecords : s'.queuedRecords = s.queuedRecords)
    (hBytes : s'.queuedBytes = s.queuedBytes)
    (hGroups : s'.groups = s.groups)
    (hCounted : s'.counted = s.counted)
    (hDropped :
      s'.stats.totalStats.droppedRecords =
          s.stats.totalStats.droppedRecords ∧
        s'.stats.totalStats.droppedBytes =
          s.stats.totalStats.droppedBytes) :
    Sound s' flight sent enq rest := by
  have hNone : rest.Perm ([] ++ rest) := List.Perm.refl _
  refine h.count hNone hQueues hRecords hBytes hGroups ?_ ?_
  · rw [hCounted, List.append_nil]
  · exact hDropped

end Moves

end CaptureQueue

------------------------------------------------------------
-- The Files
------------------------------------------------------------

omit [DecidableEq G] in
/- An accepted record is the last one of its unit's file. -/
theorem acceptRecord_spec
    {files files' : List (UnitFile G)}
    {unit : String}
    {work : CaptureWrite G}
    {raw : Nat}
    (hUnits : (files.map (·.unit)).Nodup)
    (h : acceptRecord files unit work raw = some files') :
    (files'.map (·.unit)).Nodup ∧
      (files'.flatMap UnitFile.entries).Perm
        (work :: files.flatMap UnitFile.entries) ∧
      ∀ f' ∈ files', f' ∈ files ∨
        f'.unit = unit ∧
          (f'.entries = [work] ∨
            ∃ f ∈ files, f.unit = unit ∧
              f'.entries = f.entries ++ [work]) := by
  unfold acceptRecord at h
  split at h
  · rename_i hNone
    cases h
    have hNew := Keyed.find_eq_none_iff.mp hNone
    refine ⟨?_, ?_, ?_⟩
    · rw [List.map_append]
      refine (List.perm_append_singleton _ _).nodup_iff.mpr ?_
      exact List.nodup_cons.mpr ⟨hNew, hUnits⟩
    · rw [List.flatMap_append]
      exact List.perm_append_singleton _ _
    · exact List.forall_mem_append.mpr ⟨fun _ => Or.inl,
        List.forall_mem_singleton.mpr (Or.inr ⟨rfl, Or.inl rfl⟩)⟩
  · rename_i f hFind
    split at h
    · cases h
      have hEntries :
          ∀ f : UnitFile G,
            UnitFile.entries
                { f with records := f.records ++ [(work, raw)] } =
              f.entries ++ [work] := by
        intro f
        simp [UnitFile.entries]
      refine ⟨Keyed.nodup_modify (fun _ => rfl) hUnits, ?_, ?_⟩
      · refine (Keyed.flatMap_modify [work] []
          hUnits hFind ?_).symm
        rw [hEntries]
        exact List.perm_append_comm
      · intro f' hf'
        rcases List.mem_map.mp hf' with ⟨g, hg, rfl⟩
        split
        · rename_i hUnit
          exact Or.inr ⟨hUnit, Or.inr ⟨g, hg, hUnit, hEntries g⟩⟩
        · exact Or.inl hg
    · cases h

------------------------------------------------------------
-- The Store
------------------------------------------------------------

namespace Store

section Laws

variable [Name.LetterCase]
variable {s s' : Store G}

/-
  The queue is sound, and the files hold appended records of
  their own units in the order in which they were appended.
-/
structure Conserved (s : Store G) : Prop where
  queue :
    s.queue.Sound s.writer.unreleased (s.appended ++ s.writer.hand)
      s.enqueued (s.kept ++ (s.writer.hand ++ s.unfiled))
  units : (s.files.map (·.unit)).Nodup
  own :
    ∀ f ∈ s.files, ∀ w ∈ f.entries,
      canonicalUnit w.entry.unit = f.unit
  inOrder : ∀ f ∈ s.files, f.entries.Sublist s.appended
  unfiled : ∀ w ∈ s.unfiled, w.entry.unit = ""

namespace Conserved

theorem opened : Conserved (Store.opened : Store G) where
  queue :=
    { groups := List.nodup_nil
      formed := by simp [Store.opened, CaptureQueue.empty]
      totals := ⟨rfl, rfl, fun _ => rfl, fun _ => rfl⟩
      bounded := by
        refine ⟨?_, ?_, fun _ => ?_, fun _ => ?_⟩
        · show (0 : Int) ≤ captureQueueRecords
          decide
        · show (0 : Int) ≤ captureQueueBytes
          decide
        · show (0 : Int) ≤ invocationQueueRecords
          decide
        · show (0 : Int) ≤ invocationQueueBytes
          decide
      perm := List.Perm.refl _
      droppedRecords := rfl
      droppedBytes := rfl
      order := fun _ => List.Sublist.refl _
      queueOrder := by simp [Store.opened, CaptureQueue.empty] }
  units := List.nodup_nil
  own := by simp [Store.opened]
  inOrder := by simp [Store.opened]
  unfiled := by simp [Store.opened]

/- Counting a storage error moves no record. -/
theorem countError
    {flight sent enq rest : List (CaptureWrite G)}
    {queue : CaptureQueue G}
    (h : queue.Sound flight sent enq rest)
    (unit : String)
    (err : Option String) :
    (Store.countError queue unit err).Sound flight sent enq rest := by
  cases err with
  | none => exact h
  | some message =>
      exact h.congr rfl rfl rfl rfl rfl
        (StatsBook.total_add _ _ _)

theorem tick
    (h : Conserved s)
    (hStep : s.tick = some s') :
    Conserved s' := by
  have hQueue := h.queue
  unfold Store.tick at hStep
  split at hStep
  case h_1 hWriter =>
    rw [hWriter] at hQueue
    split at hStep
    · rename_i work queue hPop
      cases hStep
      have hNext := hQueue.pop hPop
      simp only [Writer.hand, List.append_nil, List.nil_append] at hNext
      refine { h with queue := hNext.rest_perm ?_ }
      exact List.perm_middle.symm
    · split at hStep
      · cases hStep
        exact { h with queue := hQueue }
      · cases hStep
        exact { h with queue := hQueue }
  case h_2 hWriter =>
    rw [hWriter] at hQueue
    split at hStep
    · cases hStep
      exact
        { h with
          queue := hQueue.congr rfl rfl rfl rfl rfl ⟨rfl, rfl⟩ }
    · cases hStep
  case h_3 work err hWriter =>
    rw [hWriter] at hQueue
    cases hStep
    refine { h with queue := ?_ }
    cases err with
    | none => exact hQueue
    | some message =>
        exact countError hQueue work.entry.unit (some message)
  case h_4 work err hWriter =>
    rw [hWriter] at hQueue
    cases hStep
    refine { h with queue := ?_ }
    cases err with
    | none => exact hQueue.release
    | some message =>
        have hLost :
            (s.kept ++ ([work] ++ s.unfiled)).Perm
              ([work] ++ (s.kept ++ ([] ++ s.unfiled))) :=
          List.perm_middle
        have hCounted :
            (s.queue.dropCapture work).Sound [work]
              (s.appended ++ [work]) s.enqueued
              (s.kept ++ ([] ++ s.unfiled)) :=
          hQueue.count hLost rfl rfl rfl rfl rfl
            (StatsBook.total_add _ _ _)
        have hSent : (s.appended ++ []).Sublist (s.appended ++ [work]) :=
          (List.nil_sublist _).append_left _
        exact (hCounted.sent_sublist hSent).release
  case h_5 unit err rest hWriter =>
    rw [hWriter] at hQueue
    cases hStep
    exact { h with queue := countError hQueue unit (some err) }
  case h_6 hWriter =>
    rw [hWriter] at hQueue
    cases hStep
    exact { h with queue := hQueue }
  case h_7 => cases hStep
  case h_8 => cases hStep
  case h_9 => cases hStep

variable {err : Option String}

theorem append
    {raw : Nat}
    (h : Conserved s)
    (hStep : s.append raw err = some s') :
    Conserved s' := by
  have hQueue := h.queue
  unfold Store.append at hStep
  split at hStep
  case h_2 => cases hStep
  case h_1 work hWriter =>
    rw [hWriter] at hQueue
    split at hStep
    · rename_i hUnit
      split at hStep
      · -- the record has no unit, and `append` ignores it
        cases hStep
        have hSent : (s.appended ++ []).Sublist (s.appended ++ [work]) :=
          (List.nil_sublist _).append_left _
        have hRest :
            (s.kept ++ ([work] ++ s.unfiled)).Perm
              (s.kept ++ ([] ++ (s.unfiled ++ [work]))) :=
          List.perm_append_comm.append_left _
        refine
          { h with
            queue := (hQueue.sent_sublist hSent).rest_perm hRest
            unfiled := List.forall_mem_append.mpr
              ⟨h.unfiled, List.forall_mem_singleton.mpr hUnit⟩ }
      · cases hStep
    · split at hStep
      · cases hStep
        exact { h with queue := hQueue }
      · split at hStep
        · cases hStep
        · rename_i files hAccept
          cases hStep
          rcases acceptRecord_spec h.units hAccept with
            ⟨hUnits, hPerm, hFiles⟩
          have hRest :
              (s.kept ++ ([work] ++ s.unfiled)).Perm
                (files.flatMap UnitFile.entries ++
                  ([] ++ s.unfiled)) := by
            refine List.Perm.trans ?_ (hPerm.symm.append_right _)
            exact List.perm_middle
          refine
            { queue := ?_
              units := hUnits
              own := ?_
              inOrder := ?_
              unfiled := h.unfiled }
          · simp only [Writer.hand, List.append_nil]
            exact hQueue.rest_perm hRest
          · intro f hf w hw
            rcases hFiles f hf with hOld | ⟨hUnit, hNew | hMore⟩
            · exact h.own f hOld w hw
            · rw [hNew, List.mem_singleton] at hw
              rw [hw, hUnit]
            · rcases hMore with ⟨g, hg, hgUnit, hEntries⟩
              rw [hEntries] at hw
              rcases List.mem_append.mp hw with hOld | hLast
              · rw [h.own g hg w hOld, hgUnit, hUnit]
              · rw [List.mem_singleton.mp hLast, hUnit]
          · intro f hf
            rcases hFiles f hf with hOld | ⟨_, hNew | hMore⟩
            · exact (h.inOrder f hOld).trans
                (List.sublist_append_left _ _)
            · rw [hNew]
              exact List.sublist_append_right _ _
            · rcases hMore with ⟨g, hg, _, hEntries⟩
              rw [hEntries]
              exact (h.inOrder g hg).append_right _

/- A change to a file that keeps its records moves none. -/
theorem sameEntries
    (h : Conserved s)
    {unit : String}
    {change : UnitFile G → UnitFile G}
    {writer : Writer G}
    (hUnit : ∀ f, (change f).unit = f.unit)
    (hEntries :
      ∀ f ∈ s.files, f.unit = unit → (change f).entries = f.entries)
    (hUnreleased : writer.unreleased = s.writer.unreleased)
    (hHand : writer.hand = s.writer.hand) :
    Conserved
      { s with
        files := Keyed.modify (·.unit) unit change s.files
        writer := writer } := by
  have hKept :
      (Keyed.modify (·.unit) unit change s.files).flatMap
          UnitFile.entries = s.kept :=
    Keyed.flatMap_modify_eq hEntries
  refine
    { queue := ?_
      units := Keyed.nodup_modify hUnit h.units
      own := ?_
      inOrder := ?_
      unfiled := h.unfiled }
  · unfold kept
    simp only [hKept, hUnreleased, hHand]
    exact h.queue
  · apply Keyed.forall_modify h.own
    intro f hf hEq
    rw [hEntries f hf hEq, hUnit]
    exact h.own f hf
  · apply Keyed.forall_modify h.inOrder
    intro f hf hEq
    rw [hEntries f hf hEq]
    exact h.inOrder f hf

theorem closeFile
    {unit : String}
    {n : Nat}
    (h : Conserved s)
    (hStep : s.closeFile unit n err = some s') :
    Conserved s' := by
  unfold Store.closeFile at hStep
  split at hStep
  case h_2 => cases hStep
  case h_1 rest hWriter =>
    split at hStep
    · cases hStep
    rename_i f hFind
    dsimp only at hStep
    split at hStep
    case isFalse => cases hStep
    case isTrue hMay =>
      cases hStep
      have hMem := Keyed.mem_of_find hFind
      have hKey : f.unit = unit := Keyed.key_of_find hFind
      have hSame : ∀ g ∈ s.files, g.unit = unit → g = f :=
        fun g hg hEq =>
          List.inj_on_of_nodup_map h.units hg hMem
            (hEq.trans hKey.symm)
      have hSplit :
          f.entries =
            (f.flush n).written ++ (f.flush n).records.map Prod.fst := by
        rw [← f.entries_flush n]
        rfl
      cases err with
      | none =>
          -- the whole buffer was written
          have hNone : (f.flush n).records.map Prod.fst = [] := by
            by_contra hLost
            exact hMay.2 hLost rfl
          refine h.sameEntries (fun g => by simp) ?_ ?_ ?_
          · intro g hg hEq
            rw [hSame g hg hEq, UnitFile.entries_shut, hSplit, hNone,
              List.append_nil]
          · rw [hWriter]
            rfl
          · rw [hWriter]
            rfl
      | some e =>
          have hQueue := h.queue
          rw [hWriter] at hQueue
          have hLost :
              (s.kept ++ ([] ++ s.unfiled)).Perm
                ((f.flush n).records.map Prod.fst ++
                  ((Keyed.modify UnitFile.unit unit (·.shut n)
                      s.files).flatMap UnitFile.entries ++
                    ([] ++ s.unfiled))) := by
            have hMove :
                s.kept.Perm
                  ((f.flush n).records.map Prod.fst ++
                    (Keyed.modify UnitFile.unit unit (·.shut n)
                      s.files).flatMap UnitFile.entries) := by
              refine Keyed.flatMap_modify [] _ h.units hFind ?_
              rw [UnitFile.entries_shut, hSplit, List.nil_append]
              exact List.perm_append_comm
            rw [← List.append_assoc _ _ ([] ++ s.unfiled)]
            exact hMove.append_right _
          refine
            { queue := ?_
              units := Keyed.nodup_modify (fun g => by simp) h.units
              own := ?_
              inOrder := ?_
              unfiled := h.unfiled }
          · exact hQueue.count hLost rfl rfl rfl rfl rfl
              (StatsBook.total_add _ _ _)
          · apply Keyed.forall_modify h.own
            intro g hg hEq w hw
            rw [hSame g hg hEq, UnitFile.entries_shut] at hw
            rw [hSame g hg hEq, UnitFile.unit_shut]
            apply h.own f hMem
            rw [hSplit]
            exact List.mem_append_left _ hw
          · apply Keyed.forall_modify h.inOrder
            intro g hg hEq
            rw [hSame g hg hEq, UnitFile.entries_shut]
            refine List.Sublist.trans ?_ (h.inOrder f hMem)
            rw [hSplit]
            exact List.sublist_append_left _ _

theorem step
    {l : Label G}
    (h : Conserved s)
    (hStep : s.step l = some s') :
    Conserved s' := by
  cases l with
  | enqueue work orders =>
      cases hStep
      exact { h with queue := h.queue.enqueue orders work }
  | closeQueue =>
      cases hStep
      exact
        { h with
          queue := h.queue.congr rfl rfl rfl rfl rfl ⟨rfl, rfl⟩ }
  | tick => exact h.tick hStep
  | append raw err => exact h.append hStep
  | flush unit n =>
      simp only [Store.step] at hStep
      split at hStep
      · cases hStep
      split at hStep
      · cases hStep
      · cases hStep
        exact h.sameEntries (fun g => by simp)
          (fun g _ _ => by simp) rfl rfl
  | report unit message =>
      cases hStep
      exact { h with queue := countError h.queue unit (some message) }
  | closeFile unit n err => exact h.closeFile hStep

end Conserved

theorem conserved_of_reachable
    (hs : (journal G).Reachable s) :
    Conserved s :=
  Lib.System.reachable_invariant
    (I := Conserved)
    (fun _ hInit => hInit ▸ Conserved.opened)
    (fun _ _ _ _ h hStep => h.step hStep) hs

/-
  In every run of the store: each record that was enqueued is,
  once for each call, in a file, counted as dropped, pending,
  in the writer's hand, or ignored by `append`; the statistics
  count exactly the dropped records and their bytes; a file
  holds records of its own unit, in the order of the appends,
  and those of one invocation were appended in the order in
  which they were enqueued; the counters agree with the
  pending and unreleased records and stay within the limits;
  and no queue is empty.  Only records without a unit name are
  ignored.
-/
theorem capture_conserved
    (hs : (journal G).Reachable s) :
    (∀ w : CaptureWrite G,
        s.enqueued.count w =
          s.kept.count w + s.queue.counted.count w +
            s.queue.pending.count w + s.writer.hand.count w +
            s.unfiled.count w) ∧
      s.queue.stats.totalStats.droppedRecords =
        s.queue.counted.length ∧
      s.queue.stats.totalStats.droppedBytes =
        bytesOf s.queue.counted ∧
      (∀ f ∈ s.files, f.entries.Sublist s.appended ∧
        ∀ w ∈ f.entries, canonicalUnit w.entry.unit = f.unit) ∧
      (∀ g, (ofGroup g s.appended).Sublist (ofGroup g s.enqueued)) ∧
      s.queue.Totals (s.queue.pending ++ s.writer.unreleased) ∧
      s.queue.Bounded ∧
      (∀ q ∈ s.queue.captureQueues, CaptureQueue.Formed q) ∧
      ∀ w ∈ s.unfiled, w.entry.unit = "" := by
  have h := conserved_of_reachable hs
  refine ⟨?_, h.queue.droppedRecords, h.queue.droppedBytes,
    fun f hf => ⟨h.inOrder f hf, h.own f hf⟩, ?_, h.queue.totals,
    h.queue.bounded, h.queue.formed, h.unfiled⟩
  · intro w
    have hCount := h.queue.perm.count_eq w
    simp only [List.count_append] at hCount
    omega
  · intro g
    refine List.Sublist.trans ?_ (h.queue.order g)
    rw [ofGroup_append]
    exact List.sublist_append_left _ _

end Laws

section Runs

local instance : Name.LetterCase := Name.asciiCase

/-
  Of two captured lines one reaches its file and one meets a
  full disk; each is accounted for.
-/
theorem capture_conserved_lines :
    ∃ s : Store Nat, (journal Nat).Reachable s ∧
      s.enqueued.length = 2 ∧ s.kept.length = 1 ∧
      s.queue.counted.length = 1 ∧
      ((∀ w : CaptureWrite Nat,
          s.enqueued.count w =
            s.kept.count w + s.queue.counted.count w +
              s.queue.pending.count w + s.writer.hand.count w +
              s.unfiled.count w) ∧
        s.queue.stats.totalStats.droppedRecords =
          s.queue.counted.length ∧
        s.queue.stats.totalStats.droppedBytes =
          bytesOf s.queue.counted ∧
        (∀ f ∈ s.files, f.entries.Sublist s.appended ∧
          ∀ w ∈ f.entries, canonicalUnit w.entry.unit = f.unit) ∧
        (∀ g, (ofGroup g s.appended).Sublist
          (ofGroup g s.enqueued)) ∧
        s.queue.Totals (s.queue.pending ++ s.writer.unreleased) ∧
        s.queue.Bounded ∧
        (∀ q ∈ s.queue.captureQueues, CaptureQueue.Formed q) ∧
        ∀ w ∈ s.unfiled, w.entry.unit = "") := by
  have hRun :
      ∃ s : Store Nat, (journal Nat).Reachable s ∧
        s.enqueued.length = 2 ∧ s.kept.length = 1 ∧
        s.queue.counted.length = 1 :=
    ⟨_, Lib.System.reachable_of_run
        [.enqueue ⟨.plain "a.service" "one", 0⟩ [],
          .enqueue ⟨.plain "a.service" "two", 0⟩ [], .tick,
          .append 40 none, .tick, .tick, .tick,
          .append 40 (some "disk full"), .tick, .tick]
        rfl rfl,
      rfl, rfl, rfl⟩
  rcases hRun with ⟨s, hReach, hEnqueued, hKept, hCounted⟩
  exact ⟨s, hReach, hEnqueued, hKept, hCounted,
    capture_conserved hReach⟩

/-
  A record without a unit name passes through the queue and
  is then neither in a file nor counted.
-/
theorem unfiled_not_counted :
    ∃ s : Store Nat, (journal Nat).Reachable s ∧
      s.enqueued = [⟨.plain "" "one", 0⟩] ∧ s.kept = [] ∧
      s.queue.counted = [] ∧ s.queue.pending = [] ∧
      s.writer.hand = [] ∧
      s.queue.stats.totalStats.droppedRecords = 0 :=
  ⟨_, Lib.System.reachable_of_run
      [.enqueue ⟨.plain "" "one", 0⟩ [], .tick, .append 0 none,
        .tick, .tick]
      rfl rfl,
    rfl, rfl, rfl, rfl, rfl, rfl⟩

end Runs

end Store

end Journal

end Winunitd
