import Mathlib.Algebra.Order.Ring.Int
import Mathlib.Data.List.Dedup
import Winunitd.Journal.Entry

/-
  The fair queue between captures and the journal writer.

  Each invocation has a queue of its own, and the writer
  serves the queues in turn.  Under pressure a less
  represented invocation may displace the newest record of a
  larger queue.  All functions here run with the queue lock
  held.

  The source keeps the queues in a map by group and in a list
  by turn, and changes both together; the model keeps one
  list by turn.  A loop over the map visits the queues in an
  order that the caller supplies.

  Key definitions include:
    * `CaptureWrite`, `CapturePending`
    * `CaptureQueue`
    * `pickVictim`, `makeCaptureRoom`
    * `enqueue`, `pop`
    * `CaptureQueue.pending`

  Key theorems include:
    * `pickVictim_some`
    * `makeCaptureRoom_rule`
-/

------------------------------------------------------------
-- Queues
------------------------------------------------------------

namespace Winunitd

namespace Journal

open Lib

def captureQueueRecords : Int := 16384

def invocationQueueRecords : Int := 12288

def captureQueueBytes : Int := 16 * 2 ^ 20

def invocationQueueBytes : Int := 4 * 2 ^ 20

def maxQueuedCaptureGroups : Nat := 2048

/- A record on its way to its file. -/
structure CaptureWrite (G : Type) where
  entry : Entry
  group : G
deriving DecidableEq, Repr

/- Message bytes of a record. -/
def CaptureWrite.size {G : Type} (w : CaptureWrite G) : Nat :=
  w.entry.size

/- The counters that an invocation shares with its queue. -/
structure CaptureGroup where
  bytes : Int
  records : Int
deriving DecidableEq, Repr

/- The records of one invocation that wait for the writer. -/
structure CapturePending (G : Type) where
  group : G
  items : List (CaptureWrite G)
  bytes : Int
deriving DecidableEq, Repr

/-
  The part of the store that the queue lock guards.  `counted`
  records which records the statistics count as dropped.
-/
structure CaptureQueue (G : Type) where
  captureQueues : List (CapturePending G)
  queuedRecords : Int
  queuedBytes : Int
  groups : G → CaptureGroup
  queueClosed : Bool
  captureWake : Bool
  stats : StatsBook
  counted : List (CaptureWrite G)

variable {G : Type}
variable [DecidableEq G]

namespace CaptureQueue

/- The queue of a store that has just been opened. -/
def empty : CaptureQueue G where
  captureQueues := []
  queuedRecords := 0
  queuedBytes := 0
  groups := fun _ => ⟨0, 0⟩
  queueClosed := false
  captureWake := false
  stats := .empty
  counted := []

/- All records that wait for the writer. -/
def pending (s : CaptureQueue G) : List (CaptureWrite G) :=
  s.captureQueues.flatMap CapturePending.items

def releaseCapture (s : CaptureQueue G) (work : CaptureWrite G) :
    CaptureQueue G :=
  let n : Int := work.size
  { s with
    queuedBytes := s.queuedBytes - n
    queuedRecords := s.queuedRecords - 1
    groups :=
      Function.update s.groups work.group
        { bytes := (s.groups work.group).bytes - n
          records := (s.groups work.group).records - 1 } }

------------------------------------------------------------
-- Choice Of A Victim
------------------------------------------------------------

/-
  The larger queue that gives way to `group`: the first of
  the largest in the order of the loop.
-/
def pickVictim
    (bytePressure : Bool)
    (group : G)
    (counts : CaptureGroup)
    (size : Int)
    (qs : List (CapturePending G)) :
    Option (CapturePending G) :=
  qs.foldl
    (fun victim q =>
      if q.group = group ∨ q.items.length ≤ 1 then victim
      else if bytePressure then
        if q.bytes ≤ counts.bytes + size then victim
        else
          match victim with
          | none => some q
          | some v => if v.bytes < q.bytes then some q else victim
      else
        if (q.items.length : Int) ≤ counts.records + 1 then victim
        else
          match victim with
          | none => some q
          | some v =>
              if v.items.length < q.items.length then some q
              else victim)
    none

/-
  The queues in the order of one loop over the map.  The
  groups of `order` come first; a list that names every
  group gives its own order.
-/
def loopOrder (order : List G) (qs : List (CapturePending G)) :
    List (CapturePending G) :=
  order.dedup.filterMap (fun g => Keyed.find (·.group) g qs) ++
    qs.filter (fun q => q.group ∉ order)

/- The limits leave no room for one more record. -/
def Pressed (s : CaptureQueue G) (size : Int) : Prop :=
  captureQueueBytes < s.queuedBytes + size ∨
    captureQueueRecords ≤ s.queuedRecords

instance (s : CaptureQueue G) (size : Int) :
    Decidable (s.Pressed size) :=
  inferInstanceAs (Decidable (_ ∨ _))

------------------------------------------------------------
-- Admission And Service
------------------------------------------------------------

/- Add an admitted record to the queue of its group. -/
def push (s : CaptureQueue G) (work : CaptureWrite G) :
    CaptureQueue G :=
  let n : Int := work.size
  { s with
    captureQueues :=
      match Keyed.find (·.group) work.group s.captureQueues with
      | none =>
          s.captureQueues ++
            [{ group := work.group, items := [work], bytes := n }]
      | some _ =>
          Keyed.modify (·.group) work.group
            (fun q =>
              { q with
                items := q.items ++ [work]
                bytes := q.bytes + n })
            s.captureQueues
    queuedBytes := s.queuedBytes + n
    queuedRecords := s.queuedRecords + 1
    groups :=
      Function.update s.groups work.group
        { bytes := (s.groups work.group).bytes + n
          records := (s.groups work.group).records + 1 }
    captureWake := true }

/- The record is refused before any room is made for it. -/
def Refused (s : CaptureQueue G) (work : CaptureWrite G) : Prop :=
  s.queueClosed = true ∨ captureQueueBytes < work.size ∨
    invocationQueueBytes <
      (s.groups work.group).bytes + work.size ∨
    invocationQueueRecords ≤ (s.groups work.group).records ∨
    Keyed.find (·.group) work.group s.captureQueues = none ∧
      maxQueuedCaptureGroups ≤ s.captureQueues.length

instance (s : CaptureQueue G) (work : CaptureWrite G) :
    Decidable (s.Refused work) :=
  inferInstanceAs (Decidable (_ ∨ _ ∨ _ ∨ _ ∨ _))

/- A served queue goes to the back, or away when empty. -/
def requeue
    (qs : List (CapturePending G))
    (q : CapturePending G) :
    List (CapturePending G) :=
  if q.items.length = 0 then qs else qs ++ [q]

/-
  Take the next record: the oldest of the queue whose turn it
  is.
-/
def pop (s : CaptureQueue G) :
    Option (CaptureWrite G × CaptureQueue G) :=
  match s.captureQueues with
  | [] => none
  | q :: qs =>
      match q.items with
      | [] => none
      | work :: items =>
          some
            (work,
              { s with
                captureQueues :=
                  requeue qs
                    { q with
                      items := items
                      bytes := q.bytes - work.size } })

------------------------------------------------------------
-- What A Loop Can Pick
------------------------------------------------------------

variable {qs : List (CapturePending G)}

theorem mem_of_mem_loopOrder
    {order : List G}
    {q : CapturePending G}
    (h : q ∈ loopOrder order qs) :
    q ∈ qs := by
  unfold loopOrder at h
  rcases List.mem_append.mp h with hFirst | hRest
  · rcases List.mem_filterMap.mp hFirst with ⟨g, _, hFind⟩
    exact Keyed.mem_of_find hFind
  · exact List.mem_of_mem_filter hRest

/- A victim is another group's queue of several records. -/
theorem pickVictim_some
    {bytePressure : Bool}
    {group : G}
    {counts : CaptureGroup}
    {size : Int}
    {v : CapturePending G}
    (h : pickVictim bytePressure group counts size qs = some v) :
    v ∈ qs ∧ v.group ≠ group ∧ 1 < v.items.length := by
  have hLoop :
      ∀ (rest : List (CapturePending G))
        (victim : Option (CapturePending G)),
        (∀ q ∈ rest, q ∈ qs) →
        (∀ u, victim = some u →
          u ∈ qs ∧ u.group ≠ group ∧ 1 < u.items.length) →
        ∀ u, rest.foldl
            (fun victim q =>
              if q.group = group ∨ q.items.length ≤ 1 then victim
              else if bytePressure then
                if q.bytes ≤ counts.bytes + size then victim
                else
                  match victim with
                  | none => some q
                  | some v =>
                      if v.bytes < q.bytes then some q else victim
              else
                if (q.items.length : Int) ≤ counts.records + 1 then
                  victim
                else
                  match victim with
                  | none => some q
                  | some v =>
                      if v.items.length < q.items.length then some q
                      else victim)
            victim = some u →
          u ∈ qs ∧ u.group ≠ group ∧ 1 < u.items.length := by
    intro rest
    induction rest with
    | nil =>
        intro victim _ hVictim u hu
        exact hVictim u hu
    | cons q rest ih =>
        intro victim hRest hVictim u hu
        rw [List.foldl_cons] at hu
        refine ih _ (fun p hp => hRest p (List.mem_cons_of_mem _ hp))
          ?_ u hu
        intro w hw
        split at hw
        · exact hVictim w hw
        rename_i hOther
        rw [not_or] at hOther
        have hPick :
            q ∈ qs ∧ q.group ≠ group ∧ 1 < q.items.length :=
          ⟨hRest q List.mem_cons_self, hOther.1, by omega⟩
        split at hw
        · split at hw
          · exact hVictim w hw
          · split at hw
            · cases hw
              exact hPick
            · split at hw
              · cases hw
                exact hPick
              · exact hVictim w hw
        · split at hw
          · exact hVictim w hw
          · split at hw
            · cases hw
              exact hPick
            · split at hw
              · cases hw
                exact hPick
              · exact hVictim w hw
  exact hLoop qs none (fun _ hq => hq) (by simp) v h

------------------------------------------------------------
-- Eviction
------------------------------------------------------------

variable [Name.LetterCase]

def dropCapture (s : CaptureQueue G) (work : CaptureWrite G) :
    CaptureQueue G :=
  { s with
    stats := s.stats.add work.entry.unit (.dropped 1 work.size)
    counted := s.counted ++ [work] }

/- Displace the newest record of a queue. -/
def evict (s : CaptureQueue G) (victim : CapturePending G) :
    CaptureQueue G :=
  match victim.items.getLast? with
  | none => s
  | some work =>
      releaseCapture
        (dropCapture
          { s with
            captureQueues :=
              Keyed.modify (·.group) victim.group
                (fun q =>
                  { q with
                    items := q.items.dropLast
                    bytes := q.bytes - work.size })
                s.captureQueues }
          work)
        work

/- The victim of one round. -/
def victim
    (s : CaptureQueue G)
    (order : List G)
    (group : G)
    (size : Int) :
    Option (CapturePending G) :=
  pickVictim (decide (captureQueueBytes < s.queuedBytes + size))
    group (s.groups group) size (loopOrder order s.captureQueues)

/-
  Make room for a record.  Every round displaces one record,
  so the number of waiting records bounds the rounds.
-/
def makeCaptureRoom (group : G) (size : Int) :
    Nat → List (List G) → CaptureQueue G → CaptureQueue G × Bool
| 0, _, s => (s, !decide (s.Pressed size))
| fuel + 1, orders, s =>
    if s.Pressed size then
      match s.victim (orders.headD []) group size with
      | none => (s, false)
      | some victim =>
          makeCaptureRoom group size fuel orders.tail
            (s.evict victim)
    else
      (s, true)

/- Admit a record, or count it as dropped. -/
def enqueue
    (s : CaptureQueue G)
    (orders : List (List G))
    (work : CaptureWrite G) :
    CaptureQueue G :=
  if s.Refused work then s.dropCapture work
  else
    match
      makeCaptureRoom work.group work.size s.pending.length orders
        s with
    | (s, false) => s.dropCapture work
    | (s, true) => s.push work

------------------------------------------------------------
-- Making Room
------------------------------------------------------------

/-
  What every eviction keeps, making room keeps; and where it
  succeeds there is room.
-/
theorem makeCaptureRoom_rule
    {P : CaptureQueue G → Prop}
    (group : G)
    (size : Int)
    (hEvict :
      ∀ s victim, P s → victim ∈ s.captureQueues →
        victim.group ≠ group → 1 < victim.items.length →
        P (s.evict victim))
    (fuel : Nat)
    (orders : List (List G))
    {s : CaptureQueue G}
    (h : P s) :
    P (makeCaptureRoom group size fuel orders s).1 ∧
      ((makeCaptureRoom group size fuel orders s).2 = true →
        ¬ (makeCaptureRoom group size fuel orders s).1.Pressed
          size) := by
  induction fuel generalizing orders s with
  | zero => exact ⟨h, by simp [makeCaptureRoom]⟩
  | succ fuel ih =>
      unfold makeCaptureRoom
      split
      · split
        · exact ⟨h, by simp⟩
        · rename_i victim hPick
          rcases pickVictim_some hPick with ⟨hMem, hOther, hMany⟩
          exact ih orders.tail
            (hEvict s victim h (mem_of_mem_loopOrder hMem) hOther
              hMany)
      · rename_i hRoom
        exact ⟨h, fun _ => hRoom⟩

end CaptureQueue

end Journal

end Winunitd
