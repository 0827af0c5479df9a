import Winunitd.Journal.Conservation

/-
  Displacement of pending records.

  To make room for a record, the newest records of larger
  queues are displaced one by one.  A queue that gives way
  keeps a prefix of its records, and at least one of them.
  While the bytes fit, one displacement makes room, so that a
  refusal displaces nothing; under byte pressure the larger
  queues may give way and the record be refused all the same.

  Key definitions include:
    * `CaptureQueue.waiting`
    * `CaptureQueue.Displaced`

  Key theorems include:
    * `CaptureQueue.displaced_makeCaptureRoom`
    * `CaptureQueue.enqueue_displaces`
-/

------------------------------------------------------------
-- What Is Displaced
------------------------------------------------------------

namespace Winunitd

namespace Journal

open Lib

variable {G : Type}
variable [DecidableEq G]

namespace CaptureQueue

/- The records of a group that wait for the writer. -/
def waiting (s : CaptureQueue G) (g : G) : List (CaptureWrite G) :=
  match Keyed.find (·.group) g s.captureQueues with
  | none => []
  | some q => q.items

/- The newest records of other groups have made room for `group`. -/
structure Displaced
    (group : G)
    (s t : CaptureQueue G) : Prop where
  groups :
    t.captureQueues.map (·.group) = s.captureQueues.map (·.group)
  own : t.waiting group = s.waiting group
  newest : ∀ g, t.waiting g <+: s.waiting g
  kept : ∀ g, s.waiting g ≠ [] → t.waiting g ≠ []

variable {group : G}
variable {s t u : CaptureQueue G}

theorem Displaced.refl
    (group : G)
    (s : CaptureQueue G) :
    Displaced group s s :=
  ⟨rfl, rfl, fun _ => List.prefix_rfl, fun _ h => h⟩

theorem Displaced.trans
    (h : Displaced group s t)
    (h' : Displaced group t u) :
    Displaced group s u where
  groups := h'.groups.trans h.groups
  own := h'.own.trans h.own
  newest := fun g => (h'.newest g).trans (h.newest g)
  kept := fun g hg => h'.kept g (h.kept g hg)

/- An admitted record waits behind those of its group. -/
theorem waiting_push
    (s : CaptureQueue G)
    (work : CaptureWrite G)
    (g : G) :
    (s.push work).waiting g =
      if g = work.group then s.waiting g ++ [work]
      else s.waiting g := by
  unfold push waiting
  dsimp only
  cases hFind : Keyed.find (·.group) work.group s.captureQueues with
  | none =>
      -- the group gets a queue of its own
      dsimp only
      unfold Keyed.find at hFind ⊢
      rw [List.find?_append]
      by_cases hg : g = work.group
      · subst hg
        simp [hFind]
      · rw [if_neg hg]
        simp [Ne.symm hg]
  | some q =>
      dsimp only
      by_cases hg : g = work.group
      · subst hg
        rw [if_pos rfl, Keyed.find_modify_self (fun _ hx => by exact hx),
          hFind]
        rfl
      · rw [if_neg hg, Keyed.find_modify_ne (fun _ hx => by exact hx) hg]

section Laws

variable [Name.LetterCase]

theorem waiting_dropCapture
    (s : CaptureQueue G)
    (work : CaptureWrite G) :
    (s.dropCapture work).waiting = s.waiting :=
  rfl

variable {victim : CapturePending G}

/- An eviction takes the newest record of one queue. -/
theorem evict_some
    (hMany : 1 < victim.items.length) :
    ∃ work : CaptureWrite G,
      (s.evict victim).captureQueues =
        Keyed.modify (·.group) victim.group
          (fun q =>
            { q with
              items := q.items.dropLast
              bytes := q.bytes - work.size })
          s.captureQueues ∧
      (s.evict victim).queuedBytes = s.queuedBytes - work.size ∧
      (s.evict victim).queuedRecords = s.queuedRecords - 1 := by
  have hSome : victim.items ≠ [] :=
    List.ne_nil_of_length_pos (by omega)
  refine ⟨victim.items.getLast hSome, ?_⟩
  unfold evict
  rw [List.getLast?_eq_getLast_of_ne_nil hSome]
  exact ⟨rfl, rfl, rfl⟩

section

variable (hKeys : (s.captureQueues.map (·.group)).Nodup)

include hKeys

/- What an eviction leaves of each queue. -/
theorem waiting_evict
    (hMem : victim ∈ s.captureQueues)
    (hMany : 1 < victim.items.length)
    (g : G) :
    (s.evict victim).waiting g =
      if g = victim.group then victim.items.dropLast
      else s.waiting g := by
  rcases evict_some (s := s) hMany with ⟨work, hQueues, -⟩
  unfold waiting
  rw [hQueues]
  by_cases hg : g = victim.group
  · subst hg
    rw [if_pos rfl, Keyed.find_modify_self (fun _ hx => by exact hx),
      Keyed.find_of_mem hKeys hMem]
    rfl
  · rw [if_neg hg, Keyed.find_modify_ne (fun _ hx => by exact hx) hg]

theorem displaced_evict
    (hMem : victim ∈ s.captureQueues)
    (hOther : victim.group ≠ group)
    (hMany : 1 < victim.items.length) :
    Displaced group s (s.evict victim) := by
  have hWaiting := waiting_evict hKeys hMem hMany
  have hItems : s.waiting victim.group = victim.items := by
    unfold waiting
    rw [Keyed.find_of_mem hKeys hMem]
  refine ⟨?_, ?_, ?_, ?_⟩
  · rcases evict_some (s := s) hMany with ⟨work, hQueues, -⟩
    rw [hQueues]
    exact Keyed.map_key_modify (fun _ hx => hx)
  · rw [hWaiting, if_neg hOther.symm]
  · intro g
    rw [hWaiting]
    split
    · rename_i hg
      rw [hg, hItems]
      exact List.dropLast_prefix _
    · exact List.prefix_rfl
  · intro g hg
    rw [hWaiting]
    split
    · apply List.ne_nil_of_length_pos
      rw [List.length_dropLast]
      omega
    · exact hg

theorem displaced_makeCaptureRoom
    (group : G)
    (size : Int)
    (fuel : Nat)
    (orders : List (List G)) :
    Displaced group s (makeCaptureRoom group size fuel orders s).1 := by
  refine (makeCaptureRoom_rule (P := Displaced group s) group size ?_
    fuel orders (.refl group s)).1
  intro t victim ht hMem hOther hMany
  refine ht.trans (displaced_evict ?_ hMem hOther hMany)
  rw [ht.groups]
  exact hKeys

end

/-
  While the bytes fit, a refusal displaces nothing: the first
  displacement makes room.
-/
theorem makeCaptureRoom_refused
    (hRecords : s.queuedRecords ≤ captureQueueRecords)
    (group : G)
    {size : Int}
    (hBytes : s.queuedBytes + size ≤ captureQueueBytes)
    (fuel : Nat)
    (orders : List (List G))
    (hRefused :
      (makeCaptureRoom group size fuel orders s).2 = false) :
    (makeCaptureRoom group size fuel orders s).1 = s := by
  cases fuel with
  | zero => rfl
  | succ fuel =>
      unfold makeCaptureRoom at hRefused ⊢
      split
      · rename_i hPressed
        rw [if_pos hPressed] at hRefused
        split
        · rfl
        · rename_i victim hPick
          rw [hPick] at hRefused
          rcases pickVictim_some hPick with ⟨_, _, hMany⟩
          rcases evict_some (s := s) hMany with
            ⟨work, -, hBytes', hRecords'⟩
          have hRoom : ¬ (s.evict victim).Pressed size := by
            unfold Pressed
            omega
          cases fuel <;>
            simp [makeCaptureRoom, hRoom] at hRefused
      · rfl

/-
  A record is admitted behind those of its group, or refused.
  Either way each other queue that gave way keeps its oldest
  records, at least one of them, and a refusal displaces
  nothing while the bytes fit.
-/
theorem enqueue_displaces
    (hKeys : (s.captureQueues.map (·.group)).Nodup)
    (hRecords : s.queuedRecords ≤ captureQueueRecords)
    (orders : List (List G))
    (work : CaptureWrite G) :
    (∀ g, g ≠ work.group →
      (s.enqueue orders work).waiting g <+: s.waiting g ∧
        (s.waiting g ≠ [] → (s.enqueue orders work).waiting g ≠ [])) ∧
      ((s.enqueue orders work).waiting work.group =
          s.waiting work.group ++ [work] ∨
        (s.enqueue orders work).waiting work.group =
            s.waiting work.group ∧
          (s.queuedBytes + work.size ≤ captureQueueBytes →
            ∀ g, (s.enqueue orders work).waiting g = s.waiting g)) := by
  have hDisplaced :=
    displaced_makeCaptureRoom hKeys work.group work.size
      s.pending.length orders
  unfold enqueue
  split
  · -- refused before any room is made
    exact ⟨fun g _ => ⟨List.prefix_rfl, id⟩, .inr ⟨rfl, fun _ _ => rfl⟩⟩
  split
  · rename_i t hRoom
    rw [hRoom] at hDisplaced
    refine ⟨fun g _ => ⟨hDisplaced.newest g, hDisplaced.kept g⟩,
      .inr ⟨hDisplaced.own, fun hBytes => ?_⟩⟩
    have hSame : t = s := by
      have hRefused :=
        makeCaptureRoom_refused hRecords work.group hBytes
          s.pending.length orders
      rw [hRoom] at hRefused
      exact hRefused rfl
    rw [hSame]
    exact fun _ => rfl
  · rename_i t hRoom
    rw [hRoom] at hDisplaced
    refine ⟨fun g hg => ?_, .inl ?_⟩
    · rw [waiting_push, if_neg hg]
      exact ⟨hDisplaced.newest g, hDisplaced.kept g⟩
    · rw [waiting_push, if_pos rfl, hDisplaced.own]

end Laws

------------------------------------------------------------
-- In Vain
------------------------------------------------------------

section Crowded

local instance displacementCase : Name.LetterCase := Name.asciiCase

/- A string of some bytes. -/
def filled (size : Nat) : String :=
  String.ofList (List.replicate size 'a')

theorem size_filled (size : Nat) :
    (filled size).utf8ByteSize = size := by
  unfold filled
  rw [String.utf8ByteSize_ofList]
  induction size with
  | zero => rfl
  | succ n ih =>
      rw [List.replicate_succ, String.utf8Len_cons, ih]
      rfl

def fragment (group : Nat) (message : String) : CaptureWrite Nat :=
  ⟨.plain "a.service" message, group⟩

/- Full fragments and the rest of a line. -/
def fragments (full rest : String) (group count : Nat) :
    List (CaptureWrite Nat) :=
  List.replicate count (fragment group full) ++ [fragment group rest]

/-
  Five invocations close to the limit of the store, with full
  fragments of 65536 bytes and the rest of 13108.  The first one
  has a full fragment less than the others, and the second one
  byte more.
-/
def crowded (full rest : String) : CaptureQueue Nat :=
  { CaptureQueue.empty with
    captureQueues :=
      [⟨0, fragments full rest 0 50, 3289908⟩,
        ⟨1, fragments full rest 1 51 ++ [fragment 1 "a"], 3355445⟩,
        ⟨2, fragments full rest 2 51, 3355444⟩,
        ⟨3, fragments full rest 3 51, 3355444⟩,
        ⟨4, fragments full rest 4 51, 3355444⟩]
    queuedRecords := 260
    queuedBytes := 16711685
    groups := fun
      | 0 => ⟨3289908, 51⟩
      | 1 => ⟨3355445, 53⟩
      | 2 => ⟨3355444, 52⟩
      | 3 => ⟨3355444, 52⟩
      | 4 => ⟨3355444, 52⟩
      | _ => ⟨0, 0⟩ }

variable {full rest : String}

theorem ofGroup_fragments (g group count : Nat) :
    ofGroup g (fragments full rest group count) =
      if group = g then fragments full rest group count else [] := by
  unfold ofGroup fragments
  split
  · rename_i hg
    simp [fragment, hg]
  · rename_i hg
    simp [fragment, hg]

theorem totals_crowded
    (hFull : full.utf8ByteSize = 65536)
    (hRest : rest.utf8ByteSize = 13108) :
    (crowded full rest).Totals (crowded full rest).pending := by
  have hLength :
      ∀ group count,
        (fragments full rest group count).length = count + 1 := by
    intro group count
    simp [fragments]
  have hBytes :
      ∀ group count,
        bytesOf (fragments full rest group count) =
          count * 65536 + 13108 := by
    intro group count
    simp [fragments, bytesOf, fragment, CaptureWrite.size, Entry.size,
      Entry.plain, hFull, hRest]
  have hLast : (fragment 1 "a").size = 1 := rfl
  have hOwn :
      ∀ g, ofGroup g [fragment 1 "a"] =
        if 1 = g then [fragment 1 "a"] else [] := by
    intro g
    simp [ofGroup, fragment, List.filter_cons]
  have hPending :
      (crowded full rest).pending =
        fragments full rest 0 50 ++
          (fragments full rest 1 51 ++ [fragment 1 "a"] ++
            (fragments full rest 2 51 ++ (fragments full rest 3 51 ++
              fragments full rest 4 51))) := by
    simp [pending, crowded]
  have hGroups :
      ∀ g, ((crowded full rest).groups g).records =
          (ofGroup g (crowded full rest).pending).length ∧
        ((crowded full rest).groups g).bytes =
          bytesOf (ofGroup g (crowded full rest).pending) := by
    intro g
    rw [hPending]
    simp only [ofGroup_append, ofGroup_fragments, hOwn]
    rcases g with _ | _ | _ | _ | _ | g
    · simp [crowded, hBytes, hLength]
    · simp [crowded, hBytes, hLength, hLast]
    · simp [crowded, hBytes, hLength]
    · simp [crowded, hBytes, hLength]
    · simp [crowded, hBytes, hLength]
    · simp [crowded]
  refine ⟨?_, ?_, fun g => (hGroups g).1, fun g => (hGroups g).2⟩
  · rw [hPending]
    simp [crowded, hLength]
  · rw [hPending]
    simp [crowded, hBytes, hLast]

/- The last byte of the second invocation makes no room. -/
theorem makeCaptureRoom_crowded (full rest : String) :
    (makeCaptureRoom 0 65536 260 [] (crowded full rest)).2 = false ∧
      ((makeCaptureRoom 0 65536 260 [] (crowded full rest)).1.waiting
        1).length = 52 :=
  ⟨rfl, rfl⟩

theorem enqueue_crowded
    (hFull : full.utf8ByteSize = 65536)
    (hRest : rest.utf8ByteSize = 13108) :
    ¬ (crowded full rest).Refused (fragment 0 full) ∧
      (crowded full rest).enqueue [] (fragment 0 full) =
        (makeCaptureRoom 0 65536 260 [] (crowded full rest)).1.dropCapture
          (fragment 0 full) := by
  have hSize : (fragment 0 full).size = 65536 := hFull
  have hLength : (crowded full rest).pending.length = 260 := by
    have hRecords := (totals_crowded hFull hRest).records
    exact (Int.ofNat.inj hRecords).symm
  have hTaken : ¬ (crowded full rest).Refused (fragment 0 full) := by
    unfold Refused
    rw [hSize]
    rintro (h | h | h | h | h)
    · cases h
    · exact absurd h (by decide)
    · exact absurd h (by decide : ¬ (4194304 : Int) < 3289908 + 65536)
    · exact absurd h (by decide : ¬ (12288 : Int) ≤ 51)
    · cases h.1
  refine ⟨hTaken, ?_⟩
  unfold enqueue
  rw [if_neg hTaken, hSize, hLength]
  have hNone := (makeCaptureRoom_crowded full rest).1
  change
    (match makeCaptureRoom 0 65536 260 [] (crowded full rest) with
      | (t, false) => t.dropCapture (fragment 0 full)
      | (t, true) => t.push (fragment 0 full)) = _
  generalize makeCaptureRoom 0 65536 260 [] (crowded full rest) = r
    at hNone
  rcases r with ⟨t, room⟩
  subst hNone
  rfl

theorem crowded_in_vain
    (hFull : full.utf8ByteSize = 65536)
    (hRest : rest.utf8ByteSize = 13108) :
    ((crowded full rest).captureQueues.map (·.group)).Nodup ∧
      ((crowded full rest).enqueue [] (fragment 0 full)).waiting 0 =
        (crowded full rest).waiting 0 ∧
      ((crowded full rest).enqueue [] (fragment 0 full)).waiting 1 ≠
        (crowded full rest).waiting 1 := by
  have hDropped := (enqueue_crowded hFull hRest).2
  have hKeys :
      ((crowded full rest).captureQueues.map (·.group)).Nodup := by
    show [0, 1, 2, 3, 4].Nodup
    decide
  refine ⟨hKeys, ?_, ?_⟩
  · rw [hDropped, waiting_dropCapture]
    exact (displaced_makeCaptureRoom hKeys 0 65536 260 []).own
  · intro hSame
    rw [hDropped, waiting_dropCapture] at hSame
    have hAfter := (makeCaptureRoom_crowded full rest).2
    have hBefore : ((crowded full rest).waiting 1).length = 53 := rfl
    rw [hSame, hBefore] at hAfter
    cases hAfter

/-
  A full fragment of the first invocation displaces the last
  byte of the second one and is then refused.
-/
theorem enqueue_in_vain :
    ∃ (s : CaptureQueue Nat) (work : CaptureWrite Nat),
      s.Totals s.pending ∧ ¬ s.Refused work ∧
        (s.captureQueues.map (·.group)).Nodup ∧
        (s.enqueue [] work).waiting 0 = s.waiting 0 ∧
        (s.enqueue [] work).waiting 1 ≠ s.waiting 1 :=
  ⟨crowded (filled 65536) (filled 13108), fragment 0 (filled 65536),
    totals_crowded (size_filled _) (size_filled _),
    (enqueue_crowded (size_filled _) (size_filled _)).1,
    crowded_in_vain (size_filled _) (size_filled _)⟩

/- The second invocation gives way and keeps its other records. -/
theorem enqueue_displaces_crowded :
    ∃ (s : CaptureQueue Nat) (work : CaptureWrite Nat),
      work.group = 0 ∧ (s.enqueue [] work).waiting 1 ≠ s.waiting 1 ∧
        (∀ g, g ≠ work.group →
          (s.enqueue [] work).waiting g <+: s.waiting g ∧
            (s.waiting g ≠ [] → (s.enqueue [] work).waiting g ≠ [])) ∧
        ((s.enqueue [] work).waiting work.group =
            s.waiting work.group ++ [work] ∨
          (s.enqueue [] work).waiting work.group =
              s.waiting work.group ∧
            (s.queuedBytes + work.size ≤ captureQueueBytes →
              ∀ g, (s.enqueue [] work).waiting g = s.waiting g)) := by
  have hVain :=
    crowded_in_vain (size_filled 65536) (size_filled 13108)
  refine ⟨crowded (filled 65536) (filled 13108),
    fragment 0 (filled 65536), rfl, hVain.2.2, ?_⟩
  exact enqueue_displaces hVain.1 (by decide) [] _

end Crowded

end CaptureQueue

end Journal

end Winunitd
