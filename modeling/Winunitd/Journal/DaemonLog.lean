import Winunitd.Journal.DaemonEvent
import Winunitd.Journal.Rotation

/-
  The daemon log.

  One writer appends the lines of accepted events to a file and
  moves it aside before it would grow too large.  Any call to
  the file system may fail; a write may store a part of its
  line, and a crash may cut the file anywhere.  The log tracks
  the size of its file, and does not look at the last line when
  it opens it.  A file that is absent counts as empty.

  Key definitions include:
    * `DaemonLog.writeOne`, `DaemonLog.rotate`
    * `DaemonLog.Rotates`
    * `daemonLog`
    * `OwnLine`

  Key theorems include:
    * `DaemonLog.file_bounded`
    * `DaemonLog.lines_readable`
-/

------------------------------------------------------------
-- Lines
------------------------------------------------------------

namespace Winunitd

namespace Journal

open Lib

def maxDaemonFileBytes : Nat := 262144

/- A record whose write has succeeded, and what was before it. -/
structure Placed where
  before : List UInt8
  line : List UInt8
  view : DaemonEventView
deriving DecidableEq

def Placed.text (p : Placed) : List UInt8 :=
  p.before ++ (p.line ++ [newline])

/- What comes next begins a line. -/
def Ended (bytes : List UInt8) : Prop :=
  bytes = [] ∨ bytes.getLast? = some newline

instance (bytes : List UInt8) : Decidable (Ended bytes) :=
  inferInstanceAs (Decidable (_ ∨ _))

/- The record is a line of the file, and nothing else is in it. -/
def OwnLine (bytes : List UInt8) (p : Placed) : Prop :=
  Ended p.before ∧ newline ∉ p.line ∧ p.text <+: bytes

instance (bytes : List UInt8) (p : Placed) :
    Decidable (OwnLine bytes p) :=
  inferInstanceAs (Decidable (_ ∧ _ ∧ _))

------------------------------------------------------------
-- The Writer
------------------------------------------------------------

/- A file, with the records that were written to it. -/
structure LogFile where
  bytes : List UInt8 := []
  placed : List Placed := []
deriving DecidableEq

/- `isOpen` says that the writer has a file. -/
structure DaemonLog where
  current : LogFile := {}
  archive : LogFile := {}
  isOpen : Bool := true
  size : Nat := 0
deriving DecidableEq

/-
  The errors of a rotation.  `chain` is that of the tests of the
  path to the archive, which may be a link.
-/
structure LogRotation where
  close : Option String := none
  chain : Option String := none
  remove : Option String := none
  rename : Option String := none
  openFile : Option String := none

/- It does not fail before the file is moved. -/
def LogRotation.Moves (o : LogRotation) : Prop :=
  o.close = none ∧ o.chain = none ∧ o.remove = none ∧ o.rename = none

instance (o : LogRotation) : Decidable o.Moves :=
  inferInstanceAs (Decidable (_ ∧ _ ∧ _ ∧ _))

/- `written` counts the bytes that a failed write has stored. -/
structure LogOutcome where
  sink : Option String := none
  openFile : Option String := none
  rotate : LogRotation := {}
  written : Nat := 0
  err : Option String := none
  sync : Option String := none

/- The error of a call, and the log after it. -/
abbrev LogResult := Option String × DaemonLog

/- Go on unless there was an error. -/
def LogResult.andThen
    (r : LogResult)
    (k : DaemonLog → LogResult) : LogResult :=
  match r with
  | (some err, l) => (some err, l)
  | (none, l) => k l

namespace DaemonLog

/- Both callers take the file to be empty. -/
def openContained
    (l : DaemonLog)
    (err : Option String) : LogResult :=
  match err with
  | some err => (some err, l)
  | none => (none, { l with isOpen := true, size := 0 })

def rotate (l : DaemonLog) (o : LogRotation) : LogResult :=
  let l := { l with isOpen := false }
  LogResult.andThen (o.close, l) (fun l =>
    LogResult.andThen (o.chain, l) (fun l =>
      LogResult.andThen (o.remove, l) (fun l =>
        LogResult.andThen (o.rename, { l with archive := {} }) (fun l =>
          openContained { l with archive := l.current, current := {} }
            o.openFile))))

/- The line goes to the file, all of it unless the write fails. -/
def append
    (l : DaemonLog)
    (line : List UInt8)
    (view : DaemonEventView)
    (o : LogOutcome) : LogResult :=
  let data := line ++ [newline]
  let stored := if o.err.isNone then data else data.take o.written
  let err := o.err.or o.sync
  (err,
    { l with
      size := l.size + stored.length
      current :=
        { bytes := l.current.bytes ++ stored
          placed :=
            if err.isNone then
              l.current.placed ++ [⟨l.current.bytes, line, view⟩]
            else l.current.placed } })

/- The file, opened where it is not. -/
def ensureOpen (l : DaemonLog) (o : LogOutcome) : LogResult :=
  if l.isOpen then (none, l) else l.openContained o.openFile

/- A file with room for the line. -/
def makeRoom
    (l : DaemonLog)
    (line : List UInt8)
    (o : LogOutcome) : LogResult :=
  if maxDaemonFileBytes < l.size + (line.length + 1) then
    l.rotate o.rotate
  else (none, l)

def writeOne
    (l : DaemonLog)
    (line : List UInt8)
    (view : DaemonEventView)
    (o : LogOutcome) : LogResult :=
  LogResult.andThen (o.sink, l) (fun l =>
    LogResult.andThen (l.ensureOpen o) (fun l =>
      LogResult.andThen (l.makeRoom line o) (fun l =>
        l.append line view o)))

/-
  The file is moved before the line is written.  A file that has
  to be opened is taken to be empty.
-/
def Rotates (l : DaemonLog) (line : List UInt8) : Prop :=
  maxDaemonFileBytes <
    (if l.isOpen then l.size else 0) + (line.length + 1)

instance (l : DaemonLog) (line : List UInt8) :
    Decidable (l.Rotates line) :=
  inferInstanceAs (Decidable (_ < _))

/- A crash keeps `k` bytes; the log is then opened again. -/
def restart (l : DaemonLog) (k : Nat) : DaemonLog :=
  { l with
    current :=
      { bytes := l.current.bytes.take k
        placed := l.current.placed.filter (fun p => p.text.length ≤ k) }
    isOpen := true
    size := (l.current.bytes.take k).length }

/- `OpenDaemonLog` on files that are not too large. -/
structure Initial (l : DaemonLog) : Prop where
  isOpen : l.isOpen = true
  size : l.size = l.current.bytes.length
  bounded :
    l.current.bytes.length ≤ maxDaemonFileBytes ∧
      l.archive.bytes.length ≤ maxDaemonFileBytes
  placed : l.current.placed = [] ∧ l.archive.placed = []

end DaemonLog

/- An event comes at a time, or the daemon crashes. -/
inductive LogLabel where
| write (now : List Char) (ev : DaemonEvent) (o : LogOutcome)
| restart (k : Nat)

/- Events that cannot be encoded are dropped. -/
def daemonLog [Name.LetterCase] [DaemonJson] :
    System DaemonLog LogLabel where
  init := DaemonLog.Initial
  step l
  | .write now ev o =>
      match encodeDaemonEvent now ev with
      | none => some l
      | some (line, view) => some (l.writeOne line view o).2
  | .restart k => some (l.restart k)

------------------------------------------------------------
-- Writes
------------------------------------------------------------

namespace DaemonLog

variable {l m : DaemonLog}
variable {line : List UInt8}
variable {view : DaemonEventView}
variable {o : LogOutcome}

theorem andThen_cases
    (r : LogResult)
    (k : DaemonLog → LogResult) :
    (∃ err, r.1 = some err ∧ r.andThen k = (some err, r.2)) ∨
      r.1 = none ∧ r.andThen k = k r.2 := by
  rcases r with ⟨err, l⟩
  cases err with
  | some err => exact Or.inl ⟨err, rfl, rfl⟩
  | none => exact Or.inr ⟨rfl, rfl⟩

/-
  What happens before a line reaches the file: it is opened
  where it is not, closed by a rotation that fails, or moved
  aside.
-/
inductive Prepares (l : DaemonLog) (o : LogRotation) :
    DaemonLog → Prop where
| same : Prepares l o l
| opened {m : DaemonLog} :
    Prepares l o m → m.isOpen = false →
    Prepares l o { m with isOpen := true, size := 0 }
| closed {m : DaemonLog} (archive : LogFile) :
    Prepares l o m →
    archive = m.archive ∨ archive = {} →
    ¬o.Moves →
    Prepares l o { m with isOpen := false, archive := archive }
| moved {m : DaemonLog} :
    Prepares l o m →
    Prepares l o
      { m with isOpen := false, archive := m.current, current := {} }

variable {r : LogRotation}

theorem openContained_prepares
    (hClosed : l.isOpen = false)
    (hFrom : Prepares m r l)
    (err : Option String) :
    Prepares m r (l.openContained err).2 ∧
      ((l.openContained err).1 = none →
        (l.openContained err).2 =
          { l with isOpen := true, size := 0 }) := by
  cases err with
  | some err => exact ⟨hFrom, nofun⟩
  | none => exact ⟨hFrom.opened hClosed, fun _ => rfl⟩

theorem rotate_prepares
    (hFrom : Prepares m r l) :
    Prepares m r (l.rotate r).2 ∧
      ((l.rotate r).1 = none →
        (l.rotate r).2.isOpen = true ∧ (l.rotate r).2.size = 0 ∧
          (l.rotate r).2.current = {}) := by
  unfold rotate
  cases hClose : r.close with
  | some err =>
    exact ⟨hFrom.closed _ (Or.inl rfl)
      (by simp [LogRotation.Moves, hClose]), nofun⟩
  | none =>
    cases hChain : r.chain with
    | some err =>
      exact ⟨hFrom.closed _ (Or.inl rfl)
        (by simp [LogRotation.Moves, hChain]), nofun⟩
    | none =>
      cases hRemove : r.remove with
      | some err =>
        exact ⟨hFrom.closed _ (Or.inl rfl)
          (by simp [LogRotation.Moves, hRemove]), nofun⟩
      | none =>
        cases hRename : r.rename with
        | some err =>
          exact ⟨hFrom.closed _ (Or.inr rfl)
            (by simp [LogRotation.Moves, hRename]), nofun⟩
        | none =>
          have hOpened :=
            openContained_prepares rfl hFrom.moved r.openFile
          refine ⟨hOpened.1, fun hNone => ?_⟩
          have hLog := hOpened.2 hNone
          exact ⟨congrArg isOpen hLog, congrArg size hLog,
            congrArg current hLog⟩

theorem ensureOpen_prepares
    (l : DaemonLog)
    (o : LogOutcome) :
    Prepares l o.rotate (l.ensureOpen o).2 ∧
      ((l.ensureOpen o).1 = none →
        (l.ensureOpen o).2 =
          { l with
            isOpen := true
            size := if l.isOpen then l.size else 0 }) := by
  unfold ensureOpen
  split
  · rename_i hOpen
    refine ⟨.same, fun _ => ?_⟩
    rw [← hOpen]
  · rename_i hClosed
    exact openContained_prepares (Bool.eq_false_iff.mpr hClosed)
      .same o.openFile

/-
  The line is appended to an open file that has room for it, a
  new one if the write moves the file first.
-/
theorem writeOne_cases
    (l : DaemonLog)
    (line : List UInt8)
    (view : DaemonEventView)
    (o : LogOutcome) :
    ∃ m, Prepares l o.rotate m ∧
      ((∃ err, l.writeOne line view o = (some err, m)) ∨
        l.writeOne line view o = m.append line view o ∧
          m.isOpen = true ∧
          (m.size = 0 ∨
            m.size + (line.length + 1) ≤ maxDaemonFileBytes) ∧
          m.current = if l.Rotates line then {} else l.current) := by
  unfold writeOne
  rcases andThen_cases (o.sink, l) _ with ⟨err, _, hEq⟩ | ⟨_, hEq⟩
  · exact ⟨l, .same, Or.inl ⟨err, hEq⟩⟩
  rw [hEq]
  obtain ⟨hFrom, hOpen⟩ := ensureOpen_prepares l o
  rcases andThen_cases (l.ensureOpen o) _ with
    ⟨err, _, hEq⟩ | ⟨hNone, hEq⟩
  · exact ⟨_, hFrom, Or.inl ⟨err, hEq⟩⟩
  rw [hEq]
  have hm := hOpen hNone
  generalize (l.ensureOpen o).2 = m at hFrom hm ⊢
  have hSize : m.size = if l.isOpen then l.size else 0 := by rw [hm]
  unfold makeRoom
  split
  · rename_i hFull
    have hRotates : l.Rotates line := by
      rw [hSize] at hFull
      exact hFull
    have hRotated := rotate_prepares hFrom
    rcases andThen_cases (m.rotate o.rotate) _ with
      ⟨err, _, hEq⟩ | ⟨hRotate, hEq⟩
    · exact ⟨_, hRotated.1, Or.inl ⟨err, hEq⟩⟩
    · obtain ⟨hOpened, hEmpty, hCurrent⟩ := hRotated.2 hRotate
      exact ⟨_, hRotated.1,
        Or.inr ⟨hEq, hOpened, Or.inl hEmpty,
          by rw [hCurrent, if_pos hRotates]⟩⟩
  · rename_i hRoom
    have hStays : ¬l.Rotates line := by
      rw [hSize] at hRoom
      exact hRoom
    refine ⟨m, hFrom, Or.inr ⟨rfl, by rw [hm],
      Or.inr (Nat.le_of_not_lt hRoom), ?_⟩⟩
    rw [hm, if_neg hStays]

section

variable [Name.LetterCase] [DaemonJson]
variable {label : LogLabel}

theorem step_cases
    (hStep : daemonLog.step l label = some m) :
    m = l ∨
      (∃ k, label = .restart k ∧ m = l.restart k) ∨
      ∃ now ev o line view, label = .write now ev o ∧
        encodeDaemonEvent now ev = some (line, view) ∧
        m = (l.writeOne line view o).2 := by
  cases label with
  | restart k => exact Or.inr (Or.inl ⟨k, rfl, by cases hStep; rfl⟩)
  | write now ev o =>
    simp only [daemonLog] at hStep
    split at hStep
    · cases hStep
      exact Or.inl rfl
    · rename_i line view hEncode
      cases hStep
      exact Or.inr (Or.inr ⟨now, ev, o, line, view, rfl, hEncode, rfl⟩)

------------------------------------------------------------
-- The Size
------------------------------------------------------------

/- A log without an open file has nothing in the file. -/
structure Tracked (l : DaemonLog) : Prop where
  bounded : l.current.bytes.length ≤ maxDaemonFileBytes
  size : l.isOpen = true → l.size = l.current.bytes.length
  closed : l.isOpen = false → l.current.bytes = []

/- In no write does a rotation fail before the file is moved. -/
def Orderly (_ : DaemonLog) : LogLabel → Prop
| .write _ _ o => o.rotate.Moves
| .restart _ => True

instance (l : DaemonLog) : ∀ label, Decidable (l.Orderly label)
| .write _ _ o => inferInstanceAs (Decidable o.rotate.Moves)
| .restart _ => isTrue trivial

omit [Name.LetterCase] [DaemonJson] in
theorem Tracked.prepares
    (h : Tracked l)
    (hMoves : r.Moves)
    (hPrepares : Prepares l r m) :
    Tracked m := by
  induction hPrepares with
  | same => exact h
  | opened _ hClosed ih =>
    refine ⟨ih.bounded, fun _ => ?_, nofun⟩
    simp [ih.closed hClosed]
  | closed _ _ _ hFailed => exact absurd hMoves hFailed
  | moved => exact ⟨Nat.zero_le _, nofun, fun _ => rfl⟩

omit [Name.LetterCase] [DaemonJson] in
theorem Tracked.append
    (h : Tracked l)
    (hOpen : l.isOpen = true)
    (hLine : line.length ≤ maxDaemonRecordBytes)
    (hRoom :
      l.size = 0 ∨ l.size + (line.length + 1) ≤ maxDaemonFileBytes) :
    Tracked (l.append line view o).2 := by
  have hStored :
      (if o.err.isNone then line ++ [newline]
        else (line ++ [newline]).take o.written).length ≤
          line.length + 1 := by
    split <;> simp
  have hSize := h.size hOpen
  refine ⟨?_, fun _ => ?_, fun hClosed => ?_⟩
  · simp only [DaemonLog.append, List.length_append]
    unfold maxDaemonRecordBytes at hLine
    unfold maxDaemonFileBytes at *
    omega
  · simp only [DaemonLog.append, List.length_append, hSize]
  · exact absurd hOpen (by simp [show l.isOpen = false from hClosed])

theorem Tracked.step
    (h : Tracked l)
    (hOrderly : l.Orderly label)
    (hStep : daemonLog.step l label = some m) :
    Tracked m := by
  rcases step_cases hStep with
    rfl | ⟨k, -, rfl⟩ | ⟨now, ev, o, line, view, rfl, hEncode, rfl⟩
  · exact h
  · refine ⟨?_, fun _ => rfl, nofun⟩
    exact Nat.le_trans (List.length_take_le' _ _) h.bounded
  · obtain ⟨m, hFrom, ⟨err, hEq⟩ | ⟨hEq, hOpen, hRoom, -⟩⟩ :=
      writeOne_cases l line view o
    all_goals
      rw [hEq]
      have hTracked := h.prepares hOrderly hFrom
    · exact hTracked
    · have hLine := (encodeDaemonEvent_cases hEncode).2.2.1
      exact hTracked.append hOpen hLine hRoom

/-
  While no rotation fails before the file is moved, the file
  stays within its bound and its size is known.
-/
theorem file_bounded
    (h : daemonLog.ReachableWhere Orderly l) :
    l.current.bytes.length ≤ maxDaemonFileBytes ∧
      (l.isOpen = true → l.size = l.current.bytes.length) := by
  have hTracked : Tracked l :=
    System.reachableWhere_invariant
      (fun l hInit =>
        ⟨hInit.bounded.1, fun _ => hInit.size,
          fun hClosed => absurd hInit.isOpen (by simp [hClosed])⟩)
      (fun _ _ _ _ hTracked hOrderly hStep =>
        hTracked.step hOrderly hStep) h
  exact ⟨hTracked.bounded, hTracked.size⟩

end

section

attribute [local instance] Name.asciiCase hostJson

/- The write of the event that the daemon is open. -/
def writeOpen (o : LogOutcome) : LogLabel :=
  .write openView.timestamp openView.event o

theorem step_writeOpen
    (l : DaemonLog)
    (o : LogOutcome) :
    daemonLog.step l (writeOpen o) =
      some (l.writeOne openLine openView o).2 := by
  simp only [daemonLog, writeOpen, encode_openView]

theorem file_bounded_written :
    ∃ l, daemonLog.ReachableWhere Orderly l ∧
      l.current.bytes = openLine ++ [newline] ∧
      l.current.bytes.length ≤ maxDaemonFileBytes ∧
      (l.isOpen = true → l.size = l.current.bytes.length) := by
  have hReach := System.reachableWhere_of_run
    (M := daemonLog) (C := Orderly) (s := {})
    [writeOpen {}] ⟨rfl, rfl, by decide, rfl, rfl⟩
    (by rw [System.run, step_writeOpen]; rfl) (by decide +kernel)
  exact ⟨_, hReach, rfl, file_bounded hReach⟩

/-
  The file is full and cannot be moved.  It is then opened with
  the size of an empty file, and the next line goes to its end.
-/
theorem file_exceeded :
    ∃ l, daemonLog.Reachable l ∧
      maxDaemonFileBytes < l.current.bytes.length ∧
      l.isOpen = true ∧ l.size ≠ l.current.bytes.length := by
  obtain ⟨bytes, hFull⟩ :
      ∃ bytes : List UInt8, bytes.length = 262144 :=
    ⟨List.replicate 262144 65, List.length_replicate⟩
  have hRoom : ¬262144 < openLine.length + 1 := by decide +kernel
  have hRun :
      daemonLog.run
          { current := { bytes := bytes }, size := 262144 }
          [writeOpen { rotate := { rename := some "in use" } },
            writeOpen {}] =
        some
          { current :=
              { bytes := bytes ++ (openLine ++ [newline])
                placed := [⟨bytes, openLine, openView⟩] }
            size := openLine.length + 1 } := by
    simp [System.run, step_writeOpen, writeOne, ensureOpen, makeRoom,
      maxDaemonFileBytes, rotate, LogResult.andThen, openContained,
      append, hRoom]
  refine ⟨_, System.reachable_of_run _ ?_ hRun, ?_, rfl, ?_⟩
  · exact ⟨rfl, hFull.symm, by simp [hFull, maxDaemonFileBytes], rfl,
      rfl⟩
  · simp [maxDaemonFileBytes, hFull]
  · simp only [List.length_append, List.length_singleton, hFull]
    omega

end

------------------------------------------------------------
-- The Lines
------------------------------------------------------------

section

variable [Name.LetterCase] [DaemonJson]

/- The records of a file are where they were written. -/
def Readable (f : LogFile) : Prop :=
  ∀ p ∈ f.placed,
    newline ∉ p.line ∧ p.text <+: f.bytes ∧
      decodeDaemonEvent p.line = some p.view

def Sound (l : DaemonLog) : Prop :=
  Readable l.current ∧ Readable l.archive

theorem Sound.prepares
    (h : Sound l)
    (hPrepares : Prepares l r m) :
    Sound m := by
  have hEmpty : Readable {} := nofun
  induction hPrepares with
  | same => exact h
  | opened _ _ ih => exact ih
  | closed _ _ hArchive _ ih =>
    refine ⟨ih.1, ?_⟩
    rcases hArchive with rfl | rfl
    · exact ih.2
    · exact hEmpty
  | moved _ ih => exact ⟨hEmpty, ih.1⟩

variable {now : List Char}
variable {ev : DaemonEvent}

theorem newline_not_mem
    (h : encodeDaemonEvent now ev = some (line, view)) :
    newline ∉ line := by
  obtain ⟨-, -, -, hAllowed, -⟩ := encodeDaemonEvent_cases h
  exact (not_mem_of_payloadForbidden hAllowed).1

/- What stands in the file keeps its place; the line follows. -/
theorem Sound.append
    (hEncode : encodeDaemonEvent now ev = some (line, view))
    (h : Sound l) :
    Sound (l.append line view o).2 := by
  have hOld :
      ∀ p ∈ l.current.placed,
        newline ∉ p.line ∧
          p.text <+: (l.append line view o).2.current.bytes ∧
          decodeDaemonEvent p.line = some p.view := by
    intro p hp
    obtain ⟨hLine, hText, hDecode⟩ := h.1 p hp
    exact ⟨hLine, hText.trans (List.prefix_append ..), hDecode⟩
  refine ⟨fun p hp => ?_, h.2⟩
  simp only [DaemonLog.append] at hp
  split at hp
  · rename_i hNone
    rcases List.mem_append.mp hp with hp | hp
    · exact hOld p hp
    obtain rfl := List.mem_singleton.mp hp
    rw [Option.isNone_iff_eq_none, Option.or_eq_none_iff] at hNone
    exact ⟨newline_not_mem hEncode,
      by simp [DaemonLog.append, Placed.text, hNone.1],
      decode_encodeDaemonEvent hEncode⟩
  · exact hOld p hp

theorem Sound.step
    {label : LogLabel}
    (h : Sound l)
    (hStep : daemonLog.step l label = some m) :
    Sound m := by
  rcases step_cases hStep with
    rfl | ⟨k, -, rfl⟩ | ⟨now, ev, o, line, view, rfl, hEncode, rfl⟩
  · exact h
  · refine ⟨fun p hp => ?_, h.2⟩
    obtain ⟨hp, hStop⟩ := List.mem_filter.mp hp
    obtain ⟨hLine, hText, hDecode⟩ := h.1 p hp
    exact ⟨hLine, List.prefix_take_iff.mpr
      ⟨hText, of_decide_eq_true hStop⟩, hDecode⟩
  · obtain ⟨m, hFrom, ⟨err, hEq⟩ | ⟨hEq, -, -, -⟩⟩ :=
      writeOne_cases l line view o
    all_goals rw [hEq]
    · exact h.prepares hFrom
    · exact Sound.append hEncode (h.prepares hFrom)

theorem Readable.ownLine_iff
    {f : LogFile}
    (h : Readable f)
    {p : Placed}
    (hp : p ∈ f.placed) :
    OwnLine f.bytes p ↔ Ended p.before := by
  obtain ⟨hLine, hText, -⟩ := h p hp
  exact ⟨And.left, fun hBefore => ⟨hBefore, hLine, hText⟩⟩

omit [Name.LetterCase] [DaemonJson] in
/- A write that succeeds leaves its record in the file. -/
theorem writeOne_places
    (hWrite : (l.writeOne line view o).1 = none) :
    ⟨if l.Rotates line then [] else l.current.bytes, line, view⟩ ∈
      (l.writeOne line view o).2.current.placed := by
  obtain ⟨m, -, ⟨err, hEq⟩ | ⟨hEq, -, -, hCurrent⟩⟩ :=
    writeOne_cases l line view o
  all_goals rw [hEq] at hWrite ⊢
  · cases hWrite
  · have hBytes :
        m.current.bytes =
          if l.Rotates line then [] else l.current.bytes := by
      rw [hCurrent, apply_ite LogFile.bytes]
    have hDone : (o.err.or o.sync).isNone = true :=
      Option.isNone_iff_eq_none.mpr hWrite
    simp only [DaemonLog.append, hDone, if_true, hBytes]
    exact List.mem_append_right _ (List.mem_singleton_self _)

omit [Name.LetterCase] [DaemonJson] in
theorem ended_ite
    (l : DaemonLog)
    (line : List UInt8) :
    Ended (if l.Rotates line then [] else l.current.bytes) ↔
      Ended l.current.bytes ∨ l.Rotates line := by
  split
  · rename_i hRotates
    exact ⟨fun _ => Or.inr hRotates, fun _ => Or.inl rfl⟩
  · rename_i hStays
    exact ⟨Or.inl, fun hOr => hOr.resolve_right hStays⟩

/-
  Every record whose write succeeded yields the accepted view.  It
  is a line of its own just if the file was ended when it was
  written, or was moved aside first, until a crash cuts it off or
  the file is moved aside a second time.
-/
theorem lines_readable
    (h : daemonLog.Reachable l) :
    (∀ f, f = l.current ∨ f = l.archive → ∀ p ∈ f.placed,
      decodeDaemonEvent p.line = some p.view ∧
        (OwnLine f.bytes p ↔ Ended p.before)) ∧
      ∀ now ev o line view,
        encodeDaemonEvent now ev = some (line, view) →
        (l.writeOne line view o).1 = none →
        ∃ p ∈ (l.writeOne line view o).2.current.placed,
          p.line = line ∧ p.view = view ∧
            decodeDaemonEvent line = some view ∧
            (OwnLine (l.writeOne line view o).2.current.bytes p ↔
              Ended l.current.bytes ∨ l.Rotates line) := by
  have hSound : Sound l :=
    System.reachable_invariant
      (fun l hInit =>
        ⟨fun p hp => absurd (hInit.placed.1 ▸ hp) List.not_mem_nil,
          fun p hp => absurd (hInit.placed.2 ▸ hp) List.not_mem_nil⟩)
      (fun _ _ _ _ hSound hStep => hSound.step hStep) h
  refine ⟨?_, ?_⟩
  · intro f hf p hp
    have hReadable : Readable f := by
      rcases hf with rfl | rfl
      · exact hSound.1
      · exact hSound.2
    exact ⟨(hReadable p hp).2.2, hReadable.ownLine_iff hp⟩
  · intro now ev o line view hEncode hWrite
    have hStep :
        daemonLog.step l (.write now ev o) =
          some (l.writeOne line view o).2 := by
      simp only [daemonLog, hEncode]
    have hPlaced := writeOne_places hWrite
    refine ⟨_, hPlaced, rfl, rfl, decode_encodeDaemonEvent hEncode, ?_⟩
    rw [(hSound.step hStep).1.ownLine_iff hPlaced]
    exact ended_ite l line

end

section

attribute [local instance] Name.asciiCase hostJson

/- A write stores one byte. -/
def tornLog : DaemonLog :=
  { current := { bytes := [123] }, size := 1 }

theorem reachable_tornLog :
    daemonLog.Reachable tornLog := by
  refine System.reachable_of_run (M := daemonLog) (s := {})
    [writeOpen { written := 1, err := some "disk full" }]
    ⟨rfl, rfl, by decide, rfl, rfl⟩ ?_
  rw [System.run, step_writeOpen]
  decide +kernel

/- The torn line is cut off by a crash. -/
theorem lines_readable_cut :
    ∃ l, daemonLog.Reachable l ∧ Ended l.current.bytes ∧
      ∃ p ∈ (l.writeOne openLine openView {}).2.current.placed,
        p.line = openLine ∧ p.view = openView ∧
          decodeDaemonEvent openLine = some openView ∧
          (OwnLine (l.writeOne openLine openView {}).2.current.bytes p ↔
            Ended l.current.bytes ∨ l.Rotates openLine) := by
  have hReach : daemonLog.Reachable (tornLog.restart 0) :=
    System.Reachable.step reachable_tornLog (l := .restart 0) rfl
  exact ⟨_, hReach, by decide,
    (lines_readable hReach).2 _ _ {} _ _ encode_openView
      (by decide +kernel)⟩

/- The next record is on the line of the torn one. -/
theorem torn_line_merges :
    daemonLog.Reachable tornLog ∧
      (tornLog.writeOne openLine openView {}).1 = none ∧
      (tornLog.writeOne openLine openView {}).2.current.bytes =
        123 :: (openLine ++ [newline]) ∧
      decodeDaemonEvent (123 :: openLine) = none ∧
      ∀ p ∈ (tornLog.writeOne openLine openView {}).2.current.placed,
        ¬OwnLine
          (tornLog.writeOne openLine openView {}).2.current.bytes
          p := by
  exact ⟨reachable_tornLog, by decide +kernel, by decide +kernel,
    by decide +kernel, by decide +kernel⟩

end

end DaemonLog

end Journal

end Winunitd
