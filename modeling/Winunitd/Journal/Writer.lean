import Winunitd.Journal.FairQueue
import Winunitd.Lib.Transition

/-
  The journal writer and the unit files.

  One goroutine takes records from the fair queue, appends
  them to their files and releases them.  A file buffers
  whole records; a flush may write any number of the buffered
  bytes, and closing the store counts the records that it
  has to abandon.  Captures enqueue, timers and queries
  flush, and the store is closed at any time.

  Opening, rotation, retirement and disk reservation can make
  an append fail, and each writes the buffer out first; an
  append is therefore a flush or none, and then a record that
  is accepted or refused.

  Key definitions include:
    * `UnitFile`, `UnitFile.flush`
    * `acceptRecord`
    * `Writer`
    * `Store`, `Store.step`
    * `journal`

  Key theorems include:
    * `flushRecords_keeps`
-/

------------------------------------------------------------
-- Unit Files
------------------------------------------------------------

namespace Winunitd

namespace Journal

open Lib

variable {G : Type}

def journalBufferSize : Nat := 4096

/-
  A unit's journal file: the records that are wholly in it,
  and those in its buffer with the bytes still to be written.
-/
structure UnitFile (G : Type) where
  unit : String
  written : List (CaptureWrite G)
  records : List (CaptureWrite G × Nat)
  closed : Bool
deriving DecidableEq, Repr

namespace UnitFile

/- A file that was just opened. -/
def opened (unit : String) : UnitFile G where
  unit := unit
  written := []
  records := []
  closed := false

/- Bytes in the buffer. -/
def buffered (f : UnitFile G) : Nat :=
  (f.records.map Prod.snd).sum

/- The records that the file has accepted. -/
def entries (f : UnitFile G) : List (CaptureWrite G) :=
  f.written ++ f.records.map Prod.fst

end UnitFile

/-
  The records that a write of `left` bytes completes, and
  those that it leaves in the buffer.
-/
def flushRecords : Nat → List (CaptureWrite G × Nat) →
    List (CaptureWrite G) × List (CaptureWrite G × Nat)
| _, [] => ([], [])
| left, (work, remaining) :: rest =>
    if left = 0 then ([], (work, remaining) :: rest)
    else if left < remaining then
      ([], (work, remaining - left) :: rest)
    else
      let (done, rest) := flushRecords (left - remaining) rest
      (work :: done, rest)

/- Write `n` of the buffered bytes. -/
def UnitFile.flush (f : UnitFile G) (n : Nat) : UnitFile G :=
  if n ≤ f.buffered then
    { f with
      written := f.written ++ (flushRecords n f.records).1
      records := (flushRecords n f.records).2 }
  else
    f

/- Write `n` bytes for the last time, and close the file. -/
def UnitFile.shut (f : UnitFile G) (n : Nat) : UnitFile G :=
  { f.flush n with records := [], closed := true }

section

variable (f : UnitFile G)
variable (n : Nat)

/- A flush neither loses nor reorders records. -/
theorem flushRecords_keeps
    (records : List (CaptureWrite G × Nat)) :
    (flushRecords n records).1 ++
        (flushRecords n records).2.map Prod.fst =
      records.map Prod.fst := by
  induction records generalizing n with
  | nil => rfl
  | cons r rest ih =>
      unfold flushRecords
      split
      · rfl
      · split
        · rfl
        · simp only [List.cons_append, List.map_cons, ih]

@[simp] theorem UnitFile.entries_flush :
    (f.flush n).entries = f.entries := by
  unfold flush
  split
  · simp only [entries, List.append_assoc, flushRecords_keeps]
  · rfl

@[simp] theorem UnitFile.unit_flush :
    (f.flush n).unit = f.unit := by
  unfold flush
  split <;> rfl

@[simp] theorem UnitFile.unit_shut :
    (f.shut n).unit = f.unit :=
  f.unit_flush n

@[simp] theorem UnitFile.entries_shut :
    (f.shut n).entries = (f.flush n).written := by
  simp [shut, entries]

end

/-
  The files after a record was accepted by the file of its
  unit; its encoding has `raw` bytes.
-/
def acceptRecord
    (files : List (UnitFile G))
    (unit : String)
    (work : CaptureWrite G)
    (raw : Nat) :
    Option (List (UnitFile G)) :=
  match Keyed.find (·.unit) unit files with
  | none =>
      some
        (files ++
          [{ UnitFile.opened unit with records := [(work, raw)] }])
  | some f =>
      if f.closed = false ∧
          (f.buffered = 0 ∨ f.buffered + raw ≤ journalBufferSize) then
        some
          (Keyed.modify (·.unit) unit
            (fun f => { f with records := f.records ++ [(work, raw)] })
            files)
      else
        none

------------------------------------------------------------
-- The Store
------------------------------------------------------------

/- Where the writer is. -/
inductive Writer (G : Type) where
| idle
| waiting
| holding (work : CaptureWrite G)
| wrote (work : CaptureWrite G) (err : Option String)
| reported (work : CaptureWrite G) (err : Option String)
| closing (rest : List String)
| failed (unit : String) (err : String) (rest : List String)
| done
deriving DecidableEq, Repr

namespace Writer

/- The popped record whose fate is still open. -/
def hand : Writer G → List (CaptureWrite G)
| .holding work => [work]
| .wrote work (some _) | .reported work (some _) => [work]
| _ => []

/- The popped record that still counts as queued. -/
def unreleased : Writer G → List (CaptureWrite G)
| .holding work | .wrote work _ | .reported work _ => [work]
| _ => []

end Writer

/-
  A store.  The last three fields record the run: the calls
  of `enqueue`, the records appended, in order, and those
  that `append` ignored.
-/
structure Store (G : Type) where
  queue : CaptureQueue G
  files : List (UnitFile G)
  writer : Writer G
  enqueued : List (CaptureWrite G)
  appended : List (CaptureWrite G)
  unfiled : List (CaptureWrite G)

/- What can happen next. -/
inductive Label (G : Type) where
| enqueue (work : CaptureWrite G) (orders : List (List G))
| closeQueue
| tick
| append (raw : Nat) (err : Option String)
| flush (unit : String) (n : Nat)
| report (unit : String) (message : String)
| closeFile (unit : String) (n : Nat) (err : Option String)

namespace Store

/- A store that was just opened. -/
def opened : Store G where
  queue := .empty
  files := []
  writer := .idle
  enqueued := []
  appended := []
  unfiled := []

/- The records in the files. -/
def kept (s : Store G) : List (CaptureWrite G) :=
  s.files.flatMap UnitFile.entries

variable [Name.LetterCase]

/- Count a storage error. -/
def countError
    (queue : CaptureQueue G)
    (unit : String)
    (err : Option String) :
    CaptureQueue G :=
  match err with
  | none => queue
  | some message =>
      { queue with
        stats := queue.stats.add unit (.storageError message) }

/- Count the records that closing a file abandons. -/
def countLost
    (queue : CaptureQueue G)
    (unit : String)
    (lost : List (CaptureWrite G)) :
    CaptureQueue G :=
  { queue with
    stats :=
      queue.stats.add unit
        (.dropped lost.length (lost.map CaptureWrite.size).sum)
    counted := queue.counted ++ lost }

variable [DecidableEq G]

/- One step of the writer under the queue lock. -/
def tick (s : Store G) : Option (Store G) :=
  match s.writer with
  | .idle =>
      match s.queue.pop with
      | some (work, queue) =>
          some { s with queue := queue, writer := .holding work }
      | none =>
          if s.queue.queueClosed then
            some { s with writer := .closing (s.files.map (·.unit)) }
          else
            some { s with writer := .waiting }
  | .waiting =>
      if s.queue.captureWake then
        some
          { s with
            queue := { s.queue with captureWake := false }
            writer := .idle }
      else
        none
  | .wrote work err =>
      some
        { s with
          queue := countError s.queue work.entry.unit err
          writer := .reported work err }
  | .reported work err =>
      some
        { s with
          queue :=
            (match err with
              | none => s.queue
              | some _ => s.queue.dropCapture work).releaseCapture
                work
          writer := .idle }
  | .failed unit err rest =>
      some
        { s with
          queue := countError s.queue unit (some err)
          writer := .closing rest }
  | .closing [] => some { s with writer := .done }
  | .holding _ | .closing (_ :: _) | .done => none

/- The writer's call of `append` returns. -/
def append
    (s : Store G)
    (raw : Nat)
    (err : Option String) :
    Option (Store G) :=
  match s.writer with
  | .holding work =>
      if work.entry.unit = "" then
        match err with
        | none =>
            some
              { s with
                writer := .wrote work none
                unfiled := s.unfiled ++ [work] }
        | some _ => none
      else
        match err with
        | some _ => some { s with writer := .wrote work err }
        | none =>
            match
              acceptRecord s.files (canonicalUnit work.entry.unit)
                work raw with
            | none => none
            | some files =>
                some
                  { s with
                    files := files
                    writer := .wrote work none
                    appended := s.appended ++ [work] }
  | _ => none

/-
  Close a file when the writer has ended.  A short write is
  an error, and what it leaves in the buffer is counted.
-/
def closeFile
    (s : Store G)
    (unit : String)
    (n : Nat)
    (err : Option String) :
    Option (Store G) :=
  match s.writer with
  | .closing rest =>
      match Keyed.find (·.unit) unit s.files with
      | none => none
      | some f =>
          let lost := (f.flush n).records.map Prod.fst
          if unit ∈ rest ∧ (lost ≠ [] → err ≠ none) then
            some
              { s with
                files :=
                  Keyed.modify (·.unit) unit (·.shut n) s.files
                queue :=
                  match err with
                  | none => s.queue
                  | some _ => countLost s.queue unit lost
                writer :=
                  match err with
                  | none => .closing (rest.erase unit)
                  | some e => .failed unit e (rest.erase unit) }
          else
            none
  | _ => none

/- One step of any goroutine. -/
def step (s : Store G) : Label G → Option (Store G)
| .enqueue work orders =>
    some
      { s with
        queue := s.queue.enqueue orders work
        enqueued := s.enqueued ++ [work] }
| .closeQueue =>
    some
      { s with
        queue :=
          { s.queue with
            queueClosed := true
            captureWake :=
              s.queue.captureWake || !s.queue.queueClosed } }
| .tick => s.tick
| .append raw err => s.append raw err
| .flush unit n =>
    match Keyed.find (·.unit) unit s.files with
    | none => none
    | some f =>
        if f.closed then none
        else
          some
            { s with
              files :=
                Keyed.modify (·.unit) unit (·.flush n) s.files }
| .report unit message =>
    some { s with queue := countError s.queue unit (some message) }
| .closeFile unit n err => s.closeFile unit n err

end Store

/- All runs of a store. -/
def journal (G : Type) [DecidableEq G] [Name.LetterCase] :
    Lib.System (Store G) (Label G) where
  init s := s = .opened
  step := Store.step

end Journal

end Winunitd
