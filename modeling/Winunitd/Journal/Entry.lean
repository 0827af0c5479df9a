import Winunitd.Lib.Keyed
import Winunitd.Unit.Names

/-
  Journal entries and capture statistics.

  An entry is one fragment of a unit's output.  The store
  counts the fragments that it could not keep, in a total
  over its life and for each of a bounded number of units.

  Key definitions include:
    * `Entry`
    * `canonicalUnit`
    * `CaptureStats`, `addStats`
    * `StatsBook.add`

  Key theorems include:
    * `StatsBook.total_add`
-/

------------------------------------------------------------
-- Entries
------------------------------------------------------------

namespace Winunitd

namespace Journal

/- The last nanosecond of the year 9999, which JSON can hold. -/
def lastTime : Nat := 315537897599999999999

/-
  One journal fragment.  Times are nanoseconds after the zero
  time; a record with a later time is not encoded.
-/
structure Entry where
  timestamp : Nat
  encodes : timestamp ≤ lastTime
  unit : String
  pid : Int
  stream : String
  message : String
  invocationID : String
  severity : String
  session : String
  userSID : String
  continuation : Bool
  isPartial : Bool
deriving DecidableEq, Repr

/- Bytes of the message. -/
def Entry.size (e : Entry) : Nat :=
  e.message.utf8ByteSize

/- An entry with a message and nothing else. -/
def Entry.plain (unit message : String) : Entry where
  timestamp := 0
  encodes := Nat.zero_le _
  unit := unit
  pid := 0
  stream := ""
  message := message
  invocationID := ""
  severity := ""
  session := ""
  userSID := ""
  continuation := false
  isPartial := false

section Units

variable [Name.LetterCase]

/- The name under which a unit's journal is kept. -/
def canonicalUnit (unit : String) : String :=
  String.ofList
    ((Name.trimSpace unit.toList).map Name.LetterCase.toLower)

end Units

------------------------------------------------------------
-- Statistics
------------------------------------------------------------

/- What a store could not keep, and its storage errors. -/
structure CaptureStats where
  evictedFiles : Nat
  evictedBytes : Nat
  droppedRecords : Nat
  droppedBytes : Nat
  storageErrors : Nat
  lastStorageError : String
deriving DecidableEq, Repr

namespace CaptureStats

def zero : CaptureStats where
  evictedFiles := 0
  evictedBytes := 0
  droppedRecords := 0
  droppedBytes := 0
  storageErrors := 0
  lastStorageError := ""

/- Count records and message bytes that were not kept. -/
def dropped (records bytes : Nat) : CaptureStats :=
  { zero with droppedRecords := records, droppedBytes := bytes }

/- Count a storage error. -/
def storageError (message : String) : CaptureStats :=
  { zero with storageErrors := 1, lastStorageError := message }

end CaptureStats

def addStats (stats delta : CaptureStats) : CaptureStats where
  evictedFiles := stats.evictedFiles + delta.evictedFiles
  evictedBytes := stats.evictedBytes + delta.evictedBytes
  droppedRecords := stats.droppedRecords + delta.droppedRecords
  droppedBytes := stats.droppedBytes + delta.droppedBytes
  storageErrors := stats.storageErrors + delta.storageErrors
  lastStorageError :=
    if delta.lastStorageError = "" then stats.lastStorageError
    else delta.lastStorageError

def maxStatsNames : Nat := 2048

def maxStorageErrorBytes : Nat := 4096

/- The longest prefix of whole characters within a limit. -/
def fitBytes : Nat → List Char → List Char
| _, [] => []
| room, c :: cs =>
    if c.utf8Size ≤ room then c :: fitBytes (room - c.utf8Size) cs
    else []

/- A storage error as the statistics keep it. -/
def boundError (message : String) : String :=
  if message.utf8ByteSize ≤ maxStorageErrorBytes then message
  else String.ofList (fitBytes maxStorageErrorBytes message.toList)

/-
  All counters of a store.  `dropped` holds one element for
  each unit, in the order in which they were first counted.
-/
structure StatsBook where
  dropped : List (String × CaptureStats)
  retainedNames : List String
  totalStats : CaptureStats

namespace StatsBook

def empty : StatsBook where
  dropped := []
  retainedNames := []
  totalStats := .zero

/- Forget the oldest unit that is not retained. -/
def evictOldest (b : StatsBook) : List (String × CaptureStats) :=
  b.dropped.eraseP (fun p => p.1 ∉ b.retainedNames)

variable [Name.LetterCase]

/- Count for a unit and in total. -/
def add (b : StatsBook) (unit : String) (delta : CaptureStats) :
    StatsBook :=
  let name := canonicalUnit unit
  let delta :=
    { delta with
      lastStorageError := boundError delta.lastStorageError }
  { b with
    totalStats := addStats b.totalStats delta
    dropped :=
      match Lib.Keyed.find Prod.fst name b.dropped with
      | some _ =>
          Lib.Keyed.modify Prod.fst name
            (fun p => (p.1, addStats p.2 delta)) b.dropped
      | none =>
          (if b.dropped.length = maxStatsNames then b.evictOldest
            else b.dropped) ++
            [(name, addStats .zero delta)] }

/- Totals lose nothing when a unit is forgotten. -/
theorem total_add
    (b : StatsBook)
    (unit : String)
    (delta : CaptureStats) :
    (b.add unit delta).totalStats.droppedRecords =
        b.totalStats.droppedRecords + delta.droppedRecords ∧
      (b.add unit delta).totalStats.droppedBytes =
        b.totalStats.droppedBytes + delta.droppedBytes :=
  ⟨rfl, rfl⟩

end StatsBook

end Journal

end Winunitd
