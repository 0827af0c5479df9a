import Winunitd.Lib.Transition
import Winunitd.Journal.Writer

/-
  The rotation of a journal file.

  A unit's current file is followed by its archives, of which
  generation 1 is the newest.  A rotation stores and closes the
  current file, removes the oldest archive, moves each file up
  by one generation and opens a new current file.  Any of these
  may fail; the rotation is then taken up where it stopped by
  the next write, sync or close.

  The accounts of the disk count the bytes of all units; here
  the bytes of one unit are kept, under the lock of its record.

  Key definitions include:
    * `RotatingFile`, `FileEvent`
    * `RotatingFile.rotateLocked`, `openLocked`, `write`
    * `rotation`
    * `unitStorage`

  Key theorems include:
    * `RotatingFile.Live.rotateLocked`
    * `RotatingFile.rotation_resumes`
-/

------------------------------------------------------------
-- Files Of A Unit
------------------------------------------------------------

namespace Winunitd

namespace Journal

open Lib

def newline : UInt8 := 10

/- What the directory has of a unit, by generation. -/
abbrev Generations := Nat → Option (List UInt8)

/- One rotation without a failure. -/
def rotation (keep : Nat) (d : Generations) : Generations :=
  fun g =>
    if g = 0 then some []
    else if g ≤ keep then d (g - 1)
    else d g

/- What happens to the files of a unit. -/
inductive FileEvent where
| opened
| repaired
| accepted (raw : List UInt8)
| rotated
deriving DecidableEq, Repr

/- Bytes at the end of the current file. -/
def extend (d : Generations) (raw : List UInt8) : Generations :=
  Function.update d 0 ((d 0).map (· ++ raw))

/- The current file, made if there is none. -/
def create (d : Generations) : Generations :=
  Function.update d 0 (some ((d 0).getD []))

def FileEvent.apply (keep : Nat) (d : Generations) :
    FileEvent → Generations
| .opened => create d
| .repaired => extend d [newline]
| .accepted raw => extend d raw
| .rotated => rotation keep d

/-
  The owner of the current file.  `isOpen` says that it has a
  file handle and a buffer, whose bytes are `data`.  The last
  two fields record the run: what happened to the files, and
  the bytes that were given up with the buffer.
-/
structure RotatingFile where
  disk : Generations
  isOpen : Bool := false
  data : List UInt8 := []
  size : Nat := 0
  closed : Bool := false
  retired : Bool := false
  writeErr : Option String := none
  rotating : Bool := false
  rotateStep : Int := 0
  archivesProtected : Bool := false
  log : List FileEvent := []
  abandoned : List UInt8 := []

------------------------------------------------------------
-- Native Calls
------------------------------------------------------------

/- The bytes that a write got through, and its error. -/
structure FlushOutcome where
  written : Nat := 0
  err : Option String := none

/- `stored` says that the byte of a failed repair got through. -/
structure OpenOutcome where
  protect : Option String := none
  reserve : Option String := none
  openFile : Option String := none
  repair : Option String := none
  stored : Bool := false

structure RotateOutcome where
  flush : FlushOutcome := {}
  sync : Option String := none
  close : Option String := none
  step : Nat → Option String := fun _ => none
  opening : OpenOutcome := {}

structure WriteOutcome where
  resume : RotateOutcome := {}
  opening : OpenOutcome := {}
  beforeRetry : Bool := false
  retry : FlushOutcome := {}
  rotate : RotateOutcome := {}
  reserve : Option String := none
  append : FlushOutcome := {}

/- The error of a call, and the file after it. -/
abbrev FileResult := Option String × RotatingFile

/- Go on unless there was an error. -/
def FileResult.andThen
    (r : FileResult)
    (k : RotatingFile → FileResult) : FileResult :=
  match r with
  | (some err, u) => (some err, u)
  | (none, u) => k u

namespace RotatingFile

/- Write the buffer; what gets through leaves it. -/
def flushBuffer (u : RotatingFile) (o : FlushOutcome) : FileResult :=
  if u.data = [] then (none, u)
  else
    let n := min o.written u.data.length
    (if n < u.data.length then some (o.err.getD "short write")
      else o.err,
      { u with
        disk := extend u.disk (u.data.take n)
        data := u.data.drop n })

def flushLocked (u : RotatingFile) (o : FlushOutcome) : FileResult :=
  if u.isOpen = false then (none, u)
  else
    ((u.flushBuffer o).1,
      { (u.flushBuffer o).2 with writeErr := (u.flushBuffer o).1 })

/- Buffer a record; a full buffer is flushed first. -/
def appendBuffer
    (u : RotatingFile)
    (raw : List UInt8)
    (o : FlushOutcome) : FileResult :=
  FileResult.andThen
    (if 0 < u.data.length ∧
        journalBufferSize < u.data.length + raw.length then
      u.flushBuffer o
    else
      (none, u))
    (fun u =>
      (none,
        { u with
          data := u.data ++ raw
          log := u.log ++ [.accepted raw] }))

def protectArchivesLocked
    (u : RotatingFile)
    (err : Option String) : FileResult :=
  if u.archivesProtected then (none, u)
  else
    match err with
    | some err => (some err, u)
    | none => (none, { u with archivesProtected := true })

/- The open that ends a rotation is a part of it. -/
def note (u : RotatingFile) (e : FileEvent) : List FileEvent :=
  if u.rotating then u.log else u.log ++ [e]

def openFile (u : RotatingFile) (err : Option String) : FileResult :=
  match err with
  | some err => (some err, u)
  | none =>
      (none, { u with disk := create u.disk, log := u.note .opened })

/- End a line that was cut off. -/
def repairJournalTail
    (u : RotatingFile)
    (o : OpenOutcome) : FileResult :=
  let content := (u.disk 0).getD []
  let repaired :=
    { u with
      disk := extend u.disk [newline]
      log := u.note .repaired }
  if content = [] ∨ content.getLast? = some newline then (o.repair, u)
  else
    match o.repair with
    | some err => (some err, if o.stored then repaired else u)
    | none => (none, repaired)

def openLocked (u : RotatingFile) (o : OpenOutcome) : FileResult :=
  FileResult.andThen (u.protectArchivesLocked o.protect) (fun u =>
    FileResult.andThen (o.reserve, u) (fun u =>
      FileResult.andThen (u.openFile o.openFile) (fun u =>
        FileResult.andThen (u.repairJournalTail o) (fun u =>
          (none,
            { u with
              isOpen := true
              data := []
              size := ((u.disk 0).getD []).length })))))

------------------------------------------------------------
-- Rotation
------------------------------------------------------------

/- A sync of a file that is not being rotated. -/
def flushAndSync (u : RotatingFile) (o : RotateOutcome) : FileResult :=
  FileResult.andThen (u.flushLocked o.flush) (fun u =>
    if u.isOpen = false then (none, u) else (o.sync, u))

/- Close the current file, if it is open. -/
def closeFile (u : RotatingFile) (err : Option String) : FileResult :=
  if u.isOpen = false then (none, u)
  else
    match err with
    | some err => (some err, u)
    | none => (none, { u with isOpen := false, data := [] })

def beginRotation
    (u : RotatingFile)
    (keep : Nat)
    (o : RotateOutcome) : FileResult :=
  FileResult.andThen (u.flushAndSync o) (fun u =>
    FileResult.andThen (u.closeFile o.close) (fun u =>
      (none, { u with rotating := true, rotateStep := keep })))

/- One step of a rotation; a missing source is no failure. -/
def shift (d : Generations) (keep step : Nat) : Generations :=
  match d step with
  | none => d
  | some content =>
      if step = keep then Function.update d step none
      else
        Function.update (Function.update d step none) (step + 1)
          (some content)

/- The steps of a rotation that are left. -/
def rotateSteps (keep : Nat) (step : Nat → Option String) :
    Nat → RotatingFile → FileResult
| 0, u => (none, u)
| i + 1, u =>
    match step i with
    | some err =>
        (some ("journal rotation step " ++ toString i ++ ": " ++ err), u)
    | none =>
        rotateSteps keep step i
          { u with
            disk := shift u.disk keep i
            rotateStep := u.rotateStep - 1 }

def rotateLocked
    (u : RotatingFile)
    (keep : Nat)
    (o : RotateOutcome) : FileResult :=
  FileResult.andThen
    (if u.rotating then (none, u) else u.beginRotation keep o)
    (fun u =>
      FileResult.andThen
        (rotateSteps keep o.step (u.rotateStep + 1).toNat u)
        (fun u =>
          FileResult.andThen (u.openLocked o.opening) (fun u =>
            (none,
              { u with
                rotating := false
                log := u.log ++ [.rotated] }))))

------------------------------------------------------------
-- Calls
------------------------------------------------------------

def syncLocked
    (u : RotatingFile)
    (keep : Nat)
    (o : RotateOutcome) : FileResult :=
  if u.rotating then u.rotateLocked keep o else u.flushAndSync o

/- Try again to write what is left of a failed flush. -/
def retryFlush (u : RotatingFile) (o : WriteOutcome) : FileResult :=
  match u.writeErr with
  | none => (none, u)
  | some err =>
      if o.beforeRetry then (some err, u) else u.flushLocked o.retry

def write
    (u : RotatingFile)
    (keep maxSize : Nat)
    (raw : List UInt8)
    (o : WriteOutcome) : FileResult :=
  if u.retired then (some "journal file retired", u)
  else if u.closed then (some "journal file closed", u)
  else
    FileResult.andThen
      (if u.rotating then u.rotateLocked keep o.resume else (none, u))
      (fun u =>
        FileResult.andThen
          (if u.isOpen then (none, u) else u.openLocked o.opening)
          (fun u =>
            FileResult.andThen (u.retryFlush o) (fun u =>
              FileResult.andThen
                (if 0 < u.size ∧ maxSize < u.size + raw.length then
                  u.rotateLocked keep o.rotate
                else
                  (none, u))
                (fun u =>
                  FileResult.andThen (o.reserve, u) (fun u =>
                    match u.appendBuffer raw o.append with
                    | (some err, u) =>
                        (some err, { u with writeErr := some err })
                    | (none, u) =>
                        (none,
                          { u with size := u.size + raw.length }))))))

/- The timer of the file, or a query before its scan. -/
def flush (u : RotatingFile) (o : FlushOutcome) : RotatingFile :=
  if u.closed then u else (u.flushLocked o).2

def sync
    (u : RotatingFile)
    (keep : Nat)
    (o : RotateOutcome) : RotatingFile :=
  if u.closed then u else (u.syncLocked keep o).2

def syncAndRetire
    (u : RotatingFile)
    (keep : Nat)
    (o : RotateOutcome)
    (closeErr : Option String) : RotatingFile :=
  if u.closed || u.retired then u
  else
    (FileResult.andThen (u.syncLocked keep o) (fun u =>
      FileResult.andThen (u.closeFile closeErr) (fun u =>
        (none, { u with retired := true })))).2

/- Close for good; what is still buffered is given up. -/
def close
    (u : RotatingFile)
    (keep : Nat)
    (o : RotateOutcome) : RotatingFile :=
  let u := ({ u with closed := true }.syncLocked keep o).2
  { u with
    isOpen := false
    data := []
    abandoned := u.abandoned ++ u.data }

/- The owner that follows a retired one. -/
def reopen (u : RotatingFile) : RotatingFile :=
  { disk := u.disk, log := u.log }

end RotatingFile

inductive FileLabel where
| write (raw : List UInt8) (o : WriteOutcome)
| flush (o : FlushOutcome)
| sync (o : RotateOutcome)
| syncAndRetire (o : RotateOutcome) (closeErr : Option String)
| close (o : RotateOutcome)
| reopen

def RotatingFile.step
    (keep maxSize : Nat)
    (u : RotatingFile) : FileLabel → Option RotatingFile
| .write raw o => some (u.write keep maxSize raw o).2
| .flush o => some (u.flush o)
| .sync o => some (u.sync keep o)
| .syncAndRetire o closeErr => some (u.syncAndRetire keep o closeErr)
| .close o => some (u.close keep o)
| .reopen => if u.retired then some u.reopen else none

/- The journal of a unit over the files that the directory has. -/
def unitStorage (keep maxSize : Nat) (d : Generations) :
    System RotatingFile FileLabel where
  init := fun u => u = { disk := d }
  step := RotatingFile.step keep maxSize

------------------------------------------------------------
-- Shifting Generations
------------------------------------------------------------

/-
  The files of a rotation with `left` steps left, which will
  come to `target`: generations below `left` have still to
  move, and the place above them is free.
-/
structure Shifting
    (keep left : Nat)
    (d target : Generations) : Prop where
  pending :
    ∀ g, 0 < g → g ≤ keep →
      target g = if g ≤ left then d (g - 1) else d g
  beyond : ∀ g, keep < g → target g = d g
  current : target 0 = some []
  hole : 0 < left → left ≤ keep → d left = none
  fresh : left = 0 → d 0 = none ∨ d 0 = some []
  bound : left ≤ keep + 1

theorem shifting_start
    (keep : Nat)
    (d : Generations) :
    Shifting keep (keep + 1) d (rotation keep d) where
  pending := by
    intro g hPos hLe
    unfold rotation
    rw [if_neg (by omega), if_pos hLe, if_pos (by omega)]
  beyond := by
    intro g hLt
    unfold rotation
    rw [if_neg (by omega), if_neg (by omega)]
  current := rfl
  hole := by
    intro _ hLe
    omega
  fresh := by
    intro hLeft
    omega
  bound := le_rfl

/- The source of a step is free after it. -/
theorem shift_source
    (d : Generations)
    (keep i : Nat) :
    RotatingFile.shift d keep i i = none := by
  unfold RotatingFile.shift
  cases hi : d i with
  | none => exact hi
  | some content =>
      dsimp only
      split
      · exact Function.update_self ..
      · rw [Function.update_of_ne (by omega), Function.update_self]

/- A step changes nothing but its source and its target. -/
theorem shift_other
    (d : Generations)
    {keep i g : Nat}
    (hSource : g ≠ i)
    (hTarget : g = i + 1 → i = keep) :
    RotatingFile.shift d keep i g = d g := by
  unfold RotatingFile.shift
  cases d i with
  | none => rfl
  | some content =>
      dsimp only
      split
      · exact Function.update_of_ne hSource ..
      · rename_i hKeep
        rw [Function.update_of_ne (fun hEq => hKeep (hTarget hEq)),
          Function.update_of_ne hSource]

/- A step brings its source to its target, which was free. -/
theorem shift_target
    {d : Generations}
    {keep i : Nat}
    (hKeep : i ≠ keep)
    (hFree : d (i + 1) = none) :
    RotatingFile.shift d keep i (i + 1) = d i := by
  unfold RotatingFile.shift
  cases hi : d i with
  | none => exact hFree
  | some content =>
      dsimp only
      rw [if_neg hKeep, Function.update_self]

variable {d target : Generations}

theorem Shifting.shift
    {keep i : Nat}
    (h : Shifting keep (i + 1) d target) :
    Shifting keep i (RotatingFile.shift d keep i) target where
  pending := by
    intro g hPos hLe
    rw [h.pending g hPos hLe]
    rcases Nat.lt_trichotomy g (i + 1) with hLt | hEq | hGt
    · -- still to move: its source lies below the step
      rw [if_pos (by omega), if_pos (by omega),
        shift_other d (by omega) (by omega)]
    · subst hEq
      rw [if_pos le_rfl, if_neg (by omega), Nat.add_sub_cancel,
        shift_target (by omega) (h.hole hPos hLe)]
    · rw [if_neg (by omega), if_neg (by omega),
        shift_other d (by omega) (by omega)]
  beyond := by
    intro g hLt
    have hBound := h.bound
    rw [h.beyond g hLt, shift_other d (by omega) (by omega)]
  current := h.current
  hole := by
    intro _ _
    exact shift_source d keep i
  fresh := by
    rintro rfl
    exact Or.inl (shift_source d keep 0)
  bound := by
    have hBound := h.bound
    omega

theorem create_zero
    (d : Generations) :
    create d 0 = some ((d 0).getD []) :=
  Function.update_self ..

theorem create_of_ne
    (d : Generations)
    {g : Nat}
    (h : g ≠ 0) :
    create d g = d g :=
  Function.update_of_ne h ..

/- A new current file ends the rotation. -/
theorem Shifting.create_eq
    {keep : Nat}
    (h : Shifting keep 0 d target) :
    create d = target := by
  funext g
  rcases Nat.eq_zero_or_pos g with hZero | hPos
  · subst hZero
    rw [create_zero, h.current]
    rcases h.fresh rfl with hd | hd <;> rw [hd] <;> rfl
  · rw [create_of_ne d (by omega)]
    rcases Nat.lt_or_ge keep g with hLt | hLe
    · exact (h.beyond g hLt).symm
    · rw [h.pending g hPos hLe, if_neg (by omega)]

theorem Shifting.create
    {keep : Nat}
    (h : Shifting keep 0 d target) :
    Shifting keep 0 (create d) target where
  pending := by
    intro g hPos _
    rw [h.create_eq, if_neg (by omega)]
  beyond := by
    intro g _
    rw [h.create_eq]
  current := h.current
  hole := by
    intro hLt
    omega
  fresh := by
    intro _
    rw [h.create_eq]
    exact Or.inr h.current
  bound := h.bound

------------------------------------------------------------
-- Files And Buffers
------------------------------------------------------------

namespace RotatingFile

/- The files with what is to come from the buffer. -/
def files (u : RotatingFile) : Generations :=
  extend u.disk (u.data ++ u.abandoned)

/- The files as the events made them. -/
def logged (keep : Nat) (d : Generations) (u : RotatingFile) :
    Generations :=
  u.log.foldl (FileEvent.apply keep) d

/- The records that were accepted, in order. -/
def accepted (u : RotatingFile) : List (List UInt8) :=
  u.log.filterMap
    (fun e =>
      match e with
      | .accepted raw => some raw
      | _ => none)

/- The number of a rotation's steps that are left. -/
def left (u : RotatingFile) : Nat :=
  (u.rotateStep + 1).toNat

/-
  Nothing that was accepted is missing: the files are those of
  the events, or on their way to one rotation of them.
-/
structure Live
    (keep : Nat)
    (d : Generations)
    (records : List (List UInt8))
    (closed : Bool)
    (u : RotatingFile) : Prop where
  idle : u.rotating = false → u.files = u.logged keep d
  moving :
    u.rotating = true →
      Shifting keep u.left u.disk (rotation keep (u.logged keep d))
  shut : u.rotating = true → u.isOpen = false
  unopened : u.isOpen = false → u.data = []
  present : u.isOpen = true → (u.disk 0).isSome = true
  unretired :
    u.retired = true → u.rotating = false ∧ u.isOpen = false
  whole : u.abandoned = []
  taken : u.accepted = records
  latch : u.closed = closed

end RotatingFile

theorem extend_nil
    (d : Generations) :
    extend d [] = d := by
  unfold extend
  simp

theorem extend_extend
    (d : Generations)
    (a b : List UInt8) :
    extend (extend d a) b = extend d (a ++ b) := by
  unfold extend
  rw [Function.update_idem, Function.update_self, Option.map_map]
  simp [Function.comp_def]

theorem extend_zero
    (d : Generations)
    (raw : List UInt8) :
    extend d raw 0 = (d 0).map (· ++ raw) :=
  Function.update_self ..

/- A call keeps `P`, and brings about `Q` if it has no error. -/
def FileResult.Ends
    (r : FileResult)
    (P Q : RotatingFile → Prop) : Prop :=
  P r.2 ∧ (r.1 = none → Q r.2)

variable {r : FileResult}
variable {P Q R : RotatingFile → Prop}

theorem FileResult.Ends.andThen
    {k : RotatingFile → FileResult}
    (hr : r.Ends P Q)
    (hk : ∀ u, P u → Q u → (k u).Ends P R) :
    (FileResult.andThen r k).Ends P R := by
  rcases r with ⟨_ | err, u⟩
  · exact hk u hr.1 (hr.2 rfl)
  · exact ⟨hr.1, nofun⟩

theorem FileResult.Ends.mono
    (hr : r.Ends P Q)
    (hQ : ∀ u, Q u → R u) :
    r.Ends P R :=
  ⟨hr.1, fun hNone => hQ _ (hr.2 hNone)⟩

/- A call that leaves the file alone. -/
theorem FileResult.ends_same
    {u : RotatingFile}
    {P Q : RotatingFile → Prop}
    (err : Option String)
    (hP : P u)
    (hQ : Q u) :
    FileResult.Ends (err, u) P Q :=
  ⟨hP, fun _ => hQ⟩

namespace RotatingFile

variable {keep : Nat}
variable {d : Generations}
variable {records : List (List UInt8)}
variable {closed : Bool}
variable {u v : RotatingFile}

theorem Live.files_eq
    (h : Live keep d records closed u) :
    u.files = extend u.disk u.data := by
  unfold files
  rw [h.whole, List.append_nil]

/- The current file is open for records. -/
structure Ready (u : RotatingFile) : Prop where
  rotating : u.rotating = false
  isOpen : u.isOpen = true
  retired : u.retired = false

/- Only an open file has bytes in its buffer. -/
theorem Live.ready_of_data
    (h : Live keep d records closed u)
    (hData : u.data ≠ []) :
    u.Ready := by
  have hOpen : u.isOpen = true := by
    by_contra hShut
    exact hData (h.unopened (by simpa using hShut))
  refine ⟨?_, hOpen, ?_⟩
  · by_contra hMoving
    have hShut := h.shut (by simpa using hMoving)
    exact nomatch hShut.symm.trans hOpen
  · by_contra hRetired
    have hShut := (h.unretired (by simpa using hRetired)).2
    exact nomatch hShut.symm.trans hOpen

/- What there is to say about a file that is open. -/
theorem Live.of_ready
    (hu : u.Ready)
    (hFiles : u.files = u.logged keep d)
    (hPresent : (u.disk 0).isSome = true)
    (hWhole : u.abandoned = [])
    (hTaken : u.accepted = records)
    (hLatch : u.closed = closed) :
    Live keep d records closed u where
  idle := fun _ => hFiles
  moving := fun hTrue => nomatch hu.rotating.symm.trans hTrue
  shut := fun hTrue => nomatch hu.rotating.symm.trans hTrue
  unopened := fun hFalse => nomatch hu.isOpen.symm.trans hFalse
  present := fun _ => hPresent
  unretired := fun hTrue => nomatch hu.retired.symm.trans hTrue
  whole := hWhole
  taken := hTaken
  latch := hLatch

/- What a flush leaves as it is, with the buffer empty. -/
structure Flushed (u v : RotatingFile) : Prop where
  data : v.data = []
  isOpen : v.isOpen = u.isOpen
  rotating : v.rotating = u.rotating
  retired : v.retired = u.retired
  log : v.log = u.log

theorem Flushed.ready
    (hu : u.Ready)
    (hFlushed : u.Flushed v) :
    v.Ready :=
  ⟨hFlushed.rotating.trans hu.rotating,
    hFlushed.isOpen.trans hu.isOpen,
    hFlushed.retired.trans hu.retired⟩

theorem Live.flushBuffer
    (h : Live keep d records closed u)
    (o : FlushOutcome) :
    (u.flushBuffer o).Ends (Live keep d records closed) (Flushed u) := by
  unfold RotatingFile.flushBuffer
  by_cases hData : u.data = []
  · rw [if_pos hData]
    exact ⟨h, fun _ => ⟨hData, rfl, rfl, rfl, rfl⟩⟩
  · rw [if_neg hData]
    have hReady := h.ready_of_data hData
    refine ⟨.of_ready { hReady with }
      ?_ ?_ h.whole h.taken h.latch, ?_⟩
    · refine Eq.trans ?_ (h.idle hReady.rotating)
      unfold files
      dsimp only
      rw [extend_extend, ← List.append_assoc, List.take_append_drop]
    · dsimp only
      rw [extend_zero, Option.isSome_map]
      exact h.present hReady.isOpen
    · -- without an error all of the buffer got through
      intro hNone
      dsimp only at hNone
      have hAll : ¬ min o.written u.data.length < u.data.length := by
        intro hLt
        rw [if_pos hLt] at hNone
        cases hNone
      exact ⟨List.drop_of_length_le (by omega), rfl, rfl, rfl, rfl⟩

/- The size, the last error and the archives' mark do not matter. -/
theorem Live.noted
    (h : Live keep d records closed u)
    (size : Nat)
    (writeErr : Option String)
    (archivesProtected : Bool) :
    Live keep d records closed
      { u with
        size := size
        writeErr := writeErr
        archivesProtected := archivesProtected } :=
  { h with }

theorem Live.flushLocked
    (h : Live keep d records closed u)
    (o : FlushOutcome) :
    (u.flushLocked o).Ends (Live keep d records closed) (Flushed u) := by
  unfold RotatingFile.flushLocked
  split
  · rename_i hShut
    exact ⟨h, fun _ => ⟨h.unopened hShut, rfl, rfl, rfl, rfl⟩⟩
  · have hFlush := h.flushBuffer o
    refine ⟨?_, ?_⟩
    · exact hFlush.1.noted _ _ _
    · intro hNone
      rcases hFlush.2 hNone with ⟨hData, hOpen, hRotating, hRetired, hLog⟩
      exact ⟨hData, hOpen, hRotating, hRetired, hLog⟩

theorem logged_snoc
    (e : FileEvent) :
    ({ u with log := u.log ++ [e] } : RotatingFile).logged keep d =
      FileEvent.apply keep (u.logged keep d) e := by
  unfold logged
  rw [List.foldl_append]
  rfl

theorem Live.protectArchivesLocked
    (h : Live keep d records closed u)
    (err : Option String) :
    (u.protectArchivesLocked err).Ends (Live keep d records closed)
      (fun v =>
        v.isOpen = u.isOpen ∧ v.rotating = u.rotating ∧
          v.retired = u.retired ∧ v.log = u.log ∧ v.left = u.left) := by
  unfold RotatingFile.protectArchivesLocked
  split
  · exact ⟨h, fun _ => ⟨rfl, rfl, rfl, rfl, rfl⟩⟩
  · cases err with
    | some err => exact ⟨h, nofun⟩
    | none =>
        exact ⟨h.noted _ _ _, fun _ => ⟨rfl, rfl, rfl, rfl, rfl⟩⟩

/- An event of the current file while nobody has it open. -/
theorem Live.event
    (h : Live keep d records closed u)
    (hIdle : u.rotating = false)
    (hShut : u.isOpen = false)
    {e : FileEvent}
    (hSilent : ∀ raw, e ≠ .accepted raw) :
    Live keep d records closed
      { u with
        disk := e.apply keep u.disk
        log := u.log ++ [e] } := by
  have hDisk : u.disk = u.logged keep d := by
    rw [← h.idle hIdle, h.files_eq, h.unopened hShut, extend_nil]
  refine ⟨?_, ?_, ?_, h.unopened, ?_, h.unretired, h.whole, ?_, h.latch⟩
  · intro _
    refine Eq.trans ?_ (logged_snoc e).symm
    unfold files
    dsimp only
    rw [h.unopened hShut, h.whole, List.append_nil, extend_nil, hDisk]
  · intro hMoving
    rw [hIdle] at hMoving
    cases hMoving
  · intro _
    exact hShut
  · intro hOpen
    rw [hShut] at hOpen
    cases hOpen
  · refine Eq.trans ?_ h.taken
    unfold accepted
    dsimp only
    rw [List.filterMap_append]
    cases e with
    | accepted raw => exact absurd rfl (hSilent raw)
    | _ => exact List.append_nil _

/- Nobody has the file open, and no rotation is under way. -/
structure Shut (u : RotatingFile) : Prop where
  rotating : u.rotating = false
  isOpen : u.isOpen = false
  retired : u.retired = false

theorem Shut.note
    (hu : u.Shut)
    (e : FileEvent) :
    u.note e = u.log ++ [e] := by
  unfold RotatingFile.note
  rw [if_neg (by simp [hu.rotating])]

theorem Live.openFile
    (h : Live keep d records closed u)
    (hu : u.Shut)
    (err : Option String) :
    (u.openFile err).Ends (Live keep d records closed)
      (fun v => v.Shut ∧ (v.disk 0).isSome = true) := by
  unfold RotatingFile.openFile
  rw [hu.note]
  cases err with
  | some err => exact ⟨h, nofun⟩
  | none =>
      have hOpened :=
        h.event (e := .opened) hu.rotating hu.isOpen nofun
      refine ⟨hOpened, fun _ => ⟨?_, ?_⟩⟩
      · exact { hu with }
      · dsimp only
        rw [create_zero]
        rfl

theorem Live.repairJournalTail
    (h : Live keep d records closed u)
    (hu : u.Shut)
    (hSome : (u.disk 0).isSome = true)
    (o : OpenOutcome) :
    (u.repairJournalTail o).Ends (Live keep d records closed)
      (fun v => v.Shut ∧ (v.disk 0).isSome = true) := by
  have hRepaired :=
    h.event (e := .repaired) hu.rotating hu.isOpen nofun
  unfold RotatingFile.repairJournalTail
  rw [hu.note]
  dsimp only
  split
  · exact ⟨h, fun _ => ⟨hu, hSome⟩⟩
  · cases o.repair with
    | some err =>
        refine ⟨?_, nofun⟩
        dsimp only
        split
        · exact hRepaired
        · exact h
    | none =>
        refine ⟨hRepaired, fun _ => ⟨?_, ?_⟩⟩
        · exact { hu with }
        · dsimp only
          rw [extend_zero, Option.isSome_map]
          exact hSome

/-
  The first open of an owner.  What it does to the current file
  is kept although it may fail in the end.
-/
theorem Live.openIdle
    (h : Live keep d records closed u)
    (hu : u.Shut)
    (o : OpenOutcome) :
    (u.openLocked o).Ends (Live keep d records closed) Ready := by
  unfold RotatingFile.openLocked
  refine (h.protectArchivesLocked o.protect).andThen ?_
  intro v hv hAside
  rcases hAside with ⟨hOpen, hRotating, hRetired, _, _⟩
  have hShut : v.Shut :=
    ⟨hRotating.trans hu.rotating, hOpen.trans hu.isOpen,
      hRetired.trans hu.retired⟩
  refine (FileResult.ends_same o.reserve hv hShut).andThen ?_
  intro v hv hShut
  refine (hv.openFile hShut o.openFile).andThen ?_
  intro v hv hFile
  refine (hv.repairJournalTail hFile.1 hFile.2 o).andThen ?_
  intro v hv hFile
  refine ⟨.of_ready ⟨hFile.1.rotating, rfl, hFile.1.retired⟩ ?_ hFile.2
    hv.whole hv.taken hv.latch,
    fun _ => ⟨hFile.1.rotating, rfl, hFile.1.retired⟩⟩
  refine Eq.trans ?_ (hv.idle hFile.1.rotating)
  unfold files
  rw [hv.unopened hFile.1.isOpen]

/- All files have moved, and no event was logged for it. -/
structure Moved (u v : RotatingFile) : Prop where
  rotating : v.rotating = true
  left : v.left = 0
  log : v.log = u.log

theorem Moved.create_eq
    (hv : u.Moved v)
    (h : Live keep d records closed v) :
    create v.disk = rotation keep (u.logged keep d) := by
  have hShifting := h.moving hv.rotating
  rw [hv.left] at hShifting
  rw [hShifting.create_eq]
  unfold logged
  rw [hv.log]

theorem Live.openFileMoved
    (h : Live keep d records closed u)
    (hMoved : u.Moved u)
    (err : Option String) :
    (u.openFile err).Ends (Live keep d records closed)
      (fun v => u.Moved v ∧ v.disk 0 = some []) := by
  unfold RotatingFile.openFile RotatingFile.note
  rw [if_pos hMoved.rotating]
  cases err with
  | some err => exact ⟨h, nofun⟩
  | none =>
      have hShifting := h.moving hMoved.rotating
      rw [hMoved.left] at hShifting
      refine ⟨⟨?_, ?_, h.shut, h.unopened, ?_, h.unretired, h.whole,
        h.taken, h.latch⟩, fun _ => ⟨?_, ?_⟩⟩
      · intro hIdle
        exact nomatch hMoved.rotating.symm.trans hIdle
      · intro _
        have hLeft : (u.rotateStep + 1).toNat = 0 := hMoved.left
        unfold RotatingFile.left
        rw [hLeft]
        exact hShifting.create
      · intro hOpen
        exact nomatch (h.shut hMoved.rotating).symm.trans hOpen
      · exact ⟨hMoved.rotating, hMoved.left, rfl⟩
      · dsimp only
        rw [hShifting.create_eq]
        exact hShifting.current

theorem andThen_assoc
    (r : FileResult)
    (j k : RotatingFile → FileResult) :
    FileResult.andThen (FileResult.andThen r j) k =
      FileResult.andThen r (fun u => FileResult.andThen (j u) k) := by
  rcases r with ⟨_ | err, u⟩ <;> rfl

/- What a completed rotation has brought about. -/
structure Rotated (keep : Nat) (d : Generations)
    (u v : RotatingFile) : Prop where
  disk : v.disk = rotation keep (u.logged keep d)
  data : v.data = []
  log : v.log = u.log ++ [.rotated]
  isOpen : v.isOpen = true
  rotating : v.rotating = false
  retired : v.retired = false

section

variable (h : Live keep d records closed u)

include h

/-
  The open that ends a rotation: the current file is new, so it
  has no tail to repair.
-/
theorem Live.openMoved
    (hMoved : u.Moved u)
    (o : OpenOutcome) :
    (FileResult.andThen (u.openLocked o) (fun u =>
      (none,
        { u with
          rotating := false
          log := u.log ++ [.rotated] }))).Ends
      (Live keep d records closed) (Rotated keep d u) := by
  unfold RotatingFile.openLocked
  simp only [andThen_assoc]
  refine (h.protectArchivesLocked o.protect).andThen ?_
  intro v hv hAside
  rcases hAside with ⟨_, hRotating, _, hLog, hLeft⟩
  have hMoved : u.Moved v :=
    ⟨hRotating.trans hMoved.rotating, hLeft.trans hMoved.left, hLog⟩
  refine (FileResult.ends_same o.reserve hv hMoved).andThen ?_
  intro v hv hMoved
  refine (hv.openFileMoved
    ⟨hMoved.rotating, hMoved.left, rfl⟩ o.openFile).andThen ?_
  intro w hw hFile
  have hMoved : u.Moved w :=
    ⟨hFile.1.rotating, hFile.1.left, hFile.1.log.trans hMoved.log⟩
  have hRepair :
      (w.repairJournalTail o).Ends (Live keep d records closed)
        (fun v => v = w) := by
    unfold RotatingFile.repairJournalTail
    rw [hFile.2]
    exact ⟨hw, fun _ => rfl⟩
  refine hRepair.andThen ?_
  rintro v _ rfl
  have hDisk : v.disk = rotation keep (u.logged keep d) := by
    rw [← hMoved.create_eq hw]
    unfold create
    rw [hFile.2, Option.getD_some, ← hFile.2, Function.update_eq_self]
  have hRetired : v.retired = false := by
    by_contra hRetired
    have hIdle := (hw.unretired (by simpa using hRetired)).1
    exact absurd hMoved.rotating (by simp [hIdle])
  dsimp only [FileResult.andThen]
  refine ⟨.of_ready ⟨rfl, rfl, hRetired⟩ ?_ ?_ hw.whole ?_ hw.latch,
    fun _ => ?_⟩
  · refine Eq.trans ?_ (logged_snoc .rotated).symm
    unfold files
    dsimp only
    rw [hw.whole, List.append_nil, extend_nil, hDisk]
    unfold logged
    rw [hMoved.log]
    rfl
  · dsimp only
    rw [hFile.2]
    rfl
  · refine Eq.trans ?_ hw.taken
    unfold accepted
    dsimp only
    rw [List.filterMap_append]
    exact List.append_nil _
  · exact ⟨hDisk, rfl, by rw [← hMoved.log], rfl, rfl, hRetired⟩

/- The steps that are left, as far as they go. -/
theorem Live.rotateSteps
    (hMoving : u.rotating = true)
    {i : Nat}
    (hLeft : u.left = i)
    (step : Nat → Option String) :
    (RotatingFile.rotateSteps keep step i u).Ends
      (Live keep d records closed) (u.Moved) := by
  induction i generalizing u with
  | zero => exact ⟨h, fun _ => ⟨hMoving, hLeft, rfl⟩⟩
  | succ i ih =>
      unfold RotatingFile.rotateSteps
      cases step i with
      | some err => exact ⟨h, nofun⟩
      | none =>
          have hShifting := h.moving hMoving
          rw [hLeft] at hShifting
          have hNext : (u.rotateStep - 1 + 1).toNat = i := by
            unfold left at hLeft
            omega
          have hLive :
              Live keep d records closed
                { u with
                  disk := shift u.disk keep i
                  rotateStep := u.rotateStep - 1 } := by
            refine ⟨?_, ?_, h.shut, h.unopened, ?_, h.unretired,
              h.whole, h.taken, h.latch⟩
            · intro hIdle
              exact nomatch hMoving.symm.trans hIdle
            · intro _
              unfold left
              rw [hNext]
              exact hShifting.shift
            · intro hOpen
              exact nomatch (h.shut hMoving).symm.trans hOpen
          have hRest := ih hLive hMoving hNext
          exact hRest.mono (fun _ hMoved =>
            { hMoved with })

theorem Live.flushAndSync
    (o : RotateOutcome) :
    (u.flushAndSync o).Ends (Live keep d records closed) (Flushed u) := by
  unfold RotatingFile.flushAndSync
  refine (h.flushLocked o.flush).andThen ?_
  intro v hv hFlushed
  split
  · exact ⟨hv, fun _ => hFlushed⟩
  · exact ⟨hv, fun _ => hFlushed⟩

/- A buffer that is empty is closed with its file. -/
theorem Live.shutFile
    (hData : u.data = []) :
    Live keep d records closed { u with isOpen := false, data := [] } := by
  refine ⟨?_, h.moving, fun _ => rfl, fun _ => rfl, nofun, ?_, h.whole,
    h.taken, h.latch⟩
  · intro hIdle
    refine Eq.trans ?_ (h.idle hIdle)
    unfold files
    rw [hData]
  · intro hRetired
    exact ⟨(h.unretired hRetired).1, rfl⟩

theorem Live.closeFile
    (hData : u.data = [])
    (err : Option String) :
    (u.closeFile err).Ends (Live keep d records closed)
      (fun v =>
        v.isOpen = false ∧ v.rotating = u.rotating ∧
          v.retired = u.retired ∧ v.log = u.log) := by
  unfold RotatingFile.closeFile
  split
  · rename_i hShut
    exact ⟨h, fun _ => ⟨hShut, rfl, rfl, rfl⟩⟩
  · cases err with
    | some err => exact ⟨h, nofun⟩
    | none => exact ⟨h.shutFile hData, fun _ => ⟨rfl, rfl, rfl, rfl⟩⟩

theorem Live.beginRotation
    (hIdle : u.rotating = false)
    (hRetired : u.retired = false)
    (o : RotateOutcome) :
    (u.beginRotation keep o).Ends (Live keep d records closed)
      (fun v => v.rotating = true ∧ v.log = u.log) := by
  unfold RotatingFile.beginRotation
  refine (h.flushAndSync o).andThen ?_
  intro v hv hFlushed
  refine (hv.closeFile hFlushed.data o.close).andThen ?_
  intro w hw hClosed
  rcases hClosed with ⟨hShut, hRotating, hKept, hLog⟩
  have hStill : w.rotating = false :=
    (hRotating.trans hFlushed.rotating).trans hIdle
  have hDisk : w.disk = w.logged keep d := by
    rw [← hw.idle hStill, hw.files_eq, hw.unopened hShut, extend_nil]
  refine ⟨⟨nofun, ?_, fun _ => hShut, hw.unopened, hw.present, ?_,
    hw.whole, hw.taken, hw.latch⟩, fun _ => ⟨rfl, hLog.trans hFlushed.log⟩⟩
  · intro _
    have hLeft : ((keep : Int) + 1).toNat = keep + 1 := by omega
    unfold left
    dsimp only
    rw [hLeft, hDisk]
    exact shifting_start keep _
  · intro hTrue
    have hFalse : w.retired = false :=
      (hKept.trans hFlushed.retired).trans hRetired
    exact nomatch hFalse.symm.trans hTrue

/-
  A rotation, new or taken up again: whatever fails, nothing is
  lost, and without a failure the files are those of one
  rotation of what was there when it began.
-/
theorem Live.rotateLocked
    (hEnter : u.rotating = true ∨ u.retired = false)
    (o : RotateOutcome) :
    (u.rotateLocked keep o).Ends (Live keep d records closed)
      (Rotated keep d u) := by
  unfold RotatingFile.rotateLocked
  have hBegun :
      FileResult.Ends
        (if u.rotating then (none, u) else u.beginRotation keep o)
        (Live keep d records closed)
        (fun v => v.rotating = true ∧ v.log = u.log) := by
    cases hMoving : u.rotating with
    | true => exact ⟨h, fun _ => ⟨hMoving, rfl⟩⟩
    | false =>
        rcases hEnter with hTrue | hRetired
        · exact nomatch hMoving.symm.trans hTrue
        · exact h.beginRotation hMoving hRetired o
  refine hBegun.andThen ?_
  intro v hv hMoving
  refine (hv.rotateSteps hMoving.1 rfl o.step).andThen ?_
  intro w hw hMoved
  have hEnd :=
    hw.openMoved ⟨hMoved.rotating, hMoved.left, rfl⟩ o.opening
  have hLog : w.log = u.log := hMoved.log.trans hMoving.2
  refine hEnd.mono (fun _ hRotated => ?_)
  refine ⟨?_, hRotated.data, ?_, hRotated.isOpen, hRotated.rotating,
    hRotated.retired⟩
  · rw [hRotated.disk]
    unfold logged
    rw [hLog]
  · rw [hRotated.log, hLog]

------------------------------------------------------------
-- Whole Runs
------------------------------------------------------------

theorem Live.syncLocked
    (o : RotateOutcome) :
    (u.syncLocked keep o).Ends (Live keep d records closed)
      (fun v => v.rotating = false ∧ v.data = []) := by
  unfold RotatingFile.syncLocked
  cases hMoving : u.rotating with
  | true =>
      exact (h.rotateLocked (Or.inl hMoving) o).mono
        (fun _ hRotated => ⟨hRotated.rotating, hRotated.data⟩)
  | false =>
      exact (h.flushAndSync o).mono (fun _ hFlushed =>
        ⟨hFlushed.rotating.trans hMoving, hFlushed.data⟩)

end

/- A record is accepted if there was no error, and only then. -/
def Takes
    (keep : Nat)
    (d : Generations)
    (records : List (List UInt8))
    (closed : Bool)
    (raw : List UInt8)
    (r : FileResult) : Prop :=
  (∀ err, r.1 = some err → Live keep d records closed r.2) ∧
    (r.1 = none → Live keep d (records ++ [raw]) closed r.2)

theorem takes_andThen
    {raw : List UInt8}
    {r : FileResult}
    {k : RotatingFile → FileResult}
    {Q : RotatingFile → Prop}
    (hr : r.Ends (Live keep d records closed) Q)
    (hk : ∀ u, Live keep d records closed u → Q u →
      Takes keep d records closed raw (k u)) :
    Takes keep d records closed raw (FileResult.andThen r k) := by
  rcases r with ⟨_ | err, u⟩
  · exact hk u hr.1 (hr.2 rfl)
  · exact ⟨fun _ _ => hr.1, nofun⟩

theorem Live.appendBuffer
    (h : Live keep d records closed u)
    (hu : u.Ready)
    (raw : List UInt8)
    (o : FlushOutcome) :
    Takes keep d records closed raw (u.appendBuffer raw o) := by
  have hRoom :
      FileResult.Ends
        (if 0 < u.data.length ∧
            journalBufferSize < u.data.length + raw.length then
          u.flushBuffer o
        else
          (none, u))
        (Live keep d records closed) Ready := by
    split
    · exact (h.flushBuffer o).mono (fun _ => Flushed.ready hu)
    · exact ⟨h, fun _ => hu⟩
  unfold RotatingFile.appendBuffer
  refine takes_andThen hRoom ?_
  intro v hv hReady
  refine ⟨nofun, fun _ => .of_ready
    { hReady with } ?_
    (hv.present hReady.isOpen) hv.whole ?_ hv.latch⟩
  · refine Eq.trans ?_ (logged_snoc (.accepted raw)).symm
    rw [← hv.idle hReady.rotating]
    show extend v.disk (v.data ++ raw ++ v.abandoned) =
      extend (extend v.disk (v.data ++ v.abandoned)) raw
    rw [extend_extend, hv.whole, List.append_nil, List.append_nil]
  · rw [← hv.taken]
    unfold accepted
    dsimp only
    rw [List.filterMap_append]
    rfl

theorem Live.retryFlush
    (h : Live keep d records closed u)
    (hu : u.Ready)
    (o : WriteOutcome) :
    (u.retryFlush o).Ends (Live keep d records closed) Ready := by
  unfold RotatingFile.retryFlush
  split
  · exact ⟨h, fun _ => hu⟩
  · split
    · exact ⟨h, nofun⟩
    · exact (h.flushLocked o.retry).mono (fun _ => Flushed.ready hu)

theorem Live.write
    (h : Live keep d records closed u)
    (maxSize : Nat)
    (raw : List UInt8)
    (o : WriteOutcome) :
    Takes keep d records closed raw (u.write keep maxSize raw o) := by
  unfold RotatingFile.write
  split
  · exact ⟨fun _ _ => h, nofun⟩
  split
  · exact ⟨fun _ _ => h, nofun⟩
  rename_i hRetired _
  have hUnretired : u.retired = false := by simpa using hRetired
  -- a rotation that is under way is completed first
  have hResume :
      FileResult.Ends
        (if u.rotating then u.rotateLocked keep o.resume
          else (none, u))
        (Live keep d records closed)
        (fun v => v.rotating = false ∧ v.retired = false) := by
    split
    · rename_i hMoving
      exact (h.rotateLocked (Or.inl hMoving) o.resume).mono
        (fun _ hRotated => ⟨hRotated.rotating, hRotated.retired⟩)
    · rename_i hMoving
      exact ⟨h, fun _ => ⟨by simpa using hMoving, hUnretired⟩⟩
  refine takes_andThen hResume ?_
  intro v hv hStill
  have hOpened :
      FileResult.Ends
        (if v.isOpen then (none, v) else v.openLocked o.opening)
        (Live keep d records closed) Ready := by
    split
    · rename_i hOpen
      exact ⟨hv, fun _ => ⟨hStill.1, hOpen, hStill.2⟩⟩
    · rename_i hShut
      exact hv.openIdle ⟨hStill.1, by simpa using hShut, hStill.2⟩
        o.opening
  refine takes_andThen hOpened ?_
  intro v hv hReady
  refine takes_andThen (hv.retryFlush hReady o) ?_
  intro v hv hReady
  have hRoom :
      FileResult.Ends
        (if 0 < v.size ∧ maxSize < v.size + raw.length then
          v.rotateLocked keep o.rotate
        else
          (none, v))
        (Live keep d records closed) Ready := by
    split
    · exact (hv.rotateLocked (Or.inr hReady.retired) o.rotate).mono
        (fun _ hRotated =>
          { hRotated with })
    · exact ⟨hv, fun _ => hReady⟩
  refine takes_andThen hRoom ?_
  intro v hv hReady
  refine takes_andThen (FileResult.ends_same o.reserve hv hReady) ?_
  intro v hv hReady
  have hTakes := hv.appendBuffer hReady raw o.append
  split
  · rename_i err w hAppend
    rw [hAppend] at hTakes
    exact ⟨fun _ _ => (hTakes.1 err rfl).noted _ _ _, nofun⟩
  · rename_i w hAppend
    rw [hAppend] at hTakes
    exact ⟨nofun, fun _ => (hTakes.2 rfl).noted _ _ _⟩

/- Bytes were given up with the buffer by the last close. -/
structure Ended
    (keep : Nat)
    (d : Generations)
    (u : RotatingFile) : Prop where
  closed : u.closed = true
  rotating : u.rotating = false
  isOpen : u.isOpen = false
  retired : u.retired = false
  data : u.data = []
  files : u.files = u.logged keep d

section

variable (h : Live keep d records closed u)

include h

theorem Live.syncAndRetire
    (o : RotateOutcome)
    (closeErr : Option String) :
    Live keep d records closed (u.syncAndRetire keep o closeErr) := by
  unfold RotatingFile.syncAndRetire
  split
  · exact h
  · have hEnd :=
      (h.syncLocked o).andThen (R := fun _ => True) (k := fun u =>
        FileResult.andThen (u.closeFile closeErr) (fun u =>
          (none, { u with retired := true }))) ?_
    · exact hEnd.1
    · intro v hv hSynced
      refine (hv.closeFile hSynced.2 closeErr).andThen ?_
      intro w hw hClosed
      refine ⟨⟨hw.idle, hw.moving, hw.shut, hw.unopened, hw.present, ?_,
        hw.whole, hw.taken, hw.latch⟩, fun _ => trivial⟩
      intro _
      exact ⟨hClosed.2.1.trans hSynced.1, hClosed.1⟩

theorem Live.close
    (o : RotateOutcome) :
    Live keep d records true (u.close keep o) ∨
      Ended keep d (u.close keep o) := by
  have hClosed : Live keep d records true { u with closed := true } :=
    ⟨h.idle, h.moving, h.shut, h.unopened, h.present, h.unretired,
      h.whole, h.taken, rfl⟩
  have hv := (hClosed.syncLocked o).1
  unfold RotatingFile.close
  revert hv
  generalize
    (RotatingFile.syncLocked { u with closed := true } keep o).2 = v
  intro hv
  dsimp only
  by_cases hData : v.data = []
  · rw [hData, List.append_nil]
    exact Or.inl (hv.shutFile hData)
  · have hReady := hv.ready_of_data hData
    right
    refine ⟨hv.latch, hReady.rotating, rfl, hReady.retired, rfl, ?_⟩
    refine Eq.trans ?_ (hv.idle hReady.rotating)
    unfold files
    dsimp only
    rw [hv.whole, List.append_nil, List.nil_append, List.nil_append]

theorem Live.flush
    (o : FlushOutcome) :
    Live keep d records closed (u.flush o) := by
  unfold RotatingFile.flush
  split
  · exact h
  · exact (h.flushLocked o).1

theorem Live.sync
    (o : RotateOutcome) :
    Live keep d records closed (u.sync keep o) := by
  unfold RotatingFile.sync
  split
  · exact h
  · exact (h.syncLocked o).1

theorem Live.reopen
    (hRetired : u.retired = true) :
    Live keep d records false u.reopen := by
  have hu := h.unretired hRetired
  refine ⟨?_, nofun, nofun, fun _ => rfl, nofun, nofun, rfl, h.taken,
    rfl⟩
  intro _
  refine Eq.trans ?_ (h.idle hu.1)
  rw [h.files_eq, h.unopened hu.2]
  rfl

end

/- The files are kept, up to what the last close gave up. -/
def Kept (keep : Nat) (d : Generations) (u : RotatingFile) : Prop :=
  (∃ records closed, Live keep d records closed u) ∨ Ended keep d u

variable {maxSize : Nat}

/- After its close a file stays as it is. -/
theorem Ended.step
    (h : Ended keep d u)
    {l : FileLabel}
    (hStep : u.step keep maxSize l = some v) :
    Ended keep d v := by
  cases l with
  | write raw o =>
      have hWrite :
          u.write keep maxSize raw o =
            (some "journal file closed", u) := by
        unfold RotatingFile.write
        rw [if_neg (by simp [h.retired]), if_pos h.closed]
      simp only [RotatingFile.step, hWrite, Option.some.injEq] at hStep
      exact hStep ▸ h
  | flush o =>
      simp only [RotatingFile.step, RotatingFile.flush,
        if_pos h.closed, Option.some.injEq] at hStep
      exact hStep ▸ h
  | sync o =>
      simp only [RotatingFile.step, RotatingFile.sync,
        if_pos h.closed, Option.some.injEq] at hStep
      exact hStep ▸ h
  | syncAndRetire o closeErr =>
      simp only [RotatingFile.step, RotatingFile.syncAndRetire,
        h.closed, Bool.true_or, if_true, Option.some.injEq] at hStep
      exact hStep ▸ h
  | close o =>
      simp only [RotatingFile.step, RotatingFile.close,
        RotatingFile.syncLocked, RotatingFile.flushAndSync,
        RotatingFile.flushLocked, FileResult.andThen, h.rotating,
        h.isOpen, Bool.false_eq_true, if_false, if_true, h.data,
        List.append_nil, Option.some.injEq] at hStep
      subst hStep
      refine ⟨rfl, rfl, rfl, h.retired, rfl, ?_⟩
      refine Eq.trans ?_ h.files
      unfold RotatingFile.files
      rw [h.data]
  | reopen =>
      simp only [RotatingFile.step, h.retired, Bool.false_eq_true,
        if_false, reduceCtorEq] at hStep

theorem Kept.step
    (h : Kept keep d u)
    {l : FileLabel}
    (hStep : u.step keep maxSize l = some v) :
    Kept keep d v := by
  rcases h with ⟨records, closed, h⟩ | h
  · cases l with
    | write raw o =>
        cases hStep
        have hTakes := h.write maxSize raw o
        left
        cases hErr : (u.write keep maxSize raw o).1 with
        | some err => exact ⟨_, _, hTakes.1 err hErr⟩
        | none => exact ⟨_, _, hTakes.2 hErr⟩
    | flush o =>
        cases hStep
        exact Or.inl ⟨_, _, h.flush o⟩
    | sync o =>
        cases hStep
        exact Or.inl ⟨_, _, h.sync o⟩
    | syncAndRetire o closeErr =>
        cases hStep
        exact Or.inl ⟨_, _, h.syncAndRetire o closeErr⟩
    | close o =>
        cases hStep
        exact (h.close o).imp (fun hLive => ⟨_, _, hLive⟩) id
    | reopen =>
        simp only [RotatingFile.step] at hStep
        split at hStep
        · rename_i hRetired
          cases hStep
          exact Or.inl ⟨_, _, h.reopen hRetired⟩
        · cases hStep
  · exact Or.inr (h.step hStep)

theorem kept_of_reachable
    (hu : (unitStorage keep maxSize d).Reachable u) :
    Kept keep d u := by
  apply System.reachable_invariant (I := Kept keep d) ?_ ?_ hu
  · intro v hInit
    cases hInit
    refine Or.inl ⟨[], false, ⟨?_, nofun, nofun, fun _ => rfl, nofun,
      nofun, rfl, rfl, rfl⟩⟩
    intro _
    exact extend_nil d
  · intro v l w _ h hStep
    exact h.step hStep

/-
  However often the steps of a rotation fail and whatever is
  written, synced or flushed in between: a rotation that
  completes has made one rotation of the files, and the files
  with the buffer are what the accepted records, the repairs
  and the completed rotations make of the first files.
-/
theorem rotation_resumes
    {maxSize : Nat}
    (hu : (unitStorage keep maxSize d).Reachable u) :
    (∀ o v,
        (u.rotating = true ∨ u.closed = false ∧ u.retired = false) →
        u.rotateLocked keep o = (none, v) →
          v.disk = rotation keep (u.logged keep d) ∧ v.data = [] ∧
            v.rotating = false ∧ v.log = u.log ++ [.rotated]) ∧
      (u.rotating = false → u.files = u.logged keep d) ∧
      (u.closed = false → u.abandoned = []) ∧
      ∀ raw o,
        (u.write keep maxSize raw o).2.accepted =
          u.accepted ++
            if (u.write keep maxSize raw o).1 = none then [raw]
            else [] := by
  rcases kept_of_reachable hu with ⟨records, closed, h⟩ | h
  · refine ⟨?_, h.idle, fun _ => h.whole, ?_⟩
    · intro o v hEnter hDone
      have hEnd := h.rotateLocked (hEnter.imp id And.right) o
      rw [hDone] at hEnd
      have hRotated := hEnd.2 rfl
      exact ⟨hRotated.disk, hRotated.data, hRotated.rotating,
        hRotated.log⟩
    · intro raw o
      have hTakes := h.write maxSize raw o
      rw [h.taken]
      cases hErr : (u.write keep maxSize raw o).1 with
      | some err =>
          rw [(hTakes.1 err hErr).taken, if_neg nofun, List.append_nil]
      | none => rw [(hTakes.2 hErr).taken, if_pos rfl]
  · refine ⟨?_, fun _ => h.files, ?_, ?_⟩
    · rintro o v (hMoving | hOpen) _
      · exact nomatch h.rotating.symm.trans hMoving
      · exact nomatch h.closed.symm.trans hOpen.1
    · intro hOpen
      exact nomatch h.closed.symm.trans hOpen
    · intro raw o
      unfold RotatingFile.write
      rw [if_neg (by simp [h.retired]), if_pos h.closed,
        if_neg nofun, List.append_nil]

/- Two archives, and no current file. -/
def archived : Generations :=
  fun g => if g = 1 then some [50, 10] else if g = 2 then some [49, 10] else none

/- The second record needs a rotation, which stops at step 1. -/
def busyArchive : List FileLabel :=
  [.write [51, 10] {},
    .write [52, 10]
      { rotate :=
          { flush := { written := 2 }
            step := fun i => if i = 1 then some "busy" else none } }]

theorem rotation_resumes_busy :
    ∃ u v,
      (unitStorage 2 2 archived).run { disk := archived } busyArchive =
          some u ∧
        u.rotating = true ∧ u.disk 1 = some [50, 10] ∧
        u.rotateLocked 2 {} = (none, v) ∧
        v.disk = rotation 2 (u.logged 2 archived) ∧
        v.disk 1 = some [51, 10] := by
  refine ⟨_, _, rfl, rfl, rfl, rfl, ?_, rfl⟩
  exact ((rotation_resumes
    (System.reachable_of_run busyArchive rfl rfl)).1
      {} _ (Or.inl rfl) rfl).1

end RotatingFile

end Journal

end Winunitd
