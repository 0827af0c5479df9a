import Winunitd.Lib.Transition
import Winunitd.Journal.Rotation

/-
  The record buffer of a unit file.

  Records are appended whole and written in batches.  A write
  may get only a part of its bytes through; the rest stays in
  the buffer and is written again.  For each record the buffer
  keeps how many of its bytes are left, which is what a loss
  of the buffer is counted by.

  Key definitions include:
    * `RecordBuffer.flush`
    * `RecordBuffer.append`
    * `buffering`

  Key theorems include:
    * `takeWritten_unwritten`
    * `recordBuffer_exact`
-/

------------------------------------------------------------
-- The Buffer
------------------------------------------------------------

namespace Winunitd

namespace Journal

/- A record in the buffer, with the bytes of it that are left. -/
structure BufferedRecord where
  remaining : Nat
  messageBytes : Nat
deriving DecidableEq, Repr

/- The writer is given by the bytes that it has accepted. -/
structure RecordBuffer where
  writer : List UInt8
  data : List UInt8
  records : List BufferedRecord
deriving DecidableEq, Repr

/- The loop that takes `left` written bytes off the records. -/
def takeWritten : Nat → List BufferedRecord → List BufferedRecord
| _, [] => []
| left, record :: records =>
    if left = 0 then record :: records
    else if left < record.remaining then
      { record with remaining := record.remaining - left } :: records
    else takeWritten (left - record.remaining) records

namespace RecordBuffer

/- A flush whose write reports `n` bytes and `err`. -/
def flush
    (b : RecordBuffer)
    (n : Int)
    (err : Option String) :
    Option String × RecordBuffer :=
  if b.data = [] then (none, b)
  else if n < 0 ∨ b.data.length < n then (some "short write", b)
  else
    (if n < b.data.length ∧ err = none then some "short write" else err,
      { writer := b.writer ++ b.data.take n.toNat
        data := b.data.drop n.toNat
        records := takeWritten n.toNat b.records })

/- The record is not taken if the flush before it fails. -/
def append
    (b : RecordBuffer)
    (raw : List UInt8)
    (messageBytes : Nat)
    (n : Int)
    (err : Option String) :
    Option String × RecordBuffer :=
  let flushed :=
    if 0 < b.data.length ∧
        journalBufferSize < b.data.length + raw.length then
      b.flush n err
    else
      (none, b)
  match flushed with
  | (some err, b) => (some err, b)
  | (none, b) =>
      (none,
        { b with
          data := b.data ++ raw
          records := b.records ++ [⟨raw.length, messageBytes⟩] })

/- The records that are lost with the buffer, and their messages. -/
def pendingLoss (b : RecordBuffer) : Nat × Nat :=
  (b.records.length, (b.records.map (·.messageBytes)).sum)

end RecordBuffer

------------------------------------------------------------
-- Runs
------------------------------------------------------------

structure JournalRecord where
  raw : List UInt8
  messageBytes : Nat
deriving DecidableEq, Repr

/- A buffer, and the records that it has accepted so far. -/
structure Buffering where
  buffer : RecordBuffer
  accepted : List JournalRecord
deriving DecidableEq, Repr

/-
  Calls, with what the writer does if it is called: it accepts
  `k` bytes, or all if there are fewer, and may fail.
-/
inductive BufferCall where
| append (raw : List UInt8) (messageBytes k : Nat) (err : Option String)
| flush (k : Nat) (err : Option String)
deriving DecidableEq, Repr

def Buffering.step (s : Buffering) : BufferCall → Buffering
| .append raw messageBytes k err =>
    match s.buffer.append raw messageBytes
        (min k s.buffer.data.length : Nat) err with
    | (some _, b) => { s with buffer := b }
    | (none, b) => ⟨b, s.accepted ++ [⟨raw, messageBytes⟩]⟩
| .flush k err =>
    { s with
      buffer :=
        (s.buffer.flush (min k s.buffer.data.length : Nat) err).2 }

def buffering : Lib.System Buffering BufferCall where
  init s := s = ⟨⟨[], [], []⟩, []⟩
  step s call := some (s.step call)

------------------------------------------------------------
-- The Cut
------------------------------------------------------------

/- The bytes of a sequence of records. -/
def recordBytes (rs : List JournalRecord) : List UInt8 :=
  rs.flatMap (·.raw)

def JournalRecord.whole (r : JournalRecord) : BufferedRecord :=
  ⟨r.raw.length, r.messageBytes⟩

/- Records of which the first `cut` bytes have been written. -/
def unwritten (cut : Nat) : List JournalRecord → List BufferedRecord
| [] => []
| r :: rs => ⟨r.raw.length - cut, r.messageBytes⟩ :: rs.map (·.whole)

/- The written bytes end before or within the first record. -/
def Cuts (cut : Nat) : List JournalRecord → Prop
| [] => cut = 0
| r :: _ => cut = 0 ∨ cut < r.raw.length

section Cut

variable {rest : List JournalRecord}
variable {cut : Nat}

theorem recordBytes_append
    (done rest : List JournalRecord) :
    recordBytes (done ++ rest) = recordBytes done ++ recordBytes rest :=
  List.flatMap_append

theorem length_recordBytes_cons
    (r : JournalRecord)
    (rs : List JournalRecord) :
    (recordBytes (r :: rs)).length =
      r.raw.length + (recordBytes rs).length := by
  rw [recordBytes, List.flatMap_cons, List.length_append, recordBytes]

theorem cuts_zero (rest : List JournalRecord) : Cuts 0 rest := by
  cases rest with
  | nil => rfl
  | cons r rest => exact Or.inl rfl

theorem unwritten_zero (rest : List JournalRecord) :
    unwritten 0 rest = rest.map (·.whole) := by
  cases rest <;> rfl

theorem length_unwritten :
    (unwritten cut rest).length = rest.length := by
  cases rest <;> simp [unwritten]

theorem messageBytes_unwritten :
    (unwritten cut rest).map (·.messageBytes) =
      rest.map (·.messageBytes) := by
  cases rest <;> simp [unwritten, JournalRecord.whole]

theorem sum_whole (rest : List JournalRecord) :
    ((rest.map (·.whole)).map (·.remaining)).sum =
      (recordBytes rest).length := by
  simp only [recordBytes, List.length_flatMap, List.map_map,
    Function.comp_def, JournalRecord.whole]

theorem sum_unwritten
    (hCut : Cuts cut rest) :
    ((unwritten cut rest).map (·.remaining)).sum + cut =
      (recordBytes rest).length := by
  cases rest with
  | nil => exact (Nat.zero_add cut).trans hCut
  | cons r rest =>
      have hSum := sum_whole rest
      rw [unwritten, List.map_cons, List.sum_cons, hSum,
        length_recordBytes_cons]
      rcases hCut with hZero | hWithin <;> dsimp only <;> omega

/- The loop moves the cut over the records that it completes. -/
theorem takeWritten_unwritten
    (hCut : Cuts cut rest)
    {n : Nat}
    (hn : cut + n ≤ (recordBytes rest).length) :
    ∃ done rest' cut',
      rest = done ++ rest' ∧
        cut + n = (recordBytes done).length + cut' ∧
        Cuts cut' rest' ∧
        takeWritten n (unwritten cut rest) = unwritten cut' rest' := by
  induction rest generalizing cut n with
  | nil => exact ⟨[], [], 0, rfl, Nat.le_zero.mp hn, rfl, rfl⟩
  | cons r rest ih =>
      rw [length_recordBytes_cons] at hn
      rw [unwritten, takeWritten]
      by_cases hZero : n = 0
      · rw [if_pos hZero]
        refine ⟨[], r :: rest, cut, rfl, ?_, hCut, rfl⟩
        rw [hZero, Nat.add_comm]
        rfl
      · rw [if_neg hZero]
        by_cases hShort : n < r.raw.length - cut
        · -- the bytes end within the first record
          rw [if_pos hShort]
          refine ⟨[], r :: rest, cut + n, rfl, ?_, Or.inr ?_, ?_⟩
          · exact (Nat.zero_add _).symm
          · omega
          · rw [unwritten, Nat.sub_sub]
        · -- the first record is complete, the others are whole
          have hLe : cut ≤ r.raw.length := by
            rcases hCut with hStart | hWithin <;> omega
          rw [if_neg hShort, ← unwritten_zero]
          rcases ih (cuts_zero rest)
              (n := n - (r.raw.length - cut)) (by omega) with
            ⟨done, rest', cut', hRest, hLength, hCuts, hTaken⟩
          refine ⟨r :: done, rest', cut', ?_, ?_, hCuts, hTaken⟩
          · rw [hRest, List.cons_append]
          · rw [length_recordBytes_cons]
            omega

end Cut

------------------------------------------------------------
-- Exactness
------------------------------------------------------------

/-
  The records in the buffer are the `rest` of those that were
  accepted, with `cut` bytes of the first one written.
-/
structure Exact
    (s : Buffering)
    (done rest : List JournalRecord)
    (cut : Nat) : Prop where
  accepted : s.accepted = done ++ rest
  bytes : s.buffer.writer ++ s.buffer.data = recordBytes s.accepted
  written : s.buffer.writer.length = (recordBytes done).length + cut
  cuts : Cuts cut rest
  records : s.buffer.records = unwritten cut rest
  small :
    s.buffer.data.length ≤ journalBufferSize ∨
      ∃ r ∈ s.accepted, s.buffer.data <:+ r.raw

namespace Exact

variable {s : Buffering}
variable {done rest : List JournalRecord}
variable {cut : Nat}

theorem length_data
    (h : Exact s done rest cut) :
    s.buffer.data.length + cut = (recordBytes rest).length := by
  have hLength := congrArg List.length h.bytes
  rw [h.accepted, recordBytes_append, List.length_append,
    List.length_append, h.written] at hLength
  omega

/- The first `n` bytes of the buffer get through. -/
theorem advance
    (h : Exact s done rest cut)
    {n : Nat}
    (hn : n ≤ s.buffer.data.length) :
    ∃ done rest cut,
      Exact
        { s with
          buffer :=
            { writer := s.buffer.writer ++ s.buffer.data.take n
              data := s.buffer.data.drop n
              records := takeWritten n s.buffer.records } }
        done rest cut := by
  have hData := h.length_data
  rcases takeWritten_unwritten h.cuts (n := n) (by omega) with
    ⟨more, rest', cut', hRest, hLength, hCuts, hTaken⟩
  refine ⟨done ++ more, rest', cut', ?_, ?_, ?_, hCuts, ?_, ?_⟩
  · rw [h.accepted, hRest, List.append_assoc]
  · rw [List.append_assoc, List.take_append_drop]
    exact h.bytes
  · rw [List.length_append, h.written, recordBytes_append,
      List.length_append, List.length_take_of_le hn]
    omega
  · rw [h.records]
    exact hTaken
  · rcases h.small with hFits | ⟨r, hr, hPart⟩
    · exact Or.inl ((List.drop_sublist _ _).length_le.trans hFits)
    · exact Or.inr ⟨r, hr, (List.drop_suffix _ _).trans hPart⟩

theorem flush
    (h : Exact s done rest cut)
    (k : Nat)
    (err : Option String) :
    ∃ done rest cut,
      Exact
        { s with
          buffer :=
            (s.buffer.flush (min k s.buffer.data.length : Nat) err).2 }
        done rest cut := by
  have hAdvance := h.advance (Nat.min_le_right k _)
  unfold RecordBuffer.flush
  by_cases hEmpty : s.buffer.data = []
  · rw [if_pos hEmpty]
    exact ⟨done, rest, cut, h⟩
  · rw [if_neg hEmpty, if_neg (by omega), Int.toNat_natCast]
    exact hAdvance

/- A record is added to an empty buffer, or fits. -/
theorem push
    (h : Exact s done rest cut)
    (r : JournalRecord)
    (hRoom :
      s.buffer.data = [] ∨
        s.buffer.data.length + r.raw.length ≤ journalBufferSize) :
    Exact
      ⟨{ s.buffer with
          data := s.buffer.data ++ r.raw
          records := s.buffer.records ++ [r.whole] },
        s.accepted ++ [r]⟩
      done (rest ++ [r]) cut := by
  have hCut :
      Cuts cut (rest ++ [r]) ∧
        unwritten cut rest ++ [r.whole] =
          unwritten cut (rest ++ [r]) := by
    have hCuts := h.cuts
    cases rest with
    | nil =>
        cases hCuts
        exact ⟨Or.inl rfl, rfl⟩
    | cons first rest =>
        refine ⟨hCuts, ?_⟩
        simp only [unwritten, List.cons_append, List.map_append,
          List.map_cons, List.map_nil]
  refine ⟨?_, ?_, h.written, hCut.1, ?_, ?_⟩
  · rw [h.accepted, List.append_assoc]
  · rw [recordBytes_append, ← h.bytes, List.append_assoc]
    simp only [recordBytes, List.flatMap_cons, List.flatMap_nil,
      List.append_nil]
  · rw [h.records]
    exact hCut.2
  · rcases hRoom with hEmpty | hFits
    · refine Or.inr ⟨r, List.mem_append_right _ List.mem_cons_self, ?_⟩
      rw [hEmpty, List.nil_append]
    · refine Or.inl ?_
      rw [List.length_append]
      exact hFits

end Exact

/- A flush that succeeds leaves nothing behind. -/
theorem RecordBuffer.flush_ok
    {b b' : RecordBuffer}
    {n : Int}
    {err : Option String}
    (h : b.flush n err = (none, b')) :
    b'.data = [] := by
  unfold RecordBuffer.flush at h
  split at h
  · rename_i hEmpty
    cases h
    exact hEmpty
  · split at h
    · cases h
    · rcases Prod.mk.inj h with ⟨hErr, rfl⟩
      refine List.drop_eq_nil_iff.mpr ?_
      split at hErr
      · cases hErr
      · rename_i hAll
        rw [hErr, and_iff_left rfl] at hAll
        omega

theorem Buffering.exact_append
    {s : Buffering}
    {done rest : List JournalRecord}
    {cut : Nat}
    (h : Exact s done rest cut)
    (r : JournalRecord)
    (k : Nat)
    (err : Option String) :
    ∃ done rest cut,
      Exact (s.step (.append r.raw r.messageBytes k err))
        done rest cut := by
  have hFlush := h.flush k err
  unfold Buffering.step RecordBuffer.append
  dsimp only
  by_cases hFull :
      0 < s.buffer.data.length ∧
        journalBufferSize < s.buffer.data.length + r.raw.length
  · rw [if_pos hFull]
    rcases hResult :
        s.buffer.flush (min k s.buffer.data.length : Nat) err
      with ⟨_ | failed, b⟩
    · rw [hResult] at hFlush
      rcases hFlush with ⟨done', rest', cut', hFlushed⟩
      exact ⟨done', rest' ++ [r], cut',
        hFlushed.push r (Or.inl (RecordBuffer.flush_ok hResult))⟩
    · rw [hResult] at hFlush
      exact hFlush
  · rw [if_neg hFull]
    refine ⟨done, rest ++ [r], cut, h.push r ?_⟩
    rw [← List.length_eq_zero_iff]
    omega

theorem exact_of_reachable
    {s : Buffering}
    (h : buffering.Reachable s) :
    ∃ done rest cut, Exact s done rest cut := by
  refine
    Lib.System.reachable_invariant
      (I := fun s => ∃ done rest cut, Exact s done rest cut) ?_ ?_ h
  · rintro s rfl
    exact ⟨[], [], 0, rfl, rfl, rfl, rfl, rfl, Or.inl (Nat.zero_le _)⟩
  · rintro s call t _ ⟨done, rest, cut, hExact⟩ hStep
    cases hStep
    cases call with
    | append raw messageBytes k err =>
        exact Buffering.exact_append hExact ⟨raw, messageBytes⟩ k err
    | flush k err => exact hExact.flush k err

/-
  After any calls: what the writer accepted and what is in the
  buffer are the bytes of the accepted records; the counts of
  the records sum to the buffered bytes; a loss would count
  the records from one on, before which all are completely
  written and from which on none is, the empty ones apart; and
  the buffer is small or holds bytes of a single record.
-/
theorem recordBuffer_exact
    {s : Buffering}
    (h : buffering.Reachable s) :
    s.buffer.writer ++ s.buffer.data = recordBytes s.accepted ∧
      (s.buffer.records.map (·.remaining)).sum =
        s.buffer.data.length ∧
      (∃ done rest, s.accepted = done ++ rest ∧
        recordBytes done <+: s.buffer.writer ∧
        (∀ more r after, rest = more ++ r :: after → r.raw ≠ [] →
          ¬ recordBytes (done ++ more ++ [r]) <+: s.buffer.writer) ∧
        s.buffer.pendingLoss =
          (rest.length, (rest.map (·.messageBytes)).sum)) ∧
      (s.buffer.data.length ≤ journalBufferSize ∨
        ∃ r ∈ s.accepted, s.buffer.data <:+ r.raw) := by
  rcases exact_of_reachable h with ⟨done, rest, cut, hExact⟩
  have hData := hExact.length_data
  have hSum := sum_unwritten hExact.cuts
  refine ⟨hExact.bytes, ?_, ⟨done, rest, hExact.accepted, ?_, ?_, ?_⟩,
    hExact.small⟩
  · rw [hExact.records]
    omega
  · have hBytes := hExact.bytes
    rw [hExact.accepted, recordBytes_append] at hBytes
    refine List.prefix_of_prefix_length_le ⟨_, rfl⟩ ⟨_, hBytes⟩ ?_
    rw [hExact.written]
    exact Nat.le_add_right _ _
  · rintro more r after rfl hRaw hPrefix
    have hPos := List.length_pos_iff.mpr hRaw
    have hLength := hPrefix.length_le
    have hCuts := hExact.cuts
    rw [recordBytes_append, recordBytes_append, List.length_append,
      List.length_append, hExact.written,
      length_recordBytes_cons] at hLength
    -- the cut is within the first record of the rest
    cases more with
    | nil => rcases hCuts with hZero | hWithin <;> omega
    | cons first more =>
        rw [length_recordBytes_cons] at hLength
        rcases hCuts with hZero | hWithin <;> omega
  · rw [RecordBuffer.pendingLoss, hExact.records, length_unwritten,
      messageBytes_unwritten]

/- The second of two records is cut by a failed write. -/
theorem recordBuffer_exact_cut :
    ∃ s, buffering.Reachable s ∧
      s.buffer.writer = [1, 2, 3] ∧ s.buffer.pendingLoss = (1, 7) ∧
      s.buffer.writer ++ s.buffer.data = recordBytes s.accepted := by
  have hReach :=
    Lib.System.reachable_of_run (M := buffering)
      (t :=
        ⟨⟨[1, 2, 3], [4], [⟨1, 7⟩]⟩, [⟨[1, 2], 5⟩, ⟨[3, 4], 7⟩]⟩)
      [.append [1, 2] 5 0 none, .append [3, 4] 7 0 none,
        .flush 3 (some "disk full")]
      rfl (by decide +kernel)
  exact ⟨_, hReach, rfl, rfl, (recordBuffer_exact hReach).1⟩

/-
  An empty record is counted although every byte of it has been
  written.
-/
theorem empty_record_counted :
    ∃ s, buffering.Reachable s ∧
      s.accepted = [⟨[], 7⟩] ∧
      recordBytes s.accepted <+: s.buffer.writer ∧
      s.buffer.pendingLoss = (1, 7) := by
  have hReach :=
    Lib.System.reachable_of_run (M := buffering)
      (t := ⟨⟨[], [], [⟨0, 7⟩]⟩, [⟨[], 7⟩]⟩)
      [.append [] 7 0 none, .flush 0 none]
      rfl (by decide +kernel)
  exact ⟨_, hReach, rfl, List.nil_prefix, rfl⟩

------------------------------------------------------------
-- The Buffer Of A Rotating File
------------------------------------------------------------

namespace RotatingFile

/- The buffer of the file is a record buffer with these bytes. -/
theorem flushBuffer_recordBuffer
    (u : RotatingFile)
    (o : FlushOutcome)
    {b : RecordBuffer}
    (h : b.data = u.data) :
    (u.flushBuffer o).1 =
        (b.flush (min o.written u.data.length : Nat) o.err).1 ∧
      (u.flushBuffer o).2.data =
        (b.flush (min o.written u.data.length : Nat) o.err).2.data := by
  unfold flushBuffer RecordBuffer.flush
  rw [h]
  by_cases hEmpty : u.data = []
  · rw [if_pos hEmpty, if_pos hEmpty]
    exact ⟨rfl, h.symm⟩
  · rw [if_neg hEmpty, if_neg hEmpty, if_neg (by omega),
      Int.toNat_natCast]
    refine ⟨?_, rfl⟩
    dsimp only
    by_cases hShort : min o.written u.data.length < u.data.length
    · rw [if_pos hShort]
      have hShortInt :
          ((min o.written u.data.length : Nat) : Int) <
            u.data.length := by
        omega
      cases o.err with
      | none =>
          rw [if_pos ⟨hShortInt, rfl⟩]
          rfl
      | some err =>
          rw [if_neg (fun hNone => Option.some_ne_none _ hNone.2)]
          rfl
    · rw [if_neg hShort, if_neg (by omega)]

theorem appendBuffer_recordBuffer
    (u : RotatingFile)
    (raw : List UInt8)
    (messageBytes : Nat)
    (o : FlushOutcome)
    {b : RecordBuffer}
    (h : b.data = u.data) :
    (u.appendBuffer raw o).1 =
        (b.append raw messageBytes
          (min o.written u.data.length : Nat) o.err).1 ∧
      (u.appendBuffer raw o).2.data =
        (b.append raw messageBytes
          (min o.written u.data.length : Nat) o.err).2.data := by
  have hFlush := flushBuffer_recordBuffer u o h
  unfold appendBuffer RecordBuffer.append
  rw [h]
  split
  · rcases hFile : u.flushBuffer o with ⟨_ | err, u'⟩ <;>
      rcases hBuffer : b.flush (min o.written u.data.length : Nat) o.err
        with ⟨_ | err', b'⟩ <;>
      rw [hFile, hBuffer] at hFlush <;>
      rcases hFlush with ⟨hErr, hData⟩
    · exact ⟨rfl, congrArg (· ++ raw) hData⟩
    · cases hErr
    · cases hErr
    · exact ⟨hErr, hData⟩
  · exact ⟨rfl, congrArg (· ++ raw) h.symm⟩

end RotatingFile

end Journal

end Winunitd
