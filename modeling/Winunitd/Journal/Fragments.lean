import Mathlib.Data.List.DropRight
import Mathlib.Data.List.Forall2

/-
  Capture fragments.

  The output of a process is read rune by rune; bytes that are
  not UTF-8 become replacement runes.  A line is emitted when
  its newline is read, without the carriage returns at the end
  of its last fragment, and an overlong line is emitted in
  pieces before that.

  Key definitions include:
    * `readRunes`, `linesFrom`
    * `captureFragments`
    * `Reassembles`

  Key theorems include:
    * `encode_trimRight`
    * `fragments_reassemble`
    * `unended_return_kept`
-/

------------------------------------------------------------
-- Runes
------------------------------------------------------------

namespace Winunitd

namespace Journal

/- The bytes of runes. -/
def encode (cs : List Char) : List UInt8 :=
  cs.flatMap String.utf8EncodeChar

/- The next rune and its width; an invalid byte is replaced. -/
def readRune (bytes : List UInt8) : Char × Nat :=
  match ByteArray.utf8DecodeChar? ⟨bytes.toArray⟩ 0 with
  | some c => (c, c.utf8Size)
  | none => (Char.ofNat 0xFFFD, 1)

/- The runes of a stream, of at most as many bytes. -/
def readRunesFrom : Nat → List UInt8 → List Char
| 0, _ => []
| _, [] => []
| n + 1, b :: bs =>
    (readRune (b :: bs)).1 ::
      readRunesFrom n ((b :: bs).drop (readRune (b :: bs)).2)

/- The runes of a stream. -/
def readRunes (bytes : List UInt8) : List Char :=
  readRunesFrom bytes.length bytes

/- The lines of runes, and whether a newline ends them. -/
def linesFrom (line : List Char) : List Char → List (List Char × Bool)
| [] => [(line, false)]
| c :: cs =>
    if c = '\n' then (line, true) :: linesFrom [] cs
    else linesFrom (line ++ [c]) cs

------------------------------------------------------------
-- Fragments
------------------------------------------------------------

def maxCaptureFragment : Nat := 64 * 1024

structure Fragment where
  message : List UInt8
  continuation : Bool
  isPartial : Bool
deriving DecidableEq, Repr

/- Without the carriage returns at the end. -/
def trimRight (bytes : List UInt8) : List UInt8 :=
  bytes.rdropWhile (· = 13)

/- The fragments of the runes that are still to be read. -/
def captureFrom (buf : List UInt8) (continuation : Bool) :
    List Char → List Fragment
| [] => if buf ≠ [] then [⟨buf, continuation, true⟩] else []
| ch :: rest =>
    if ch = '\n' then
      (if trimRight buf ≠ [] ∨ continuation = true then
        [⟨trimRight buf, continuation, false⟩]
      else
        []) ++ captureFrom [] false rest
    else if maxCaptureFragment < buf.length + ch.utf8Size then
      ⟨buf, continuation, true⟩ ::
        captureFrom (String.utf8EncodeChar ch) true rest
    else
      captureFrom (buf ++ String.utf8EncodeChar ch) continuation rest

/- The fragments of a stream. -/
def captureFragments (bytes : List UInt8) : List Fragment :=
  captureFrom [] false (readRunes bytes)

/- The messages of fragments, one after the other. -/
def joined (fs : List Fragment) : List UInt8 :=
  (fs.map Fragment.message).flatten

/- UTF-8 of at most the size of a fragment, and no newline. -/
def Clean (bytes : List UInt8) : Prop :=
  bytes.length ≤ maxCaptureFragment ∧
    ∃ cs, '\n' ∉ cs ∧ bytes = encode cs

/- Every fragment but the first continues another. -/
def Continued (fs : List Fragment) : Prop :=
  (∀ f ∈ fs.head?, f.continuation = false) ∧
    ∀ f ∈ fs.tail, f.continuation = true

/-
  The fragments of a line.  The first one does not continue
  another, and only the last one of an ended line is not marked
  as partial.  Together they are the line, but for carriage
  returns at its end: none of them is missing if no newline
  ends the line, all of them are if one does and the line fits
  into a fragment.
-/
structure Reassembles
    (line : List Char × Bool)
    (fs : List Fragment) : Prop where
  clean : ∀ f ∈ fs, Clean f.message
  continued : Continued fs
  cut :
    (∀ f ∈ fs.dropLast, f.isPartial = true) ∧
      ∀ f ∈ fs.getLast?, f.isPartial = !line.2
  text :
    ∃ kept n, line.1 = kept ++ List.replicate n '\r' ∧
      joined fs = encode kept ∧
      (line.2 = false → n = 0) ∧
      (line.2 = true → (encode line.1).length ≤ maxCaptureFragment →
        kept.getLast? ≠ some '\r')
  empty : line.1 = [] → fs = []

------------------------------------------------------------
-- Carriage Returns
------------------------------------------------------------

theorem encode_append (cs ds : List Char) :
    encode (cs ++ ds) = encode cs ++ encode ds :=
  List.flatMap_append

theorem encode_singleton (c : Char) :
    encode [c] = String.utf8EncodeChar c := by
  simp [encode]

/- A carriage return is no part of another rune. -/
theorem getLast_utf8EncodeChar
    {c : Char}
    (hc : c ≠ '\r') :
    ∃ bs b, String.utf8EncodeChar c = bs ++ [b] ∧ b ≠ 13 := by
  have hVal : c.val.toNat ≠ 13 := by
    intro hEq
    exact hc (Char.ext (UInt32.toNat_inj.mp hEq))
  have hTail : UInt8.ofNat (c.val.toNat % 64 + 128) ≠ 13 := by
    intro hEq
    have hNat : (c.val.toNat % 64 + 128) % 256 = 13 :=
      congrArg UInt8.toNat hEq
    omega
  unfold String.utf8EncodeChar
  dsimp only
  split
  · refine ⟨[], _, rfl, ?_⟩
    intro hEq
    have hNat : c.val.toNat % 256 = 13 := congrArg UInt8.toNat hEq
    omega
  · split
    · exact ⟨[_], _, rfl, hTail⟩
    · split
      · exact ⟨[_, _], _, rfl, hTail⟩
      · exact ⟨[_, _, _], _, rfl, hTail⟩

/- Trimming the bytes is trimming the runes. -/
theorem encode_trimRight (cs : List Char) :
    trimRight (encode cs) = encode (cs.rdropWhile (· = '\r')) := by
  induction cs using List.reverseRecOn with
  | nil => rfl
  | append_singleton cs c ih =>
      rw [encode_append, encode_singleton]
      by_cases hc : c = '\r'
      · rw [hc, List.rdropWhile_concat_pos _ _ _ (by simp), ← ih]
        exact List.rdropWhile_concat_pos _ _ _ (by simp)
      · rcases getLast_utf8EncodeChar hc with ⟨bs, b, hEq, hb⟩
        rw [List.rdropWhile_concat_neg _ _ _ (by simpa using hc),
          encode_append, encode_singleton, hEq, ← List.append_assoc]
        exact List.rdropWhile_concat_neg _ _ _ (by simpa using hb)

/- The carriage returns at the end of a line. -/
theorem eq_rdropWhile (cs : List Char) :
    ∃ n, cs = cs.rdropWhile (· = '\r') ++ List.replicate n '\r' ∧
      (cs.rdropWhile (· = '\r')).getLast? ≠ some '\r' := by
  refine ⟨(cs.rtakeWhile (· = '\r')).length, ?_, ?_⟩
  · rw [← List.eq_replicate_of_mem, List.rdropWhile_append_rtakeWhile]
    intro c hc
    simpa using List.mem_rtakeWhile_imp hc
  · intro hLast
    have hSome : cs.rdropWhile (· = '\r') ≠ [] := by
      intro hNil
      rw [hNil] at hLast
      cases hLast
    refine List.rdropWhile_last_not _ _ hSome ?_
    rw [List.getLast?_eq_some_getLast hSome] at hLast
    simpa using Option.some.inj hLast

theorem encode_eq_nil_iff {cs : List Char} :
    encode cs = [] ↔ cs = [] := by
  cases cs with
  | nil => simp [encode]
  | cons c cs =>
      have hSome : String.utf8EncodeChar c ≠ [] := by
        intro hNil
        have hLength := String.length_utf8EncodeChar c
        have hPos := Char.utf8Size_pos c
        rw [hNil, List.length_nil] at hLength
        omega
      simp [encode, hSome]

------------------------------------------------------------
-- Reassembly
------------------------------------------------------------

/-
  In the middle of a line: the runes `head` have been emitted as
  `done`, and the runes `tail` are in the buffer.
-/
structure Pending
    (head tail : List Char)
    (done : List Fragment) : Prop where
  plain : '\n' ∉ head ++ tail
  clean : ∀ f ∈ done, Clean f.message
  continued : Continued done
  cut : ∀ f ∈ done, f.isPartial = true
  text : joined done = encode head
  fits : (encode tail).length ≤ maxCaptureFragment
  long :
    done = [] ∧ head = [] ∨
      done ≠ [] ∧ maxCaptureFragment < (encode (head ++ tail)).length

namespace Pending

theorem start : Pending [] [] [] := by
  refine ⟨by simp, by simp, ⟨by simp, by simp⟩, by simp, rfl,
    Nat.zero_le _, Or.inl ⟨rfl, rfl⟩⟩

variable {head tail : List Char}
variable {done : List Fragment}
variable (h : Pending head tail done)

include h

theorem continued_snoc
    (bytes : List UInt8)
    (isPartial : Bool) :
    Continued (done ++ [⟨bytes, !done.isEmpty, isPartial⟩]) := by
  have hOld := h.continued
  cases done with
  | nil => simp [Continued]
  | cons f fs =>
      refine ⟨hOld.1, ?_⟩
      intro g hg
      rcases List.mem_append.mp hg with hBefore | hNew
      · exact hOld.2 g hBefore
      · rw [List.mem_singleton.mp hNew]
        rfl

variable {kept : List Char}

theorem clean_of_prefix
    (hKept : kept <+: tail) :
    Clean (encode kept) := by
  rcases hKept with ⟨rest, hTail⟩
  have hFits := h.fits
  have hPlain := h.plain
  rw [← hTail] at hFits hPlain
  rw [encode_append, List.length_append] at hFits
  refine ⟨by omega, kept, ?_, rfl⟩
  intro hMem
  exact hPlain (by simp [hMem])

/- The rest of a line in its last fragment. -/
theorem close
    {n : Nat}
    {ended : Bool}
    (hTail : tail = kept ++ List.replicate n '\r')
    (hOpen : ended = false → n = 0)
    (hEnded : ended = true → kept.getLast? ≠ some '\r')
    (hSome : head ++ tail ≠ []) :
    Reassembles (head ++ tail, ended)
      (done ++ [⟨encode kept, !done.isEmpty, !ended⟩]) := by
  refine ⟨?_, h.continued_snoc _ _, ?_, ?_,
    fun hNil => absurd hNil hSome⟩
  · intro f hf
    rcases List.mem_append.mp hf with hOld | hNew
    · exact h.clean f hOld
    · rw [List.mem_singleton.mp hNew]
      exact h.clean_of_prefix ⟨_, hTail.symm⟩
  · rw [List.dropLast_concat, List.getLast?_concat]
    exact ⟨h.cut, fun f hf => by rw [← Option.some.inj hf]⟩
  · refine ⟨head ++ kept, n, ?_, ?_, hOpen, ?_⟩
    · rw [List.append_assoc, ← hTail]
    · rw [encode_append, ← h.text]
      simp [joined]
    · intro hTrue hFits
      rcases h.long with ⟨_, rfl⟩ | ⟨_, hLong⟩
      · exact hEnded hTrue
      · exact absurd hFits (Nat.not_le_of_lt hLong)

/- The stream ends. -/
theorem finish :
    ∃ fs, captureFrom (encode tail) (!done.isEmpty) [] = fs ∧
      Reassembles (head ++ tail, false) (done ++ fs) := by
  refine ⟨_, rfl, ?_⟩
  simp only [captureFrom, ne_eq, encode_eq_nil_iff]
  split
  · rename_i hSome
    have hTail : tail = tail ++ List.replicate 0 '\r' := by
      simp
    refine h.close hTail (fun _ => rfl)
      nofun ?_
    simp [hSome]
  · rename_i hNil
    rw [not_not] at hNil
    subst hNil
    rw [List.append_nil, List.append_nil]
    refine ⟨h.clean, h.continued,
      ⟨fun f hf => h.cut f (List.dropLast_subset _ hf),
        fun f hf => h.cut f (List.mem_of_getLast? hf)⟩,
      ⟨head, 0, by simp, h.text, fun _ => rfl, nofun⟩, ?_⟩
    intro hHead
    rcases h.long with ⟨hNone, _⟩ | ⟨_, hLong⟩
    · exact hNone
    · rw [show head = [] from hHead] at hLong
      cases hLong

/- A newline ends the line. -/
theorem newline :
    Reassembles (head ++ tail, true)
      (done ++
        if trimRight (encode tail) ≠ [] ∨ (!done.isEmpty) = true then
          [⟨trimRight (encode tail), !done.isEmpty, false⟩]
        else
          []) := by
  rcases eq_rdropWhile tail with ⟨n, hTail, hEnded⟩
  simp only [encode_trimRight, ne_eq, encode_eq_nil_iff]
  split
  · rename_i hEmit
    refine h.close hTail nofun
      (fun _ => hEnded) ?_
    intro hNil
    rcases List.append_eq_nil_iff.mp hNil with ⟨rfl, rfl⟩
    rcases h.long with ⟨rfl, _⟩ | ⟨_, hLong⟩
    · simp at hEmit
    · cases hLong
  · rename_i hNone
    rw [not_or, not_not] at hNone
    have hDone : done = [] := by simpa using hNone.2
    subst hDone
    rcases h.long with ⟨_, rfl⟩ | ⟨hSome, _⟩
    · rw [hNone.1] at hTail
      exact ⟨by simp, ⟨by simp, by simp⟩, ⟨by simp, by simp⟩,
        ⟨[], n, hTail, rfl, nofun, by simp⟩, fun _ => rfl⟩
    · exact absurd rfl hSome

/- The buffer is full: its runes are emitted. -/
theorem spill
    {ch : Char}
    (hNewline : ch ≠ '\n')
    (hFull : maxCaptureFragment < (encode tail).length + ch.utf8Size) :
    Pending (head ++ tail) [ch]
      (done ++ [⟨encode tail, !done.isEmpty, true⟩]) := by
  have hSize : (encode [ch]).length = ch.utf8Size := by
    rw [encode_singleton, String.length_utf8EncodeChar]
  refine ⟨?_, ?_, h.continued_snoc _ _, ?_, ?_, ?_,
    Or.inr ⟨by simp, ?_⟩⟩
  · have hPlain := h.plain
    simp only [List.mem_append, List.mem_singleton, not_or] at hPlain ⊢
    exact ⟨hPlain, Ne.symm hNewline⟩
  · intro f hf
    rcases List.mem_append.mp hf with hOld | hNew
    · exact h.clean f hOld
    · rw [List.mem_singleton.mp hNew]
      exact h.clean_of_prefix (List.prefix_refl _)
  · intro f hf
    rcases List.mem_append.mp hf with hOld | hNew
    · exact h.cut f hOld
    · rw [List.mem_singleton.mp hNew]
  · rw [encode_append, ← h.text]
    simp [joined]
  · have hFour := Char.utf8Size_le_four ch
    rw [hSize]
    unfold maxCaptureFragment
    omega
  · rw [encode_append, encode_append, List.length_append,
      List.length_append, hSize]
    omega

theorem push
    {ch : Char}
    (hNewline : ch ≠ '\n')
    (hRoom :
      ¬ maxCaptureFragment < (encode tail).length + ch.utf8Size) :
    Pending head (tail ++ [ch]) done := by
  have hLength :
      (encode (tail ++ [ch])).length =
        (encode tail).length + ch.utf8Size := by
    rw [encode_append, List.length_append, encode_singleton,
      String.length_utf8EncodeChar]
  refine { h with plain := ?_, fits := by omega, long := ?_ }
  · have hPlain := h.plain
    simp only [List.mem_append, List.mem_singleton, not_or] at hPlain ⊢
    exact ⟨hPlain.1, hPlain.2, Ne.symm hNewline⟩
  · refine h.long.imp_right (fun hLong => ⟨hLong.1, ?_⟩)
    have hMore := hLong.2
    rw [encode_append, List.length_append] at hMore ⊢
    omega

end Pending

/- From the middle of a line on, each line is reassembled. -/
theorem captureFrom_reassembles
    {head tail : List Char}
    {done : List Fragment}
    (rest : List Char)
    (h : Pending head tail done) :
    ∃ fs fss,
      captureFrom (encode tail) (!done.isEmpty) rest =
        fs ++ fss.flatten ∧
      List.Forall₂ Reassembles (linesFrom (head ++ tail) rest)
        ((done ++ fs) :: fss) := by
  induction rest generalizing head tail done with
  | nil =>
      rcases h.finish with ⟨fs, hEq, hLine⟩
      exact ⟨fs, [], by rw [hEq]; simp, .cons hLine .nil⟩
  | cons ch rest ih =>
      simp only [captureFrom, linesFrom]
      split
      · rcases ih .start with ⟨fs, fss, hEq, hLines⟩
        refine ⟨_, fs :: fss, ?_, .cons h.newline hLines⟩
        rw [List.flatten_cons, ← hEq]
        rfl
      · rename_i hNewline
        rw [List.append_assoc]
        split
        · rename_i hFull
          rcases ih (h.spill hNewline hFull) with ⟨fs, fss, hEq, hLines⟩
          refine ⟨⟨encode tail, !done.isEmpty, true⟩ :: fs, fss, ?_, ?_⟩
          · rw [List.cons_append, ← hEq, encode_singleton]
            cases done <;> rfl
          · rw [List.append_assoc, List.append_assoc,
              List.singleton_append] at hLines
            exact hLines
        · rename_i hRoom
          rw [← encode_singleton, ← encode_append]
          exact ih (h.push hNewline hRoom)

/-
  Every stream: its fragments are those of its lines, in order.
-/
theorem fragments_reassemble (bytes : List UInt8) :
    ∃ fss, captureFragments bytes = fss.flatten ∧
      List.Forall₂ Reassembles (linesFrom [] (readRunes bytes))
        fss := by
  rcases captureFrom_reassembles (readRunes bytes) .start with
    ⟨fs, fss, hEq, hLines⟩
  exact ⟨fs :: fss, hEq, hLines⟩

/-
  A carriage return is kept if no newline follows it, although
  the line fits into one fragment.
-/
theorem unended_return_kept :
    linesFrom [] (readRunes [97, 13]) = [(['a', '\r'], false)] ∧
      captureFragments [97, 13] =
        [⟨encode ['a', '\r'], false, true⟩] := by
  decide +kernel

end Journal

end Winunitd
