import Winunitd.Journal.Entry

/-
  Log cursors.

  A cursor names a record by its time, a hash of its content
  and the number of records with the same two up to it.  The
  text form of a time is a parameter: up to the year 9999 it
  can be read back, and it has no space.

  Key definitions include:
    * `TimeText`
    * `fnv64a`, `entryID`
    * `formatCursor`, `parseCursor`
    * `cursorTime`

  Key theorems include:
    * `parse_formatCursor`
    * `formatCursor_injective`
    * `cursorTime_entryID`
-/

------------------------------------------------------------
-- Identifiers
------------------------------------------------------------

namespace Winunitd

namespace Journal

/- Text of times that are not the zero time. -/
class TimeText where
  format : Nat → List Char
  parse : List Char → Option Nat
  parse_format :
    ∀ t, t ≠ 0 → t ≤ lastTime → parse (format t) = some t
  format_space : ∀ t, ' ' ∉ format t

/- The 64-bit FNV-1a hash. -/
def fnv64a (bytes : List UInt8) : UInt64 :=
  bytes.foldl
    (fun h b => (h ^^^ b.toUInt64) * 1099511628211)
    14695981039346656037

def utf8 (s : String) : List UInt8 :=
  s.toList.flatMap String.utf8EncodeChar

/- The content that an identifier hashes. -/
def entryHash (e : Entry) : UInt64 :=
  fnv64a
    (utf8 (toString e.pid) ++ 0 :: utf8 e.stream ++
      0 :: utf8 e.message ++ 0 :: utf8 e.invocationID)

------------------------------------------------------------
-- Cursors
------------------------------------------------------------

/- The `n`th record with an identifier. -/
def formatCursor (id : List Char) (n : Nat) : List Char :=
  id ++ ' ' :: Nat.toDigits 10 (if n < 1 then 1 else n)

/- Decimal digits. -/
def digits (cs : List Char) : Option Nat :=
  if cs ≠ [] ∧ cs.all Char.isDigit then
    some (Nat.ofDigitChars 10 cs 0)
  else
    none

/- The largest `int`, of 64 bits. -/
def maxInt : Nat := 9223372036854775807

def inInt (v : Int) : Option Int :=
  if -maxInt - 1 ≤ v ∧ v ≤ maxInt then some v else none

/- A decimal number with an optional sign. -/
def atoi : List Char → Option Int
| '-' :: cs => (digits cs).bind (fun n => inInt (-(n : Int)))
| '+' :: cs => (digits cs).bind (fun n => inInt n)
| cs => (digits cs).bind (fun n => inInt n)

/- The text before and after the last space. -/
def cutLast (cs : List Char) : Option (List Char × List Char) :=
  match cs.reverse.dropWhile (· ≠ ' ') with
  | [] => none
  | _ :: before =>
      some
        (before.reverse, (cs.reverse.takeWhile (· ≠ ' ')).reverse)

/- The identifier and the count of a cursor. -/
def parseCursor (cursor : List Char) : List Char × Nat :=
  if cursor = [] then ([], 1)
  else
    match cutLast cursor with
    | none => (cursor, 1)
    | some (id, count) =>
        match atoi count with
        | some v => if 0 < v then (id, v.toNat) else (cursor, 1)
        | none => (cursor, 1)

section Times

variable [TimeText]

/- The identifier of a record. -/
def entryID (e : Entry) : List Char :=
  (if e.timestamp = 0 then [] else TimeText.format e.timestamp) ++
    ' ' :: Nat.toDigits 16 (entryHash e).toNat

/- The time of an identifier, or the zero time. -/
def cursorTime (id : List Char) : Nat :=
  if id = [] then 0
  else (TimeText.parse (id.takeWhile (· ≠ ' '))).getD 0

end Times

------------------------------------------------------------
-- Reading Back
------------------------------------------------------------

theorem digits_toDigits (n : Nat) :
    digits (Nat.toDigits 10 n) = some n := by
  have hDigits : (Nat.toDigits 10 n).all Char.isDigit = true := by
    rw [List.all_eq_true]
    intro c hc
    exact Nat.isDigit_of_mem_toDigits (by decide) (by decide) hc
  unfold digits
  rw [if_pos ⟨Nat.toDigits_ne_nil, hDigits⟩,
    Nat.ofDigitChars_toDigits (by decide) (by decide)]

/- A decimal has no sign and no space. -/
theorem not_mem_toDigits
    {c : Char}
    (hc : c.isDigit = false)
    (n : Nat) :
    c ∉ Nat.toDigits 10 n := by
  intro hMem
  have hDigit :=
    Nat.isDigit_of_mem_toDigits (by decide) (by decide) hMem
  rw [hc] at hDigit
  cases hDigit

theorem atoi_toDigits (n : Nat) :
    atoi (Nat.toDigits 10 n) = inInt n := by
  have hMinus := not_mem_toDigits (show '-'.isDigit = false by decide) n
  have hPlus := not_mem_toDigits (show '+'.isDigit = false by decide) n
  have hRead := digits_toDigits n
  unfold atoi
  split
  · rename_i cs hEq
    rw [hEq] at hMinus
    exact absurd List.mem_cons_self hMinus
  · rename_i cs hEq
    rw [hEq] at hPlus
    exact absurd List.mem_cons_self hPlus
  · rw [hRead, Option.bind_some]

/- Characters before the first space. -/
theorem takeWhile_space
    {cs : List Char}
    (h : ' ' ∉ cs)
    (rest : List Char) :
    (cs ++ ' ' :: rest).takeWhile (· ≠ ' ') = cs ∧
      (cs ++ ' ' :: rest).dropWhile (· ≠ ' ') = ' ' :: rest := by
  have hAll : ∀ c ∈ cs, decide (c ≠ ' ') = true := by
    intro c hc
    simp only [decide_eq_true_eq]
    rintro rfl
    exact h hc
  constructor
  · rw [List.takeWhile_append_of_pos hAll]
    simp
  · rw [List.dropWhile_append_of_pos hAll]
    simp

theorem cutLast_append
    (id : List Char)
    {count : List Char}
    (h : ' ' ∉ count) :
    cutLast (id ++ ' ' :: count) = some (id, count) := by
  have hReverse :
      (id ++ ' ' :: count).reverse =
        count.reverse ++ ' ' :: id.reverse := by
    simp
  have hSpace : ' ' ∉ count.reverse := by
    simpa using h
  have hCut := takeWhile_space hSpace id.reverse
  unfold cutLast
  rw [hReverse, hCut.1, hCut.2]
  simp

theorem formatCursor_ne_nil
    (id : List Char)
    (n : Nat) :
    formatCursor id n ≠ [] := by
  simp [formatCursor]

theorem cutLast_formatCursor
    (id : List Char)
    {n : Nat}
    (hn : 1 ≤ n) :
    cutLast (formatCursor id n) = some (id, Nat.toDigits 10 n) := by
  unfold formatCursor
  rw [if_neg (by omega)]
  exact cutLast_append id (not_mem_toDigits (by decide) n)

/-
  A cursor is read back as it was written if its number is an
  `int`, and is an identifier without a number otherwise.
-/
theorem parse_formatCursor_cases
    (id : List Char)
    {n : Nat}
    (hn : 1 ≤ n) :
    parseCursor (formatCursor id n) =
      if n ≤ maxInt then (id, n) else (formatCursor id n, 1) := by
  have hPos : (0 : Int) < (n : Int) := by
    omega
  unfold parseCursor
  rw [if_neg (formatCursor_ne_nil id n), cutLast_formatCursor id hn]
  simp only [atoi_toDigits, inInt]
  by_cases hInt : n ≤ maxInt
  · rw [if_pos hInt, if_pos (by omega)]
    simp only [if_pos hPos, Int.toNat_natCast]
  · rw [if_neg hInt, if_neg (by omega)]

theorem parse_formatCursor
    (id : List Char)
    {n : Nat}
    (hn : 1 ≤ n)
    (hInt : n ≤ maxInt) :
    parseCursor (formatCursor id n) = (id, n) := by
  rw [parse_formatCursor_cases id hn, if_pos hInt]

theorem formatCursor_injective
    {id id' : List Char}
    {n n' : Nat}
    (hn : 1 ≤ n)
    (hn' : 1 ≤ n')
    (h : formatCursor id n = formatCursor id' n') :
    id = id' ∧ n = n' := by
  have hCut := cutLast_formatCursor id hn
  rw [h, cutLast_formatCursor id' hn'] at hCut
  rcases Prod.mk.inj (Option.some.inj hCut) with ⟨hID, hDigits⟩
  have hRead := digits_toDigits n
  rw [← hDigits, digits_toDigits] at hRead
  exact ⟨hID.symm, (Option.some.inj hRead).symm⟩

/- A hexadecimal number has no space. -/
theorem space_not_mem_hex (n : Nat) :
    ' ' ∉ Nat.toDigits 16 n := by
  have hDigit : ∀ d, d < 16 → ' ' ≠ Nat.digitChar d := by
    decide
  induction n using Nat.strong_induction_on with
  | _ n ih =>
      by_cases hLess : n < 16
      · rw [Nat.toDigits_of_lt_base hLess, List.mem_singleton]
        exact hDigit n hLess
      · rw [Nat.toDigits_of_base_le (by decide) (Nat.le_of_not_lt hLess),
          List.mem_append, List.mem_singleton, not_or]
        exact ⟨ih _ (by omega), hDigit _ (Nat.mod_lt _ (by decide))⟩

section ReadTimes

variable [TimeText]

theorem cursorTime_append
    {e : Entry}
    (h : e.timestamp ≠ 0)
    (rest : List Char) :
    cursorTime (TimeText.format e.timestamp ++ ' ' :: rest) =
      e.timestamp := by
  have hCut :=
    (takeWhile_space (TimeText.format_space e.timestamp) rest).1
  unfold cursorTime
  rw [if_neg (by simp), hCut, TimeText.parse_format _ h e.encodes]
  rfl

/- An identifier tells the time of its record. -/
theorem cursorTime_entryID
    {e : Entry}
    (h : e.timestamp ≠ 0) :
    cursorTime (entryID e) = e.timestamp := by
  unfold entryID
  rw [if_neg h]
  exact cursorTime_append h _

/- So does a cursor. -/
theorem cursorTime_formatCursor
    {e : Entry}
    (h : e.timestamp ≠ 0)
    (n : Nat) :
    cursorTime (formatCursor (entryID e) n) = e.timestamp := by
  unfold formatCursor entryID
  rw [if_neg h, List.append_assoc]
  exact cursorTime_append h _

/- A cursor, which has two spaces, is no identifier. -/
theorem entryID_ne_formatCursor
    (x e : Entry)
    (n : Nat) :
    entryID x ≠ formatCursor (entryID e) n := by
  have hOne : ∀ e : Entry, (entryID e).count ' ' = 1 := by
    intro e
    have hTime :
        (if e.timestamp = 0 then [] else
          TimeText.format e.timestamp).count ' ' = 0 := by
      rw [List.count_eq_zero]
      split
      · exact List.not_mem_nil
      · exact TimeText.format_space _
    unfold entryID
    rw [List.count_append, List.count_cons_self, hTime,
      List.count_eq_zero.mpr (space_not_mem_hex _)]
  intro hEq
  have hCount := congrArg (List.count ' ') hEq
  rw [formatCursor, List.count_append, List.count_cons_self, hOne,
    hOne] at hCount
  omega

end ReadTimes

------------------------------------------------------------
-- Decimal Times
------------------------------------------------------------

/- Times written as decimal numbers of nanoseconds. -/
@[reducible] def decimalTimes : TimeText where
  format t := Nat.toDigits 10 t
  parse := digits
  parse_format t _ _ := digits_toDigits t
  format_space t := not_mem_toDigits (by decide) t

end Journal

end Winunitd
