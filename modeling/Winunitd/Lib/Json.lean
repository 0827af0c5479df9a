import Mathlib.Data.List.Basic
import Mathlib.Data.List.TakeWhile

/-
  Flat JSON objects.

  The members of an object are strings and integers.  They are
  written without white space, and in a string the characters
  that matter to HTML or to scripts are escaped as well.  The
  reader takes every escape but those of surrogates.

  Key definitions include:
    * `Json.Value`, `Json.Members`
    * `Json.write`
    * `Json.read`

  Key theorems include:
    * `Json.read_write`
-/

------------------------------------------------------------
-- Strings
------------------------------------------------------------

namespace Winunitd

namespace Lib

namespace Json

/- The letters of the short escapes. -/
def shortEscapes : List (Char × Char) :=
  [('"', '"'), ('\\', '\\'), ('b', '\x08'), ('f', '\x0c'),
    ('n', '\n'), ('r', '\r'), ('t', '\t')]

/- Characters that are written by their number. -/
def numbered (c : Char) : Bool :=
  c.toNat < 0x20 || c.toNat ∈ [0x26, 0x3c, 0x3e, 0x2028, 0x2029]

def hexDigits (n : Nat) : List Char :=
  [(n / 4096 % 16).digitChar, (n / 256 % 16).digitChar,
    (n / 16 % 16).digitChar, (n % 16).digitChar]

def escapeChar (c : Char) : List Char :=
  match shortEscapes.find? (·.2 = c) with
  | some (letter, _) => ['\\', letter]
  | none =>
      if numbered c then '\\' :: 'u' :: hexDigits c.toNat else [c]

def writeString (s : List Char) : List Char :=
  '"' :: (s.flatMap escapeChar ++ ['"'])

def hexValue (c : Char) : Option Nat :=
  (List.range 16).find? (·.digitChar = c.toLower)

/- The character with a number. -/
def numberedChar (a b c d : Char) : Option Char :=
  match hexValue a, hexValue b, hexValue c, hexValue d with
  | some a, some b, some c, some d =>
      let n := ((a * 16 + b) * 16 + c) * 16 + d
      if n.isValidChar then some (Char.ofNat n) else none
  | _, _, _, _ => none

/- The character of a short escape. -/
def shortChar (letter : Char) : Option Char :=
  if letter = '/' then some '/'
  else (shortEscapes.find? (·.1 = letter)).map (·.2)

/- The rest of a string and what comes after it. -/
def readBody : List Char → Option (List Char × List Char)
| '\\' :: 'u' :: a :: b :: c :: d :: cs =>
    (numberedChar a b c d).bind (fun e =>
      (readBody cs).map (fun p => (e :: p.1, p.2)))
| '\\' :: letter :: cs =>
    (shortChar letter).bind (fun e =>
      (readBody cs).map (fun p => (e :: p.1, p.2)))
| c :: cs =>
    if c = '"' then some ([], cs)
    else if c = '\\' ∨ c.toNat < 0x20 then none
    else (readBody cs).map (fun p => (c :: p.1, p.2))
| [] => none

theorem numberedChar_hexDigits
    {c : Char}
    (hc : c.toNat < 0x10000) :
    ∃ x y z w, hexDigits c.toNat = [x, y, z, w] ∧
      numberedChar x y z w = some c := by
  have hDigit : ∀ d < 16, hexValue d.digitChar = some d := by decide
  refine ⟨_, _, _, _, rfl, ?_⟩
  unfold numberedChar
  simp only [hDigit _ (Nat.mod_lt _ (by decide : 0 < 16))]
  have hNat :
      ((c.toNat / 4096 % 16 * 16 + c.toNat / 256 % 16) * 16 +
          c.toNat / 16 % 16) * 16 + c.toNat % 16 = c.toNat := by
    omega
  have hValid : c.toNat.isValidChar := c.valid
  rw [hNat, if_pos hValid, Char.ofNat_toNat]

theorem readBody_escapeChar
    (c : Char)
    (cs : List Char) :
    readBody (escapeChar c ++ cs) =
      (readBody cs).map (fun p => (c :: p.1, p.2)) := by
  unfold escapeChar
  split
  · rename_i letter e hFind
    have he : e = c := by simpa using List.find?_some hFind
    have hMem := List.mem_of_find?_eq_some hFind
    subst he
    simp only [shortEscapes, List.mem_cons, Prod.mk.injEq,
      List.not_mem_nil, or_false] at hMem
    rcases hMem with ⟨rfl, rfl⟩ | ⟨rfl, rfl⟩ | ⟨rfl, rfl⟩ | ⟨rfl, rfl⟩ |
      ⟨rfl, rfl⟩ | ⟨rfl, rfl⟩ | ⟨rfl, rfl⟩
    all_goals rfl
  · rename_i hFind
    split
    · rename_i hNumbered
      have hc : c.toNat < 0x10000 := by
        simp only [numbered, Bool.or_eq_true, decide_eq_true_eq,
          List.mem_cons, List.not_mem_nil, or_false] at hNumbered
        omega
      obtain ⟨x, y, z, w, hHex, hChar⟩ := numberedChar_hexDigits hc
      rw [hHex]
      simp only [List.cons_append, List.nil_append, readBody, hChar,
        Option.bind_some]
    · rename_i hPlain
      have hOther : c ≠ '"' ∧ c ≠ '\\' := by
        constructor <;> rintro rfl <;> simp [shortEscapes] at hFind
      have hHigh : ¬c.toNat < 0x20 := by
        intro hLow
        simp [numbered, hLow] at hPlain
      rw [List.singleton_append, readBody]
      · rw [if_neg hOther.1, if_neg (by simp [hOther.2, hHigh])]
      · rintro _ _ _ _ _ hEq
        exact absurd hEq hOther.2
      · rintro _ _ hEq
        exact absurd hEq hOther.2

theorem readBody_flatMap
    (s cs : List Char) :
    readBody (s.flatMap escapeChar ++ '"' :: cs) = some (s, cs) := by
  induction s with
  | nil => rfl
  | cons c s ih =>
      rw [List.flatMap_cons, List.append_assoc, readBody_escapeChar, ih]
      rfl

------------------------------------------------------------
-- Integers
------------------------------------------------------------

def writeInt : Int → List Char
| .ofNat n => Nat.toDigits 10 n
| .negSucc n => '-' :: Nat.toDigits 10 (n + 1)

def readNat (cs : List Char) : Option (Nat × List Char) :=
  if cs.takeWhile Char.isDigit = [] then none
  else
    some
      (Nat.ofDigitChars 10 (cs.takeWhile Char.isDigit) 0,
        cs.dropWhile Char.isDigit)

def readInt (cs : List Char) : Option (Int × List Char) :=
  if cs.head? = some '-' then
    (readNat cs.tail).map (fun p => (-(p.1 : Int), p.2))
  else
    (readNat cs).map (fun p => ((p.1 : Int), p.2))

/- No more digits. -/
def Ends (cs : List Char) : Prop :=
  ∀ c ∈ cs.head?, c.isDigit = false

variable {cs : List Char}

theorem readNat_toDigits
    (n : Nat)
    (h : Ends cs) :
    readNat (Nat.toDigits 10 n ++ cs) = some (n, cs) := by
  have hDigits : ∀ c ∈ Nat.toDigits 10 n, c.isDigit = true :=
    fun c hc =>
      Nat.isDigit_of_mem_toDigits (by decide) (by decide) hc
  have hTake : cs.takeWhile Char.isDigit = [] := by
    cases cs with
    | nil => rfl
    | cons c cs => simp [h c rfl]
  have hDrop : cs.dropWhile Char.isDigit = cs := by
    cases cs with
    | nil => rfl
    | cons c cs => simp [h c rfl]
  unfold readNat
  rw [List.takeWhile_append_of_pos hDigits,
    List.dropWhile_append_of_pos hDigits, hTake, hDrop,
    List.append_nil, if_neg Nat.toDigits_ne_nil,
    Nat.ofDigitChars_toDigits (by decide) (by decide)]

theorem head?_toDigits
    {c : Char}
    (hc : c.isDigit = false)
    (n : Nat)
    (cs : List Char) :
    (Nat.toDigits 10 n ++ cs).head? ≠ some c := by
  rw [List.head?_append_of_ne_nil _ Nat.toDigits_ne_nil]
  intro hEq
  have hDigit := Nat.isDigit_of_mem_toDigits (by decide) (by decide)
    (List.mem_of_mem_head? hEq)
  rw [hc] at hDigit
  cases hDigit

theorem readInt_writeInt
    (n : Int)
    (h : Ends cs) :
    readInt (writeInt n ++ cs) = some (n, cs) := by
  cases n with
  | negSucc n =>
      show (readNat (Nat.toDigits 10 (n + 1) ++ cs)).map _ = _
      rw [readNat_toDigits _ h]
      rfl
  | ofNat n =>
      show readInt (Nat.toDigits 10 n ++ cs) = _
      rw [readInt, if_neg (head?_toDigits rfl n cs),
        readNat_toDigits _ h]
      rfl

------------------------------------------------------------
-- Objects
------------------------------------------------------------

inductive Value where
| str (s : List Char)
| num (n : Int)
deriving DecidableEq, Repr

abbrev Members := List (List Char × Value)

def writeValue : Value → List Char
| .str s => writeString s
| .num n => writeInt n

def writeMember (m : List Char × Value) : List Char :=
  writeString m.1 ++ ':' :: writeValue m.2

/- The members after the first. -/
def writeRest : Members → List Char
| [] => ['\x7d']
| m :: ms => ',' :: (writeMember m ++ writeRest ms)

def write : Members → List Char
| [] => ['\x7b', '\x7d']
| m :: ms => '\x7b' :: (writeMember m ++ writeRest ms)

def readValue (cs : List Char) : Option (Value × List Char) :=
  if cs.head? = some '"' then
    (readBody cs.tail).map (fun p => (.str p.1, p.2))
  else
    (readInt cs).map (fun p => (.num p.1, p.2))

def readMember
    (cs : List Char) : Option ((List Char × Value) × List Char) :=
  if cs.head? = some '"' then
    (readBody cs.tail).bind (fun p =>
      if p.2.head? = some ':' then
        (readValue p.2.tail).map (fun q => ((p.1, q.1), q.2))
      else none)
  else none

/- At most `n` more members. -/
def readRest : Nat → List Char → Option Members
| 0, cs => if cs = ['\x7d'] then some [] else none
| n + 1, cs =>
    if cs = ['\x7d'] then some []
    else if cs.head? = some ',' then
      (readMember cs.tail).bind (fun p =>
        (readRest n p.2).map (p.1 :: ·))
    else none

/- The members of an object with nothing after it. -/
def read (cs : List Char) : Option Members :=
  if cs = ['\x7b', '\x7d'] then some []
  else if cs.head? = some '\x7b' then
    (readMember cs.tail).bind (fun p =>
      (readRest p.2.length p.2).map (p.1 :: ·))
  else none

theorem readValue_writeValue
    (v : Value)
    (h : Ends cs) :
    readValue (writeValue v ++ cs) = some (v, cs) := by
  cases v with
  | str s =>
      show (readBody ((s.flatMap escapeChar ++ ['"']) ++ cs)).map _ = _
      rw [List.append_assoc, List.singleton_append, readBody_flatMap]
      rfl
  | num n =>
      have hHead : (writeInt n ++ cs).head? ≠ some '"' := by
        cases n with
        | negSucc n => simp [writeInt]
        | ofNat n => exact head?_toDigits rfl n cs
      show readValue (writeInt n ++ cs) = _
      rw [readValue, if_neg hHead, readInt_writeInt n h]
      rfl

theorem readMember_writeMember
    (m : List Char × Value)
    (h : Ends cs) :
    readMember (writeMember m ++ cs) = some (m, cs) := by
  have hBody :
      (writeMember m ++ cs).tail =
        m.1.flatMap escapeChar ++
          '"' :: ':' :: (writeValue m.2 ++ cs) := by
    simp [writeMember, writeString]
  have hHead : (writeMember m ++ cs).head? = some '"' := rfl
  rw [readMember, if_pos hHead, hBody, readBody_flatMap,
    Option.bind_some]
  show (readValue (writeValue m.2 ++ cs)).map _ = _
  rw [readValue_writeValue m.2 h]
  rfl

theorem ends_writeRest (ms : Members) :
    Ends (writeRest ms) := by
  cases ms with
  | nil => rintro c ⟨⟩; rfl
  | cons m ms => rintro c ⟨⟩; rfl

theorem readRest_writeRest
    {n : Nat}
    (ms : Members)
    (h : ms.length ≤ n) :
    readRest n (writeRest ms) = some ms := by
  induction ms generalizing n with
  | nil => cases n <;> rfl
  | cons m ms ih =>
      obtain ⟨k, rfl⟩ : ∃ k, n = k + 1 :=
        ⟨n - 1, by simp only [List.length_cons] at h; omega⟩
      have hMore : (writeRest (m :: ms)).head? = some ',' := rfl
      rw [readRest, if_neg (by simp [writeRest]), if_pos hMore]
      show (readMember (writeMember m ++ writeRest ms)).bind _ = _
      rw [readMember_writeMember m (ends_writeRest ms),
        Option.bind_some, ih (Nat.le_of_succ_le_succ h)]
      rfl

theorem length_le_writeRest (ms : Members) :
    ms.length ≤ (writeRest ms).length := by
  induction ms with
  | nil => exact Nat.zero_le _
  | cons m ms ih =>
      simp only [writeRest, List.length_cons, List.length_append]
      omega

/- What is written is read back. -/
theorem read_write (ms : Members) :
    read (write ms) = some ms := by
  cases ms with
  | nil => rfl
  | cons m ms =>
      have hLong : write (m :: ms) ≠ ['\x7b', '\x7d'] := by
        simp [write, writeMember, writeString]
      have hOpen : (write (m :: ms)).head? = some '\x7b' := rfl
      rw [read, if_neg hLong, if_pos hOpen]
      show (readMember (writeMember m ++ writeRest ms)).bind _ = _
      rw [readMember_writeMember m (ends_writeRest ms),
        Option.bind_some,
        readRest_writeRest ms (length_le_writeRest ms)]
      rfl

end Json

end Lib

end Winunitd
