import Mathlib.Data.String.Basic
import Mathlib.Data.List.Basic
import Mathlib.Data.List.Infix

/-
  Unit names.

  A unit name is stored in a normal form: surrounding white
  space is trimmed, letters are lowered, and a name without
  a known suffix is a service.  The rest of the development
  uses names through the class `UnitNames`, which keeps what
  the planner and the manager rely on: a linear order (names
  are sorted before they are walked), the empty name, which
  comes first in it, and an idempotent `normalizeName`.  The
  letter-case table of the host is a parameter.

  Key definitions include:
    * `UnitNames`
    * `LetterCase`
    * `kindFromName`
    * `normalizeName`
    * `stringNames`

  Key theorems include:
    * `trimmed_trimSpace`
    * `normalizeName_idem`
-/

------------------------------------------------------------
-- Name Carriers
------------------------------------------------------------

namespace Winunitd

/-
  Carriers of unit names.  `text` and `quote` are how error
  messages print a name (`%s` and `%q`).
-/
class UnitNames (N : Type) extends LinearOrder N where
  empty : N
  normalizeName : N → N
  text : N → String
  quote : N → String
  empty_le : ∀ n, empty ≤ n
  normalizeName_empty : normalizeName empty = empty
  normalizeName_idem :
    ∀ n, normalizeName (normalizeName n) = normalizeName n

instance UnitNames.lawfulBEq {N : Type} [UnitNames N] : LawfulBEq N :=
  instLawfulBEq

/- The unit type implied by the file suffix. -/
inductive Kind where
| service
| timer
| target
| registry
| eventLog
| path
deriving DecidableEq, Repr

------------------------------------------------------------
-- White Space And Letter Case
------------------------------------------------------------

namespace Name

/- White space as the host's Unicode tables have it. -/
def isSpace (c : Char) : Bool :=
  c.toNat ∈
    [0x09, 0x0a, 0x0b, 0x0c, 0x0d, 0x20, 0x85, 0xa0, 0x1680,
      0x2028, 0x2029, 0x202f, 0x205f, 0x3000] ||
    (0x2000 ≤ c.toNat && c.toNat ≤ 0x200a)

/-
  A lower-case mapping.  It is idempotent, it neither makes
  nor removes white space, and it leaves the suffix letters
  alone.
-/
class LetterCase where
  toLower : Char → Char
  toLower_idem : ∀ c, toLower (toLower c) = toLower c
  isSpace_toLower : ∀ c, isSpace (toLower c) = isSpace c
  toLower_suffix : ∀ c ∈ ".service".toList, toLower c = c

/- Remove white space at both ends. -/
def trimSpace (s : List Char) : List Char :=
  ((s.dropWhile isSpace).reverse.dropWhile isSpace).reverse

/- A list is trimmed if neither end is white space. -/
def Trimmed (s : List Char) : Prop :=
  s.dropWhile isSpace = s ∧
    s.reverse.dropWhile isSpace = s.reverse

variable {s : List Char}

/- A trimmed list is left alone. -/
theorem trimSpace_of_trimmed
    (h : Trimmed s) :
    trimSpace s = s := by
  rcases h with ⟨hFront, hBack⟩
  rw [trimSpace, hFront, hBack, List.reverse_reverse]

variable {p : Char → Bool}

/- Dropping a prefix keeps the last character. -/
private theorem dropWhile_getLast?
    (h : s.dropWhile p ≠ []) :
    (s.dropWhile p).getLast? = s.getLast? := by
  have hSuffix := List.dropWhile_suffix (l := s) p
  rcases hSuffix with ⟨t, ht⟩
  conv_rhs => rw [← ht]
  rw [List.getLast?_append_of_ne_nil _ h]

/- A list whose head fails the test is not shortened. -/
private theorem dropWhile_eq_self
    (h : ∀ c, s.head? = some c → p c = false) :
    s.dropWhile p = s := by
  cases s with
  | nil => rfl
  | cons c s =>
      rw [List.dropWhile_cons_of_neg]
      simp [h c rfl]

/- After dropping, the head fails the test. -/
private theorem head?_dropWhile
    {c : Char}
    (h : (s.dropWhile p).head? = some c) :
    p c = false := by
  have hNe : s.dropWhile p ≠ [] := by
    intro hNil
    rw [hNil] at h
    cases h
  have hHead := List.head_dropWhile_not p hNe
  rw [List.head?_eq_some_head hNe] at h
  cases h
  exact hHead

/- Trimming yields a trimmed list. -/
theorem trimmed_trimSpace
    (s : List Char) :
    Trimmed (trimSpace s) := by
  constructor
  · apply dropWhile_eq_self
    intro c hc
    rw [trimSpace, List.head?_reverse] at hc
    have hNe :
        (s.dropWhile isSpace).reverse.dropWhile isSpace ≠ [] := by
      intro hNil
      rw [hNil] at hc
      cases hc
    rw [dropWhile_getLast? hNe, List.getLast?_reverse] at hc
    exact head?_dropWhile hc
  · apply dropWhile_eq_self
    intro c hc
    rw [trimSpace, List.reverse_reverse] at hc
    exact head?_dropWhile hc

------------------------------------------------------------
-- Normal Forms
------------------------------------------------------------

variable [LetterCase]

/- Lower every character. -/
def lower (s : List Char) : List Char :=
  s.map LetterCase.toLower

/- The kind implied by a name, none for an unknown suffix. -/
def kindFromName (name : List Char) : Option Kind :=
  let n := lower name
  if ".service".toList.isSuffixOf n then some .service
  else if ".timer".toList.isSuffixOf n then some .timer
  else if ".target".toList.isSuffixOf n then some .target
  else if ".registry".toList.isSuffixOf n then some .registry
  else if ".eventlog".toList.isSuffixOf n then some .eventLog
  else if ".path".toList.isSuffixOf n then some .path
  else none

/- The stored form of a unit name. -/
def normalizeName (name : List Char) : List Char :=
  let name := lower (trimSpace name)
  if name = [] then []
  else if (kindFromName name).isSome then name
  else name ++ ".service".toList

@[simp] theorem lower_idem
    (s : List Char) :
    lower (lower s) = lower s := by
  simp [lower, LetterCase.toLower_idem]

@[simp] theorem lower_service :
    lower ".service".toList = ".service".toList := by
  have h : ∀ c ∈ ".service".toList,
      LetterCase.toLower c = id c :=
    LetterCase.toLower_suffix
  rw [lower, List.map_congr_left h, List.map_id]

/- Lowering neither adds nor removes an end to trim. -/
theorem dropWhile_lower
    (s : List Char) :
    (lower s).dropWhile isSpace =
      lower (s.dropWhile isSpace) := by
  have h : isSpace ∘ LetterCase.toLower = isSpace := by
    funext c
    exact LetterCase.isSpace_toLower c
  rw [lower, List.dropWhile_map, h, lower]

theorem trimmed_lower
    (h : Trimmed s) :
    Trimmed (lower s) := by
  rcases h with ⟨hFront, hBack⟩
  constructor
  · rw [dropWhile_lower, hFront]
  · have hRev : (lower s).reverse = lower s.reverse := by
      simp [lower]
    rw [hRev, dropWhile_lower, hBack]

/- A trimmed name stays trimmed under the default suffix. -/
omit [LetterCase] in
theorem trimmed_append_service
    (h : Trimmed s)
    (hNe : s ≠ []) :
    Trimmed (s ++ ".service".toList) := by
  constructor
  · apply dropWhile_eq_self
    intro c hc
    rw [List.head?_append_of_ne_nil _ hNe] at hc
    rw [← h.1] at hc
    exact head?_dropWhile hc
  · apply dropWhile_eq_self
    intro c hc
    have hLast : c = 'e' := by
      simpa using hc.symm
    subst hLast
    decide

/- A name in normal form is its own normal form. -/
private theorem normalizeName_fixed
    (hTrim : Trimmed s)
    (hLower : lower s = s)
    (hNe : s ≠ [])
    (hKind : (kindFromName s).isSome) :
    normalizeName s = s := by
  simp only [normalizeName]
  rw [trimSpace_of_trimmed hTrim, hLower, if_neg hNe,
    if_pos hKind]

theorem normalizeName_idem
    (s : List Char) :
    normalizeName (normalizeName s) = normalizeName s := by
  have hTrim : Trimmed (lower (trimSpace s)) :=
    trimmed_lower (trimmed_trimSpace s)
  by_cases hNil : lower (trimSpace s) = []
  · have hEmpty : normalizeName s = [] := by
      simp [normalizeName, hNil]
    rw [hEmpty]
    rfl
  by_cases hKind : (kindFromName (lower (trimSpace s))).isSome
  · have hSelf : normalizeName s = lower (trimSpace s) := by
      simp [normalizeName, hNil, hKind]
    rw [hSelf]
    exact normalizeName_fixed hTrim (lower_idem _) hNil hKind
  · have hSuffix :
        normalizeName s =
          lower (trimSpace s) ++ ".service".toList := by
      simp [normalizeName, hNil, hKind]
    have hLower :
        lower (lower (trimSpace s) ++ ".service".toList) =
          lower (trimSpace s) ++ ".service".toList := by
      have hParts :
          lower (lower (trimSpace s) ++ ".service".toList) =
            lower (lower (trimSpace s)) ++
              lower ".service".toList :=
        List.map_append
      rw [hParts, lower_idem, lower_service]
    rw [hSuffix]
    apply normalizeName_fixed
      (trimmed_append_service hTrim hNil) hLower
    · simp
    · rw [kindFromName, hLower, if_pos]
      · rfl
      · rw [List.isSuffixOf_iff_suffix]
        exact List.suffix_append _ _

end Name

------------------------------------------------------------
-- Strings As Names
------------------------------------------------------------

/-
  Strings are unit names, for any letter-case table and any
  quoting of names in messages.  Go sorts strings by bytes,
  which for UTF-8 is the order of their code points.
-/
@[reducible] def stringNames
    [Name.LetterCase]
    (quote : String → String) :
    UnitNames String where
  toLinearOrder := inferInstance
  empty := ""
  normalizeName s :=
    String.ofList (Name.normalizeName s.toList)
  text s := s
  quote := quote
  empty_le s := by
    rw [String.le_iff_toList_le]
    exact not_lt.mp (List.not_lt_nil s.toList)
  normalizeName_empty := rfl
  normalizeName_idem s := by
    simp [Name.normalizeName_idem]

namespace Name

/-
  Outside the capitals a character is its own lower case; a
  capital moves up by 32.
-/
private theorem toLower_cases
    (c : Char) :
    c.toLower = c ∨
      65 ≤ c.toNat ∧ c.toNat ≤ 90 ∧
        c.toLower.toNat = c.toNat + 32 := by
  delta Char.toLower
  split
  · rename_i h
    right
    have hLow : 65 ≤ c.toNat := UInt32.le_iff_toNat_le.mp h.1
    have hHigh : c.toNat ≤ 90 := UInt32.le_iff_toNat_le.mp h.2
    refine ⟨hLow, hHigh, ?_⟩
    have hVal : (c.val + 32).toNat = c.val.toNat + 32 := by
      rw [UInt32.toNat_add]
      have hNat : c.val.toNat = c.toNat := rfl
      have h32 : (32 : UInt32).toNat = 32 := rfl
      omega
    exact hVal
  · left
    rfl

/- No ASCII letter is white space. -/
private theorem isSpace_letter
    {c : Char}
    (hLow : 65 ≤ c.toNat)
    (hHigh : c.toNat ≤ 122) :
    isSpace c = false := by
  simp [isSpace]
  omega

/- The letter-case table of names within ASCII. -/
@[reducible] def asciiCase : LetterCase where
  toLower := Char.toLower
  toLower_idem c := by
    rcases toLower_cases c with h | ⟨_, _, h⟩
    · exact congrArg _ h
    · rcases toLower_cases c.toLower with h' | ⟨_, hHigh, _⟩
      · exact h'
      · omega
  isSpace_toLower c := by
    rcases toLower_cases c with h | ⟨hLow, hHigh, h⟩
    · rw [h]
    · rw [isSpace_letter hLow (by omega),
        isSpace_letter (by omega) (by omega)]
  toLower_suffix := by
    have hAll :
        ".service".toList.all (fun c => Char.toLower c = c) = true := by
      decide
    exact fun c hc => of_decide_eq_true (List.all_eq_true.mp hAll c hc)

end Name

/- Strings with ASCII letters, quoted plainly. -/
@[reducible] def asciiNames : UnitNames String :=
  @stringNames Name.asciiCase (fun s => "\"" ++ s ++ "\"")

end Winunitd
