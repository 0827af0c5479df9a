import Mathlib.Data.List.Lex
import Mathlib.Data.Prod.Lex
import Mathlib.Data.String.Basic
import Mathlib.Data.Sum.Order
import Mathlib.Order.Compare
import Mathlib.Order.WithBot

/-
  Releases and their precedence.

  A release string is three numbers with an optional
  prerelease; build metadata is checked and ignored.  Releases
  are compared by a loop over the numbers and one over the
  prerelease identifiers.  `precedence` places them in a linear
  order, and the comparison is that order's.

  Key definitions include:
    * `Release`, `parseRelease`
    * `comparePrerelease`, `Release.compare`
    * `Release.precedence`

  Key theorems include:
    * `Release.compare_compares`
-/

------------------------------------------------------------
-- Release Strings
------------------------------------------------------------

namespace Winunitd

/- How messages print a string (`%q`). -/
class Quoting where
  quote : String → String

namespace Servicing

open Quoting (quote)

/- A parsed release string. -/
structure Release where
  major : Nat
  minor : Nat
  patch : Nat
  pre : List String
deriving DecidableEq, Repr

/- The text before and after the first separator, if any. -/
def cut (s : List Char) (sep : Char) :
    List Char × List Char × Bool :=
  (s.takeWhile (fun c => c ≠ sep),
    (s.dropWhile (fun c => c ≠ sep)).drop 1, s.contains sep)

def isDigit (c : Char) : Bool :=
  '0' ≤ c && c ≤ '9'

/- Digits, letters and the hyphen. -/
def alnumHyphen (c : Char) : Bool :=
  isDigit c || ('A' ≤ c && c ≤ 'Z') || ('a' ≤ c && c ≤ 'z') || c == '-'

/- The value of a string of decimal digits. -/
def decimal (s : List Char) : Nat :=
  s.foldl (fun n c => 10 * n + (c.toNat - '0'.toNat)) 0

/- A decimal of 64 bits without leading zeros. -/
def numericIdentifier (s : List Char) : Option Nat :=
  if s = [] ∨ 1 < s.length ∧ s.head? = some '0' ∨
      ¬ s.all isDigit then
    none
  else if decimal s < 2 ^ 64 then some (decimal s)
  else none

def validPrereleaseIdentifier (s : List Char) : Bool :=
  if s = [] ∨ ¬ s.all alnumHyphen then false
  else if s.all isDigit then (numericIdentifier s).isSome
  else true

/- Why a string is not a release. -/
inductive ReleaseError where
| shape
| numeric
| prerelease
| metadata
deriving DecidableEq, Repr

def ReleaseError.error [Quoting] (s : String) : ReleaseError → String
| .shape => "release " ++ quote s ++ " is not MAJOR.MINOR.PATCH"
| .numeric =>
    "release " ++ quote s ++ " has an invalid numeric field"
| .prerelease =>
    "release " ++ quote s ++ " has an invalid prerelease"
| .metadata =>
    "release " ++ quote s ++ " has invalid build metadata"

def parseRelease (s : String) : Except ReleaseError Release :=
  let core := (cut s.toList '+').1
  let (core, pre, hasPre) := cut core '-'
  match core.splitOn '.' with
  | [major, minor, patch] =>
      match numericIdentifier major, numericIdentifier minor,
        numericIdentifier patch with
      | some major, some minor, some patch =>
          let ids := if hasPre then pre.splitOn '.' else []
          let (_, metadata, hasMetadata) := cut s.toList '+'
          if ¬ ids.all validPrereleaseIdentifier then
            .error .prerelease
          else if hasMetadata = true ∧
              ¬ (metadata.splitOn '.').all
                (fun id => id ≠ [] && id.all alnumHyphen) then
            .error .metadata
          else
            .ok
              { major := major
                minor := minor
                patch := patch
                pre := ids.map String.ofList }
      | _, _, _ => .error .numeric
  | _ => .error .shape

------------------------------------------------------------
-- Comparison
------------------------------------------------------------

def comparePrerelease (a b : String) : Ordering :=
  match numericIdentifier a.toList, numericIdentifier b.toList with
  | some an, some bn =>
      if an < bn then .lt else if bn < an then .gt else .eq
  | some _, none => .lt
  | none, some _ => .gt
  | none, none => cmp a b

/- The first identifiers that differ, then the lengths. -/
def compareIdentifiers : List String → List String → Ordering
| [], [] => .eq
| [], _ :: _ => .lt
| _ :: _, [] => .gt
| a :: p, b :: q =>
    match comparePrerelease a b with
    | .eq => compareIdentifiers p q
    | c => c

/- The first numbers that differ. -/
def compareFields : List (Nat × Nat) → Ordering
| [] => .eq
| (a, b) :: rest =>
    if a ≠ b then if a < b then .lt else .gt
    else compareFields rest

/- A prerelease comes before its release. -/
def comparePre : List String → List String → Ordering
| [], [] => .eq
| [], _ :: _ => .gt
| _ :: _, [] => .lt
| p, q => compareIdentifiers p q

def Release.compare (r o : Release) : Ordering :=
  match
    compareFields
      [(r.major, o.major), (r.minor, o.minor), (r.patch, o.patch)]
  with
  | .eq => comparePre r.pre o.pre
  | c => c

------------------------------------------------------------
-- Precedence
------------------------------------------------------------

section Lexicographic

variable {α β : Type}
variable [LinearOrder α] [LinearOrder β]
variable {o o' : Ordering}

/- The second comparison counts if the first finds no difference. -/
theorem compares_pair
    {a a' : α}
    {b b' : β}
    (h : o.Compares a a')
    (h' : o'.Compares b b') :
    (match o with
      | .eq => o'
      | c => c).Compares (toLex (a, b)) (toLex (a', b')) := by
  cases o with
  | lt => exact Prod.Lex.left b b' h
  | gt => exact Prod.Lex.left b' b h
  | eq =>
      have hEq : a = a' := h
      subst hEq
      cases o' with
      | lt => exact Prod.Lex.right a h'
      | gt => exact Prod.Lex.right a h'
      | eq => exact congrArg (fun b => toLex (a, b)) h'

theorem compares_cons
    {a b : α}
    {p q : List α}
    (h : o.Compares a b)
    (h' : o'.Compares p q) :
    (match o with
      | .eq => o'
      | c => c).Compares (a :: p) (b :: q) := by
  cases o with
  | lt => exact List.Lex.rel h
  | gt => exact List.Lex.rel h
  | eq =>
      have hEq : a = b := h
      subst hEq
      cases o' with
      | lt => exact List.Lex.cons h'
      | gt => exact List.Lex.cons h'
      | eq => exact congrArg (a :: ·) h'

end Lexicographic

/- Numeric identifiers come first, the others by their text. -/
def identifier (s : String) : Lex (Nat ⊕ String) :=
  match numericIdentifier s.toList with
  | some n => toLex (.inl n)
  | none => toLex (.inr s)

/- A release without a prerelease comes after all with one. -/
def prerelease : List String → WithTop (List (Lex (Nat ⊕ String)))
| [] => ⊤
| ids => ((ids.map identifier : List (Lex (Nat ⊕ String))) : WithTop _)

namespace Release

/- The place of a release in the order of versions. -/
def precedence (r : Release) :
    Nat ×ₗ Nat ×ₗ Nat ×ₗ WithTop (List (Lex (Nat ⊕ String))) :=
  toLex
    (r.major, toLex (r.minor, toLex (r.patch, prerelease r.pre)))

end Release

theorem comparePrerelease_compares
    (a b : String) :
    (comparePrerelease a b).Compares (identifier a) (identifier b) := by
  unfold comparePrerelease identifier
  cases numericIdentifier a.toList with
  | some an =>
      cases numericIdentifier b.toList with
      | some bn =>
          dsimp only
          split
          · rename_i hLess
            exact Sum.Lex.inl hLess
          split
          · rename_i hMore
            exact Sum.Lex.inl hMore
          · have hEq : an = bn := by omega
            subst hEq
            rfl
      | none => exact Sum.Lex.sep an b
  | none =>
      cases numericIdentifier b.toList with
      | some bn => exact Sum.Lex.sep bn a
      | none =>
          dsimp only
          have hCmp := cmp_compares a b
          cases hCase : cmp a b with
          | lt | gt =>
              rw [hCase] at hCmp
              exact Sum.Lex.inr hCmp
          | eq =>
              rw [hCase] at hCmp
              exact congrArg (fun s => toLex (Sum.inr s)) hCmp

theorem compareIdentifiers_compares
    (p q : List String) :
    (compareIdentifiers p q).Compares (p.map identifier)
      (q.map identifier) := by
  induction p generalizing q with
  | nil =>
      cases q with
      | nil => rfl
      | cons b q => exact List.Lex.nil
  | cons a p ih =>
      cases q with
      | nil => exact List.Lex.nil
      | cons b q =>
          have hCons :=
            compares_cons (comparePrerelease_compares a b) (ih q)
          simp only [compareIdentifiers, List.map_cons]
          exact hCons

theorem comparePre_compares
    (p q : List String) :
    (comparePre p q).Compares (prerelease p) (prerelease q) := by
  cases p with
  | nil =>
      cases q with
      | nil => rfl
      | cons b q => exact WithTop.coe_lt_top _
  | cons a p =>
      cases q with
      | nil => exact WithTop.coe_lt_top _
      | cons b q =>
          have hIds := compareIdentifiers_compares (a :: p) (b :: q)
          simp only [comparePre, prerelease]
          cases hCase : compareIdentifiers (a :: p) (b :: q) with
          | lt | gt =>
              rw [hCase] at hIds
              exact WithTop.coe_lt_coe.mpr hIds
          | eq =>
              rw [hCase] at hIds
              exact congrArg WithTop.some hIds

/- One turn of the loop over the numbers. -/
theorem compareFields_cons
    (a b : Nat)
    (rest : List (Nat × Nat)) :
    compareFields ((a, b) :: rest) =
      match cmp a b with
      | .eq => compareFields rest
      | c => c := by
  rw [compareFields]
  rcases lt_trichotomy a b with hLess | hEq | hMore
  · rw [if_pos hLess.ne, if_pos hLess, (cmp_eq_lt_iff a b).mpr hLess]
  · rw [if_neg (not_not.mpr hEq), (cmp_eq_eq_iff a b).mpr hEq]
  · rw [if_pos hMore.ne', if_neg hMore.not_gt,
      (cmp_eq_gt_iff a b).mpr hMore]

namespace Release

/- The comparison of releases is that of their precedence. -/
theorem compare_compares
    (r o : Release) :
    (r.compare o).Compares r.precedence o.precedence := by
  have hAll :=
    compares_pair (cmp_compares r.major o.major)
      (compares_pair (cmp_compares r.minor o.minor)
        (compares_pair (cmp_compares r.patch o.patch)
          (comparePre_compares r.pre o.pre)))
  unfold compare precedence
  rw [compareFields_cons, compareFields_cons, compareFields_cons]
  revert hAll
  cases cmp r.major o.major <;> cases cmp r.minor o.minor <;>
    cases cmp r.patch o.patch <;> exact id

end Release

end Servicing

end Winunitd
