import Mathlib.Data.List.Sort
import Winunitd.Servicing.Release

/-
  The compatibility floor.

  A floor is the minimum build that may admit hosted work: a
  lowest release, features that the build must list, and a
  clean source tree.  A floor may be replaced without raising
  it by one that is within it, which is decided on the two
  records alone.

  Key definitions include:
    * `Floor`, `Floor.validate`
    * `Floor.within`
    * `Build`, `evaluate`, `admissionHold`
    * `Floor.Meets`

  Key theorems include:
    * `evaluate_satisfied_iff`
    * `Floor.within_iff`
    * `Floor.within_exact`
-/

------------------------------------------------------------
-- Floors
------------------------------------------------------------

namespace Winunitd

namespace Servicing

open Quoting (quote)

def floorSchema : Int := 1

def maxFloorFeatures : Nat := 64

def maxFeatureBytes : Nat := 64

/- The minimum build that may admit hosted work. -/
structure Floor where
  schema : Int
  minVersion : String
  requireFeatures : List String
  requireCleanBuild : Bool
deriving DecidableEq, Repr

def lowerAlnum (c : Char) : Bool :=
  ('a' ≤ c && c ≤ 'z') || isDigit c

/-
  The names of capability contracts: lower-case words of letters
  and digits joined by hyphens, the first with a letter in front.
-/
def featureName (s : String) : Bool :=
  let words := s.toList.splitOn '-'
  words.all (fun word => word ≠ [] && word.all lowerAlnum) &&
    (s.toList.head?.map (fun c => 'a' ≤ c && c ≤ 'z')).getD false

/- Features are contract names, none of them listed before. -/
def checkFeatures [Quoting] :
    List String → List String → Except String Unit
| _, [] => .ok ()
| seen, name :: rest =>
    if maxFeatureBytes < name.utf8ByteSize ∨
        featureName name = false then
      .error ("floor feature " ++ quote name ++
        " is not a contract name")
    else if name ∈ seen then
      .error ("floor repeats feature " ++ quote name)
    else checkFeatures (seen ++ [name]) rest

namespace Floor

/- A floor that is empty, malformed or of another schema. -/
def validate [Quoting] : Option Floor → Except String Unit
| none => .error "floor is missing"
| some f =>
    if f.schema ≠ floorSchema then
      .error ("floor schema " ++ toString f.schema ++
        " is not supported")
    else if f.minVersion = "" ∧ f.requireFeatures = [] ∧
        f.requireCleanBuild = false then
      .error "floor sets no requirement"
    else
      match
        if f.minVersion = "" then none
        else
          match parseRelease f.minVersion with
          | .error err => some (err.error f.minVersion)
          | .ok _ => none
      with
      | some text => .error text
      | none =>
          if maxFloorFeatures < f.requireFeatures.length then
            .error ("floor requires more than " ++
              toString maxFloorFeatures ++ " features")
          else checkFeatures [] f.requireFeatures

/- The floor requires nothing that the previous one did not. -/
def within (f : Floor) : Option Floor → Bool
| none => false
| some prev =>
    let version :=
      if f.minVersion = "" then true
      else if prev.minVersion = "" then false
      else
        match parseRelease f.minVersion,
          parseRelease prev.minVersion with
        | .ok min, .ok was => min.compare was ≠ .gt
        | _, _ => false
    if version = false then false
    else if f.requireFeatures.any
        (fun name => name ∉ prev.requireFeatures) then
      false
    else !f.requireCleanBuild || prev.requireCleanBuild

end Floor

------------------------------------------------------------
-- Builds
------------------------------------------------------------

/-
  What identifies a binary.  Without a list of features it
  reports none; an unknown source state is no state at all.
-/
structure Build where
  version : String
  commit : String
  modified : Option Bool
  features : Option (List String)
deriving DecidableEq, Repr

structure Verdict where
  satisfied : Bool
  reasons : List String
deriving DecidableEq, Repr

def versionReasons [Quoting] (f : Floor) (b : Build) : List String :=
  if f.minVersion = "" then []
  else
    match parseRelease f.minVersion, parseRelease b.version with
    | .error _, _ => ["floor version is invalid"]
    | .ok _, .error _ =>
        ["build version " ++ quote b.version ++
          " is not a release version"]
    | .ok min, .ok got =>
        if got.compare min = .lt then
          ["version " ++ b.version ++ " is below " ++ f.minVersion]
        else []

def featureReasons (f : Floor) (b : Build) : List String :=
  if f.requireFeatures = [] then []
  else
    let missing :=
      (f.requireFeatures.filter
        (fun name => name ∉ b.features.getD [])).mergeSort
        (fun x y => x ≤ y)
    match b.features with
    | none =>
        ["build reports no features; requires " ++
          ", ".intercalate missing]
    | some _ =>
        if missing ≠ [] then
          ["missing features " ++ ", ".intercalate missing]
        else []

def cleanReasons (f : Floor) (b : Build) : List String :=
  if f.requireCleanBuild = false then []
  else if b.commit = "" then ["build has no source revision"]
  else
    match b.modified with
    | none => ["build source state is unknown"]
    | some true => ["build is from a modified source tree"]
    | some false => []

/- Check a build; without a floor it is satisfied. -/
def evaluate [Quoting] (f : Option Floor) (b : Build) : Verdict :=
  match f with
  | none => { satisfied := true, reasons := [] }
  | some f =>
      let reasons :=
        versionReasons f b ++ featureReasons f b ++ cleanReasons f b
      { satisfied := reasons.isEmpty, reasons := reasons }

/-
  Why a build must not admit hosted work under the record that
  was read; the empty text opens admission.
-/
def admissionHold
    [Quoting]
    (record : Except String (Option Floor))
    (b : Build) : String :=
  match record with
  | .error err => "compatibility floor record is unusable: " ++ err
  | .ok f =>
      let v := evaluate f b
      if v.satisfied = true then ""
      else "below compatibility floor: " ++ "; ".intercalate v.reasons

------------------------------------------------------------
-- Requirements
------------------------------------------------------------

section Exactness

variable [Quoting]
variable {f prev : Floor}
variable {b : Build}

/- A release requirement and a build's version. -/
def AtLeast (min version : String) : Prop :=
  ∃ r o, parseRelease min = .ok r ∧ parseRelease version = .ok o ∧
    r.precedence ≤ o.precedence

omit [Quoting] in
theorem AtLeast.trans
    {a b c : String}
    (h : AtLeast a b)
    (h' : AtLeast b c) :
    AtLeast a c := by
  rcases h with ⟨r, o, hr, ho, hLe⟩
  rcases h' with ⟨o', t, ho', ht, hLe'⟩
  rw [ho] at ho'
  cases ho'
  exact ⟨r, t, hr, ht, hLe.trans hLe'⟩

namespace Floor

/- The build has everything that the floor requires. -/
structure Meets (f : Floor) (b : Build) : Prop where
  version : f.minVersion ≠ "" → AtLeast f.minVersion b.version
  features : ∀ name ∈ f.requireFeatures, name ∈ b.features.getD []
  clean :
    f.requireCleanBuild = true →
      b.commit ≠ "" ∧ b.modified = some false

end Floor

theorem versionReasons_eq_nil_iff :
    versionReasons f b = [] ↔
      (f.minVersion ≠ "" → AtLeast f.minVersion b.version) := by
  unfold versionReasons
  split
  · rename_i hNone
    simp [hNone]
  rename_i hSome
  simp only [ne_eq, hSome, not_false_eq_true, forall_const]
  unfold AtLeast
  cases hMin : parseRelease f.minVersion with
  | error err => simp
  | ok min =>
      cases hGot : parseRelease b.version with
      | error err => simp
      | ok got =>
          have hCompare := (got.compare_compares min).ne_lt
          dsimp only
          split
          · rename_i hBelow
            constructor
            · intro hFalse
              cases hFalse
            · rintro ⟨r, o, hr, ho, hLe⟩
              cases hr
              cases ho
              exact absurd hBelow (hCompare.mpr hLe)
          · rename_i hNot
            exact ⟨fun _ =>
              ⟨min, got, rfl, rfl, hCompare.mp hNot⟩, fun _ => rfl⟩

omit [Quoting] in
theorem featureReasons_eq_nil_iff :
    featureReasons f b = [] ↔
      ∀ name ∈ f.requireFeatures, name ∈ b.features.getD [] := by
  unfold featureReasons
  split
  · rename_i hNone
    simp [hNone]
  rename_i hSome
  have hMissing :
      (f.requireFeatures.filter
          (fun name => name ∉ b.features.getD [])).mergeSort
          (fun x y => x ≤ y) = [] ↔
        ∀ name ∈ f.requireFeatures, name ∈ b.features.getD [] := by
    rw [← List.length_eq_zero_iff, List.length_mergeSort,
      List.length_eq_zero_iff, List.filter_eq_nil_iff]
    simp
  dsimp only
  cases hFeatures : b.features with
  | none =>
      -- a required feature is missing from no features
      rw [hFeatures] at hMissing
      rcases List.exists_mem_of_ne_nil _ hSome with ⟨name, hMem⟩
      constructor
      · intro hFalse
        cases hFalse
      · intro hAll
        exact absurd (hAll name hMem) (by simp)
  | some features =>
      rw [hFeatures] at hMissing
      dsimp only
      split
      · rename_i hSomeMissing
        constructor
        · intro hFalse
          cases hFalse
        · intro hAll
          exact absurd (hMissing.mpr hAll) hSomeMissing
      · rename_i hNone
        exact ⟨fun _ => hMissing.mp (not_not.mp hNone), fun _ => rfl⟩

omit [Quoting] in
theorem cleanReasons_eq_nil_iff :
    cleanReasons f b = [] ↔
      (f.requireCleanBuild = true →
        b.commit ≠ "" ∧ b.modified = some false) := by
  unfold cleanReasons
  split
  · rename_i hNot
    simp [hNot]
  rename_i hClean
  rw [Bool.not_eq_false] at hClean
  simp only [hClean, forall_const]
  split
  · rename_i hNone
    simp [hNone]
  rename_i hCommit
  cases b.modified with
  | none => simp
  | some modified => cases modified <;> simp [hCommit]

/- A build is satisfied exactly if it meets the floor. -/
theorem evaluate_satisfied_iff :
    (evaluate (some f) b).satisfied = true ↔ f.Meets b := by
  simp only [evaluate, List.isEmpty_iff, List.append_eq_nil_iff,
    versionReasons_eq_nil_iff, featureReasons_eq_nil_iff,
    cleanReasons_eq_nil_iff]
  constructor
  · rintro ⟨⟨hVersion, hFeatures⟩, hClean⟩
    exact ⟨hVersion, hFeatures, hClean⟩
  · rintro ⟨hVersion, hFeatures, hClean⟩
    exact ⟨⟨hVersion, hFeatures⟩, hClean⟩

/- Admission opens exactly for the builds that are satisfied. -/
theorem admissionHold_eq_empty_iff
    {f : Option Floor} :
    admissionHold (.ok f) b = "" ↔
      (evaluate f b).satisfied = true := by
  unfold admissionHold
  dsimp only
  split
  · rename_i hSatisfied
    exact ⟨fun _ => hSatisfied, fun _ => rfl⟩
  · rename_i hNot
    constructor
    · intro hText
      have hLength := congrArg String.length hText
      simp [String.length_append] at hLength
    · exact fun hSatisfied => absurd hSatisfied hNot

------------------------------------------------------------
-- Lowering A Floor
------------------------------------------------------------

namespace Floor

/- A floor is within another one requirement by requirement. -/
omit [Quoting] in
theorem within_iff :
    f.within (some prev) = true ↔
      (f.minVersion ≠ "" →
          prev.minVersion ≠ "" ∧
            AtLeast f.minVersion prev.minVersion) ∧
        (∀ name ∈ f.requireFeatures, name ∈ prev.requireFeatures) ∧
        (f.requireCleanBuild = true →
          prev.requireCleanBuild = true) := by
  have hVersion :
      (if f.minVersion = "" then true
        else if prev.minVersion = "" then false
        else
          match parseRelease f.minVersion,
            parseRelease prev.minVersion with
          | .ok min, .ok was => decide (min.compare was ≠ .gt)
          | _, _ => false) = true ↔
        (f.minVersion ≠ "" →
          prev.minVersion ≠ "" ∧
            AtLeast f.minVersion prev.minVersion) := by
    split
    · rename_i hNone
      simp [hNone]
    rename_i hSome
    split
    · rename_i hPrev
      simp [hSome, hPrev]
    rename_i hPrev
    simp only [ne_eq, hSome, hPrev, not_false_eq_true, true_and,
      forall_const]
    unfold AtLeast
    cases hMin : parseRelease f.minVersion with
    | error err => simp
    | ok min =>
        cases hWas : parseRelease prev.minVersion with
        | error err => simp
        | ok was =>
            have hCompare := (min.compare_compares was).ne_gt
            simp only [decide_eq_true_eq]
            rw [← ne_eq, hCompare]
            constructor
            · exact fun hLe => ⟨min, was, rfl, rfl, hLe⟩
            · rintro ⟨r, o, hr, ho, hLe⟩
              cases hr
              cases ho
              exact hLe
  rw [← hVersion]
  unfold within
  dsimp only
  generalize (ite (f.minVersion = "") true _ : Bool) = version
  cases version with
  | false => simp
  | true =>
  simp only [Bool.true_eq_false, ↓reduceIte, true_and]
  split
  · rename_i hMore
    simp only [List.any_eq_true, decide_eq_true_eq] at hMore
    rcases hMore with ⟨name, hMem, hNot⟩
    simp only [Bool.false_eq_true, false_iff, not_and]
    exact fun hAll => absurd (hAll name hMem) hNot
  · rename_i hNone
    have hAll :
        ∀ name ∈ f.requireFeatures, name ∈ prev.requireFeatures := by
      intro name hMem
      by_contra hNot
      exact hNone (List.any_eq_true.mpr ⟨name, hMem, by simpa using hNot⟩)
    rw [and_iff_right hAll]
    cases f.requireCleanBuild <;> simp

/- The release of an accepted floor is one. -/
theorem parse_of_validate
    (h : validate (some f) = .ok ())
    (hSome : f.minVersion ≠ "") :
    ∃ r, parseRelease f.minVersion = .ok r := by
  simp only [validate, if_neg hSome] at h
  split at h
  · cases h
  split at h
  · cases h
  cases hParse : parseRelease f.minVersion with
  | ok r => exact ⟨r, rfl⟩
  | error err =>
      rw [hParse] at h
      cases h

theorem atLeast_self
    (h : validate (some f) = .ok ())
    (hSome : f.minVersion ≠ "") :
    AtLeast f.minVersion f.minVersion := by
  rcases parse_of_validate h hSome with ⟨r, hr⟩
  exact ⟨r, r, hr, hr, le_refl _⟩

theorem within_refl
    (h : validate (some f) = .ok ()) :
    f.within (some f) = true :=
  within_iff.mpr
    ⟨fun hSome => ⟨hSome, atLeast_self h hSome⟩, fun _ hMem => hMem, id⟩

omit [Quoting] in
theorem within_trans
    {g : Floor}
    (h : f.within (some prev) = true)
    (h' : prev.within (some g) = true) :
    f.within (some g) = true := by
  rw [within_iff] at h h' ⊢
  refine ⟨?_, ?_, fun hClean => h'.2.2 (h.2.2 hClean)⟩
  · intro hSome
    rcases h.1 hSome with ⟨hPrev, hLe⟩
    rcases h'.1 hPrev with ⟨hBase, hLe'⟩
    exact ⟨hBase, hLe.trans hLe'⟩
  · exact fun name hMem => h'.2.1 name (h.2.1 name hMem)

omit [Quoting] in
/- What is within a floor asks for less. -/
theorem Meets.lower
    (h : prev.Meets b)
    (hWithin : f.within (some prev) = true) :
    f.Meets b := by
  rw [within_iff] at hWithin
  refine ⟨?_, ?_, fun hClean => h.clean (hWithin.2.2 hClean)⟩
  · intro hSome
    rcases hWithin.1 hSome with ⟨hPrev, hLe⟩
    exact hLe.trans (h.version hPrev)
  · exact fun name hMem => h.features name (hWithin.2.1 name hMem)

omit [Quoting] in
/- The build that has what a floor requires and nothing more. -/
def least (prev : Floor) : Build where
  version := prev.minVersion
  commit := if prev.requireCleanBuild then "r" else ""
  modified := if prev.requireCleanBuild then some false else none
  features := some prev.requireFeatures

theorem meets_least
    (h : validate (some prev) = .ok ()) :
    prev.Meets prev.least where
  version := atLeast_self h
  features := fun _ hMem => hMem
  clean := by
    intro hClean
    simp [least, hClean]

omit [Quoting] in
/- The least build of a floor meets only what is within it. -/
theorem within_of_meets_least
    (h : f.Meets prev.least) :
    f.within (some prev) = true := by
  refine within_iff.mpr ⟨?_, h.features, ?_⟩
  · intro hSome
    have hLe : AtLeast f.minVersion prev.minVersion := h.version hSome
    refine ⟨?_, hLe⟩
    intro hNone
    rcases hLe with ⟨r, o, _, ho, _⟩
    rw [hNone] at ho
    cases ho
  · intro hClean
    by_contra hNot
    have hCommit := (h.clean hClean).1
    simp [least, hNot] at hCommit

/-
  Lowering a floor is exact: a floor is within another one if
  and only if every build that satisfies the other one
  satisfies it.  So it is within itself, within whatever a
  floor it is within is within, and it holds back no build
  that was admitted.
-/
theorem within_exact
    (hf : validate (some f) = .ok ())
    (hPrev : validate (some prev) = .ok ()) :
    (f.within (some prev) = true ↔
        ∀ b, (evaluate (some prev) b).satisfied = true →
          (evaluate (some f) b).satisfied = true) ∧
      f.within (some f) = true ∧
      (∀ g, validate (some g) = .ok () →
        f.within (some prev) = true → prev.within (some g) = true →
        f.within (some g) = true) ∧
      (f.within (some prev) = true →
        ∀ b, admissionHold (.ok (some prev)) b = "" →
          admissionHold (.ok (some f)) b = "") := by
  refine ⟨?_, within_refl hf, fun g _ => within_trans, ?_⟩
  · constructor
    · intro hWithin b hSatisfied
      rw [evaluate_satisfied_iff] at hSatisfied ⊢
      exact hSatisfied.lower hWithin
    · intro hAll
      apply within_of_meets_least
      rw [← evaluate_satisfied_iff]
      exact hAll _ (evaluate_satisfied_iff.mpr (meets_least hPrev))
  · intro hWithin b hOpen
    rw [admissionHold_eq_empty_iff, evaluate_satisfied_iff] at hOpen ⊢
    exact hOpen.lower hWithin

end Floor

end Exactness

section Records

local instance plainQuoting : Quoting := ⟨fun s => "\"" ++ s ++ "\""⟩

/- A beta with its lifecycle contract, from a clean tree. -/
def betaFloor : Floor where
  schema := 1
  minVersion := "0.2.0-beta.2"
  requireFeatures := ["lifecycle", "user-managers"]
  requireCleanBuild := true

/- Any release from the first beta on. -/
def firstBeta : Floor where
  schema := 1
  minVersion := "0.2.0-beta"
  requireFeatures := ["lifecycle"]
  requireCleanBuild := false

theorem Floor.within_exact_firstBeta :
    firstBeta.within (some betaFloor) = true ∧
      betaFloor.within (some firstBeta) = false ∧
      ((firstBeta.within (some betaFloor) = true ↔
          ∀ b, (evaluate (some betaFloor) b).satisfied = true →
            (evaluate (some firstBeta) b).satisfied = true) ∧
        firstBeta.within (some firstBeta) = true ∧
        (∀ g, validate (some g) = .ok () →
          firstBeta.within (some betaFloor) = true →
          betaFloor.within (some g) = true →
          firstBeta.within (some g) = true) ∧
        (firstBeta.within (some betaFloor) = true →
          ∀ b, admissionHold (.ok (some betaFloor)) b = "" →
            admissionHold (.ok (some firstBeta)) b = "")) :=
  ⟨by decide +kernel, by decide +kernel,
    Floor.within_exact rfl rfl⟩

end Records

end Servicing

end Winunitd
