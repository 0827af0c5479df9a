import Winunitd.Servicing.Release

/-
  Release strings and Semantic Versioning.

  `SemVer` follows the grammar of Semantic Versioning 2.0, with
  the identifiers as text; `SemVer.precedence` is its order,
  which does not look at the build metadata.  The parser takes
  the strings of those versions whose numbers fit in 64 bits.

  Key definitions include:
    * `Number`, `Identifier`
    * `SemVer`, `SemVer.text`, `SemVer.Fits`
    * `SemVer.precedence`

  Key theorems include:
    * `parseRelease_eq_ok`
    * `releases_follow_semVer`
-/

------------------------------------------------------------
-- The Grammar
------------------------------------------------------------

namespace Winunitd

namespace Servicing

/- Digits, without a leading zero. -/
def Number (s : List Char) : Prop :=
  s ≠ [] ∧ ¬ (1 < s.length ∧ s.head? = some '0') ∧
    s.all isDigit = true

/- Digits, letters and hyphens. -/
def Identifier (s : List Char) : Prop :=
  s ≠ [] ∧ s.all alnumHyphen = true

/- No prerelease and no build metadata are empty lists. -/
structure SemVer where
  major : List Char
  minor : List Char
  patch : List Char
  pre : List (List Char)
  build : List (List Char)
  numbers : ∀ s ∈ [major, minor, patch], Number s
  preIds :
    ∀ id ∈ pre, Identifier id ∧ (id.all isDigit = true → Number id)
  buildIds : ∀ id ∈ build, Identifier id

def dotted (ids : List (List Char)) : List Char :=
  ['.'].intercalate ids

/- Identifiers after their sign, if there are any. -/
def tail (sep : Char) : List (List Char) → List Char
| [] => []
| ids => sep :: dotted ids

namespace SemVer

def core (v : SemVer) : List Char :=
  dotted [v.major, v.minor, v.patch]

def text (v : SemVer) : List Char :=
  (v.core ++ tail '-' v.pre) ++ tail '+' v.build

def Fits (v : SemVer) : Prop :=
  (∀ s ∈ [v.major, v.minor, v.patch], decimal s < 2 ^ 64) ∧
    ∀ id ∈ v.pre, id.all isDigit = true → decimal id < 2 ^ 64

/- Numbers come before the others, which go by their text. -/
def rank (id : List Char) : Lex (Nat ⊕ String) :=
  if id.all isDigit then toLex (.inl (decimal id))
  else toLex (.inr (String.ofList id))

/- A version without a prerelease comes after all with one. -/
def precedence (v : SemVer) :
    Nat ×ₗ Nat ×ₗ Nat ×ₗ WithTop (List (Lex (Nat ⊕ String))) :=
  toLex (decimal v.major, toLex (decimal v.minor,
    toLex (decimal v.patch,
      match v.pre with
      | [] => ⊤
      | ids => ((ids.map rank : List _) : WithTop _))))

/- What the parser keeps of a version. -/
def release (v : SemVer) : Release where
  major := decimal v.major
  minor := decimal v.minor
  patch := decimal v.patch
  pre := v.pre.map String.ofList

end SemVer

------------------------------------------------------------
-- Identifiers
------------------------------------------------------------

variable {s : List Char}

theorem numericIdentifier_eq_some
    {n : Nat} :
    numericIdentifier s = some n ↔
      Number s ∧ decimal s < 2 ^ 64 ∧ decimal s = n := by
  have hNumber :
      (s = [] ∨ 1 < s.length ∧ s.head? = some '0' ∨
        ¬ s.all isDigit) ↔ ¬ Number s := by
    unfold Number
    tauto
  unfold numericIdentifier
  by_cases hs : Number s
  · rw [if_neg (mt hNumber.mp (not_not.mpr hs))]
    by_cases hFits : decimal s < 2 ^ 64
    · rw [if_pos hFits, Option.some.injEq]
      exact ⟨fun hEq => ⟨hs, hFits, hEq⟩, fun h => h.2.2⟩
    · rw [if_neg hFits]
      exact iff_of_false nofun (fun h => hFits h.2.1)
  · rw [if_pos (hNumber.mpr hs)]
    exact iff_of_false nofun (fun h => hs h.1)

theorem validPrereleaseIdentifier_iff :
    validPrereleaseIdentifier s = true ↔
      Identifier s ∧
        (s.all isDigit = true → Number s ∧ decimal s < 2 ^ 64) := by
  have hNumeric : (numericIdentifier s).isSome = true ↔
      Number s ∧ decimal s < 2 ^ 64 := by
    simp [Option.isSome_iff_exists, numericIdentifier_eq_some]
  rw [← hNumeric]
  unfold validPrereleaseIdentifier Identifier
  grind

/- A sign is in no text that is made of other characters. -/
theorem not_mem_of_all
    {p : Char → Bool}
    {c : Char}
    (h : s.all p = true)
    (hc : p c = false) :
    c ∉ s := by
  intro hMem
  have hYes := List.all_eq_true.mp h c hMem
  rw [hc] at hYes
  cases hYes

------------------------------------------------------------
-- Strings
------------------------------------------------------------

variable {ids : List (List Char)}
variable {sep : Char}

theorem not_mem_dotted
    (hSep : sep ≠ '.')
    (h : ∀ id ∈ ids, sep ∉ id) :
    sep ∉ dotted ids := by
  induction ids with
  | nil => simp [dotted]
  | cons id ids ih =>
    cases ids with
    | nil => simpa [dotted] using h
    | cons next ids =>
      rw [dotted, List.intercalate_cons_cons]
      simp_all [dotted]

theorem cut_cons (c : Char) (s : List Char) (sep : Char) :
    cut (c :: s) sep =
      if c = sep then ([], s, true)
      else (c :: (cut s sep).1, (cut s sep).2) := by
  by_cases hIs : c = sep
  · simp [cut, hIs]
  · simp [cut, hIs, Ne.symm hIs]

theorem cut_tail
    (hSep : sep ∉ s) :
    cut (s ++ tail sep ids) sep = (s, dotted ids, !ids.isEmpty) := by
  induction s with
  | nil =>
    cases ids with
    | nil => rfl
    | cons id ids => exact (cut_cons ..).trans (if_pos rfl)
  | cons c s ih =>
    rw [List.mem_cons, not_or] at hSep
    rw [List.cons_append, cut_cons, if_neg (Ne.symm hSep.1), ih hSep.2]

/- The identifiers after a sign, as the parser finds them. -/
def found (rest : List Char × Bool) : List (List Char) :=
  if rest.2 then rest.1.splitOn '.' else []

theorem found_dotted
    (h : ∀ id ∈ ids, Identifier id) :
    found (dotted ids, !ids.isEmpty) = ids := by
  cases ids with
  | nil => rfl
  | cons id ids =>
    exact List.splitOn_intercalate '.'
      (fun id hId => not_mem_of_all (h id hId).2 rfl) nofun

theorem cut_text (s : List Char) (sep : Char) :
    s = (cut s sep).1 ++ tail sep (found (cut s sep).2) := by
  induction s with
  | nil => rfl
  | cons c s ih =>
    rw [cut_cons]
    split
    · rename_i hIs
      subst hIs
      cases hIds : s.splitOn '.' with
      | nil => exact absurd hIds (List.splitOn_ne_nil _ _)
      | cons id ids =>
        simp only [found, hIds, tail, List.nil_append, if_pos]
        rw [dotted, ← hIds, List.intercalate_splitOn]
    · exact congrArg (c :: ·) ih

namespace SemVer

theorem not_mem_core
    (v : SemVer)
    (hSep : sep ≠ '.')
    (hDigit : isDigit sep = false) :
    sep ∉ v.core :=
  not_mem_dotted hSep fun s hs =>
    not_mem_of_all (v.numbers s hs).2.2 hDigit

/- The signs stand where the parser looks for them. -/
theorem cut_string (v : SemVer) :
    cut v.text '+' =
        (v.core ++ tail '-' v.pre, dotted v.build, !v.build.isEmpty) ∧
      cut (v.core ++ tail '-' v.pre) '-' =
        (v.core, dotted v.pre, !v.pre.isEmpty) ∧
      v.core.splitOn '.' = [v.major, v.minor, v.patch] := by
  refine ⟨cut_tail ?_, cut_tail (v.not_mem_core nofun rfl), ?_⟩
  · rw [List.mem_append, not_or]
    refine ⟨v.not_mem_core nofun rfl, ?_⟩
    cases hPre : v.pre with
    | nil => exact List.not_mem_nil
    | cons id ids =>
      show '+' ∉ '-' :: dotted (id :: ids)
      rw [List.mem_cons, not_or, ← hPre]
      exact ⟨nofun, not_mem_dotted nofun fun id hId =>
        not_mem_of_all (v.preIds id hId).1.2 rfl⟩
  · exact List.splitOn_intercalate '.'
      (fun s hs => not_mem_of_all (v.numbers s hs).2.2 rfl) nofun

end SemVer

/- What the parser asks of the parts that it finds. -/
theorem parseRelease_iff
    {text : String}
    {r : Release}
    {front core : List Char}
    {pre build : List Char × Bool}
    (hBuild : cut text.toList '+' = (front, build))
    (hPre : cut front '-' = (core, pre)) :
    parseRelease text = .ok r ↔
      ∃ major minor patch, core.splitOn '.' = [major, minor, patch] ∧
        (∀ s ∈ [major, minor, patch],
          Number s ∧ decimal s < 2 ^ 64) ∧
        (∀ id ∈ found pre, Identifier id ∧
          (id.all isDigit = true → Number id ∧ decimal id < 2 ^ 64)) ∧
        (∀ id ∈ found build, Identifier id) ∧
        r = ⟨decimal major, decimal minor, decimal patch,
          (found pre).map String.ofList⟩ := by
  have hBuilds :
      (build.2 = true ∧ ¬ (build.1.splitOn '.').all
          (fun id => id ≠ [] && id.all alnumHyphen) = true) ↔
        ¬ ∀ id ∈ found build, Identifier id := by
    simp only [found, Identifier]
    cases build.2 <;> simp
  have hPres :
      (found pre).all validPrereleaseIdentifier = true ↔
        ∀ id ∈ found pre, Identifier id ∧
          (id.all isDigit = true →
            Number id ∧ decimal id < 2 ^ 64) := by
    simp only [List.all_eq_true, validPrereleaseIdentifier_iff]
  have hIds :
      (if pre.2 = true then pre.1.splitOn '.' else []) = found pre := rfl
  simp only [parseRelease, hBuild, hPre, hIds]
  constructor
  · intro h
    split at h
    · rename_i major minor patch hCore
      split at h
      · rename_i hMajor hMinor hPatch
        obtain ⟨hId, hFits, rfl⟩ := numericIdentifier_eq_some.mp hMajor
        obtain ⟨hId', hFits', rfl⟩ := numericIdentifier_eq_some.mp hMinor
        obtain ⟨hId'', hFits'', rfl⟩ :=
          numericIdentifier_eq_some.mp hPatch
        split at h
        · cases h
        rename_i hPreIds
        split at h
        · cases h
        rename_i hBuildIds
        cases h
        refine ⟨major, minor, patch, hCore, ?_,
          hPres.mp (not_not.mp hPreIds),
          not_not.mp (mt hBuilds.mpr hBuildIds), rfl⟩
        simp only [List.forall_mem_cons]
        exact ⟨⟨hId, hFits⟩, ⟨hId', hFits'⟩, ⟨hId'', hFits''⟩, nofun⟩
      · cases h
    · cases h
  · rintro ⟨major, minor, patch, hCore, hNumbers, hPreIds, hBuildIds,
      rfl⟩
    have hNumber :
        ∀ s ∈ [major, minor, patch],
          numericIdentifier s = some (decimal s) :=
      fun s hs => numericIdentifier_eq_some.mpr
        ⟨(hNumbers s hs).1, (hNumbers s hs).2, rfl⟩
    rw [hCore]
    dsimp only
    rw [hNumber major (by simp), hNumber minor (by simp),
      hNumber patch (by simp)]
    dsimp only
    rw [if_neg (not_not.mpr (hPres.mpr hPreIds)),
      if_neg (mt hBuilds.mp (not_not.mpr hBuildIds))]

/- The parser takes the strings of the versions that fit. -/
theorem parseRelease_eq_ok
    {s : String}
    {r : Release} :
    parseRelease s = .ok r ↔
      ∃ v : SemVer, v.Fits ∧ s = String.ofList v.text ∧
        r = v.release := by
  constructor
  · intro h
    obtain ⟨major, minor, patch, hCore, hNumbers, hPre, hBuild, rfl⟩ :=
      (parseRelease_iff rfl rfl).mp h
    refine ⟨⟨major, minor, patch, _, _, fun s hs => (hNumbers s hs).1,
      fun id hId => ⟨(hPre id hId).1, fun h => ((hPre id hId).2 h).1⟩,
      hBuild⟩, ⟨fun s hs => (hNumbers s hs).2,
      fun id hId h => ((hPre id hId).2 h).2⟩, ?_, rfl⟩
    · have hText := cut_text s.toList '+'
      have hFront := cut_text (cut s.toList '+').1 '-'
      have hDots : (cut (cut s.toList '+').1 '-').1 =
          dotted [major, minor, patch] := by
        rw [← hCore]
        exact (List.intercalate_splitOn '.').symm
      rw [hDots] at hFront
      rw [hFront] at hText
      exact String.toList_inj.mp (hText.trans String.toList_ofList.symm)
  · rintro ⟨v, hFits, rfl, rfl⟩
    obtain ⟨hBuild, hPre, hCore⟩ := v.cut_string
    rw [← String.toList_ofList (l := v.text)] at hBuild
    refine (parseRelease_iff hBuild hPre).mpr ⟨_, _, _, hCore,
      fun s hs => ⟨v.numbers s hs, hFits.1 s hs⟩, ?_⟩
    rw [found_dotted fun id hId => (v.preIds id hId).1,
      found_dotted v.buildIds]
    refine ⟨fun id hId => ⟨(v.preIds id hId).1, fun h => ?_⟩,
      v.buildIds, rfl⟩
    exact ⟨(v.preIds id hId).2 h, hFits.2 id hId h⟩

------------------------------------------------------------
-- Precedence
------------------------------------------------------------

theorem SemVer.release_precedence
    (v : SemVer)
    (h : v.Fits) :
    v.release.precedence = v.precedence := by
  have hRank : ∀ id ∈ v.pre, identifier (String.ofList id) = rank id := by
    intro id hId
    unfold identifier rank
    rw [String.toList_ofList]
    by_cases hDigits : id.all isDigit = true
    · rw [if_pos hDigits, numericIdentifier_eq_some.mpr
        ⟨(v.preIds id hId).2 hDigits, h.2 id hId hDigits, rfl⟩]
    · have hNone : numericIdentifier id = none := by
        refine Option.eq_none_iff_forall_ne_some.mpr fun n hn => ?_
        exact hDigits (numericIdentifier_eq_some.mp hn).1.2.2
      rw [if_neg hDigits, hNone]
  have hMap := List.map_congr_left hRank
  unfold Release.precedence precedence release
  cases hPre : v.pre with
  | nil => rfl
  | cons id ids =>
    rw [hPre] at hMap
    simp only [← hMap, List.map_cons, prerelease, List.map_map]
    rfl

theorem Release.compare_eq (r o : Release) :
    r.compare o = cmp r.precedence o.precedence :=
  (r.compare_compares o).cmp_eq.symm

theorem Release.compare_ne_gt
    {r o : Release} :
    r.compare o ≠ .gt ↔ r.precedence ≤ o.precedence := by
  rw [compare_eq, Ne, cmp_eq_gt_iff, not_lt]

/-
  A string is accepted exactly if it is a version whose numbers
  fit in 64 bits, releases are compared by the precedence of
  their versions, and the build metadata does not count.  The
  comparison is a total preorder.
-/
theorem releases_follow_semVer :
    (∀ s, (∃ r, parseRelease s = .ok r) ↔
      ∃ v : SemVer, v.Fits ∧ s = String.ofList v.text) ∧
    (∀ v w : SemVer, v.Fits → w.Fits →
      ∃ r o, parseRelease (String.ofList v.text) = .ok r ∧
        parseRelease (String.ofList w.text) = .ok o ∧
        (r.compare o).Compares v.precedence w.precedence) ∧
    (∀ (v : SemVer) build hBuild, v.Fits →
      parseRelease (String.ofList
          { v with build := build, buildIds := hBuild }.text) =
        parseRelease (String.ofList v.text)) ∧
    (∀ r : Release, r.compare r = .eq) ∧
    (∀ r o : Release, o.compare r = (r.compare o).swap) ∧
    (∀ r o q : Release, r.compare o ≠ .gt → o.compare q ≠ .gt →
      r.compare q ≠ .gt) ∧
    ∀ r o : Release, r.compare o ≠ .gt ∨ o.compare r ≠ .gt := by
  refine ⟨fun s => ?_, fun v w hv hw => ?_,
    fun v build hBuild hv => ?_, fun r => ?_, fun r o => ?_,
    fun r o q => ?_, fun r o => ?_⟩
  · constructor
    · rintro ⟨r, hr⟩
      obtain ⟨v, hFits, hText, -⟩ := parseRelease_eq_ok.mp hr
      exact ⟨v, hFits, hText⟩
    · rintro ⟨v, hFits, hText⟩
      exact ⟨_, parseRelease_eq_ok.mpr ⟨v, hFits, hText, rfl⟩⟩
  · refine ⟨_, _, parseRelease_eq_ok.mpr ⟨v, hv, rfl, rfl⟩,
      parseRelease_eq_ok.mpr ⟨w, hw, rfl, rfl⟩, ?_⟩
    rw [← v.release_precedence hv, ← w.release_precedence hw]
    exact Release.compare_compares _ _
  · have hText := parseRelease_eq_ok.mpr ⟨v, hv, rfl, rfl⟩
    rw [hText]
    exact parseRelease_eq_ok.mpr
      ⟨{ v with build := build, buildIds := hBuild }, hv, rfl, rfl⟩
  · rw [Release.compare_eq, cmp_self_eq_eq]
  · rw [Release.compare_eq, Release.compare_eq, cmp_swap]
  · simp only [Release.compare_ne_gt]
    exact le_trans
  · simp only [Release.compare_ne_gt]
    exact le_total _ _

end Servicing

end Winunitd
