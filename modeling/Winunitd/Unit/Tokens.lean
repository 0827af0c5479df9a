import Winunitd.Unit.Names

/-
  Tokens of commands and environments.

  `ExecStart=` and `Environment=` lines are split at white
  space outside of quotes.  `marks` says what each character of
  a line is: part of a token, white space between tokens, or a
  quote that groups.

  Key definitions include:
    * `splitCommand`, `splitEnvTokens`
    * `Token.marks`, `Token.groups`

  Key theorems include:
    * `tokens_lose_nothing`
-/

------------------------------------------------------------
-- Splitting
------------------------------------------------------------

namespace Winunitd

open Name (isSpace)

namespace Token

structure Scan where
  quote : Option Char
  started : Bool
  cur : List Char
  tokens : List String

namespace Scan

variable (t : Scan)

/- End the token that has started, if any. -/
def push : Scan :=
  if t.started then
    { t with
      started := false
      cur := []
      tokens := t.tokens ++ [String.ofList t.cur] }
  else t

/-
  One character.  At a closing quote the token has started;
  only the splitting of commands says so again.
-/
def next (quotes : List Char) (t : Scan) (r : Char) : Scan :=
  if r ∈ quotes ∧ t.quote = none then
    { t with quote := some r, started := true }
  else if t.quote = some r then
    { t with quote := none, started := true }
  else if isSpace r ∧ t.quote = none then t.push
  else { t with cur := t.cur ++ [r], started := true }

end Scan

def split (quotes : List Char) (unterminated s : String) :
    Except String (List String) :=
  let t := s.toList.foldl (Scan.next quotes) ⟨none, false, [], []⟩
  if t.quote ≠ none then .error unterminated else .ok t.push.tokens

end Token

def splitCommand (s : String) : Except String (List String) :=
  match Token.split ['"'] "unterminated quote in ExecStart" s with
  | .error err => .error err
  | .ok args =>
      if args = [] then .error "ExecStart is empty" else .ok args

def splitEnvTokens (s : String) : Except String (List String) :=
  Token.split ['"', '\''] "unterminated quote in Environment" s

------------------------------------------------------------
-- Marks
------------------------------------------------------------

namespace Token

inductive Mark where
| grouping
| gap
| literal (r : Char)
deriving DecidableEq

/- What a character is, and the quote that is open after it. -/
def mark (quotes : List Char) (quote : Option Char) (r : Char) :
    Mark × Option Char :=
  if r ∈ quotes ∧ quote = none then (.grouping, some r)
  else if quote = some r then (.grouping, none)
  else if isSpace r ∧ quote = none then (.gap, none)
  else (.literal r, quote)

def marks (quotes : List Char) : Option Char → List Char → List Mark
| _, [] => []
| quote, r :: rs =>
    (mark quotes quote r).1 :: marks quotes (mark quotes quote r).2 rs

/- The quote that is open at the end of a text. -/
def openQuote (quotes : List Char) (s : String) : Option Char :=
  s.toList.foldl (fun quote r => (mark quotes quote r).2) none

/- The literal characters. -/
def text (ms : List Mark) : List Char :=
  ms.filterMap fun
  | .literal r => some r
  | _ => none

/- The maximal runs between gaps. -/
def groups (ms : List Mark) : List (List Mark) :=
  (ms.splitOnP (· = .gap)).filter (· ≠ [])

/- One token for each group, from its literal characters. -/
def tokens (quotes : List Char) (s : String) : List String :=
  (groups (marks quotes none s.toList)).map
    (fun g => String.ofList (text g))

variable {quotes : List Char}
variable {p : List Mark}

theorem groups_run
    (hp : .gap ∉ p) :
    groups p = if p = [] then [] else [p] := by
  rw [groups, List.splitOnP_eq_singleton (by grind)]
  grind

theorem groups_gap
    (hp : .gap ∉ p)
    (ms : List Mark) :
    groups (p ++ .gap :: ms) =
      (if p = [] then [] else [p]) ++ groups ms := by
  rw [groups, List.splitOnP_append_cons_of_forall_mem (by grind) _
    (by decide)]
  grind [groups]

section

variable {t : Scan}
variable (hText : text p = t.cur)
variable (hStarted : t.started = decide (p ≠ []))

include hText hStarted

/- The token of the marks `p` ends. -/
theorem push_tokens :
    t.push.tokens =
      t.tokens ++ (if p = [] then [] else [p]).map
        (fun g => String.ofList (text g)) := by
  by_cases hNil : p = []
  · have hIdle : t.started = false := by simp [hStarted, hNil]
    simp [Scan.push, hIdle, hNil]
  · have hBegun : t.started = true := by simp [hStarted, hNil]
    simp [Scan.push, hBegun, hNil, hText]

theorem push_reset :
    t.push.started = false ∧ t.push.cur = [] ∧
      t.push.quote = t.quote := by
  by_cases hNil : p = []
  · have hIdle : t.started = false := by simp [hStarted, hNil]
    have hEmpty : t.cur = [] := by rw [← hText, hNil]; rfl
    simp [Scan.push, hIdle, hEmpty]
  · have hBegun : t.started = true := by simp [hStarted, hNil]
    simp [Scan.push, hBegun]

end

/-
  The scan from a state in which the marks `p` of a token have
  been read: it has the groups of those and of the rest.
-/
theorem scan_tokens
    (quotes rs : List Char)
    {t : Scan}
    (hp : .gap ∉ p)
    (hText : text p = t.cur)
    (hStarted : t.started = decide (p ≠ [])) :
    (rs.foldl (Scan.next quotes) t).push.tokens =
      t.tokens ++ (groups (p ++ marks quotes t.quote rs)).map
        (fun g => String.ofList (text g)) := by
  induction rs generalizing t p with
  | nil =>
      rw [marks, List.append_nil, groups_run hp]
      exact push_tokens hText hStarted
  | cons r rs ih =>
      rw [List.foldl_cons, marks, ← List.singleton_append,
        ← List.append_assoc, Scan.next, mark]
      split
      · exact ih (by simp [hp]) (by simp [text, ← hText]) (by simp)
      split
      · exact ih (by simp [hp]) (by simp [text, ← hText]) (by simp)
      split
      · rename_i hGap
        obtain ⟨hIdle, hEmpty, hQuote⟩ := push_reset hText hStarted
        rw [List.append_assoc, List.singleton_append, groups_gap hp,
          List.map_append, ← List.append_assoc,
          ← push_tokens hText hStarted,
          ih (p := []) (t := t.push) List.not_mem_nil hEmpty.symm
            (by simp [hIdle]),
          hQuote, hGap.2, List.nil_append]
      · exact ih (by simp [hp]) (by simp [text, ← hText]) (by simp)

theorem scan_quote
    (rs : List Char)
    (t : Scan) :
    (rs.foldl (Scan.next quotes) t).quote =
      rs.foldl (fun quote r => (mark quotes quote r).2) t.quote := by
  induction rs generalizing t with
  | nil => rfl
  | cons r rs ih =>
      rw [List.foldl_cons, ih, List.foldl_cons]
      congr 1
      grind [Scan.next, Scan.push, mark]

theorem text_groups
    (ms : List Mark) :
    (groups ms).flatMap text = text ms := by
  have hAll : ∀ gs : List (List Mark),
      (gs.filter (· ≠ [])).flatMap text = gs.flatMap text := by
    intro gs
    induction gs with
    | nil => rfl
    | cons g gs ih => cases g <;> simp_all [text]
  rw [groups, hAll]
  induction ms with
  | nil => rfl
  | cons m ms ih =>
      rw [List.splitOnP_cons_eq_if_modifyHead]
      cases hs : ms.splitOnP (· = Mark.gap) with
      | nil => exact absurd hs (List.splitOnP_ne_nil _ _)
      | cons g gs => cases m <;> simp_all [text]

/- Quote a text, and put a space between quoted texts. -/
def quoted (x : String) : List Char :=
  '"' :: x.toList ++ ['"']

def joined : List String → List Char
| [] => []
| [x] => quoted x
| x :: xs => quoted x ++ ' ' :: joined xs

theorem scan_quoted
    (hQuotes : '"' ∈ quotes)
    {x : String}
    (hx : '"' ∉ x.toList)
    (tokens : List String) :
    (quoted x).foldl (Scan.next quotes) ⟨none, false, [], tokens⟩ =
      ⟨none, true, x.toList, tokens⟩ := by
  have hInner : ∀ (rs cur : List Char), '"' ∉ rs →
      rs.foldl (Scan.next quotes) ⟨some '"', true, cur, tokens⟩ =
        ⟨some '"', true, cur ++ rs, tokens⟩ := by
    intro rs
    induction rs with
    | nil => simp
    | cons r rs ih => grind [Scan.next]
  have hText := hInner x.toList [] hx
  rw [quoted, List.cons_append, List.foldl_cons, List.foldl_append]
  simp_all [Scan.next]

theorem scan_joined
    (hQuotes : '"' ∈ quotes)
    (hSpace : ' ' ∉ quotes)
    {xs : List String}
    (hxs : ∀ x ∈ xs, '"' ∉ x.toList)
    (tokens : List String) :
    let t :=
      (joined xs).foldl (Scan.next quotes) ⟨none, false, [], tokens⟩
    t.quote = none ∧ t.push.tokens = tokens ++ xs := by
  fun_induction joined xs generalizing tokens with
  | case1 => simp [Scan.push]
  | case2 x => simp [scan_quoted hQuotes (hxs x (by simp)), Scan.push]
  | case3 x xs hNe ih =>
      rcases List.forall_mem_cons.mp hxs with ⟨hx, hxs⟩
      rw [List.foldl_append, scan_quoted hQuotes hx, List.foldl_cons]
      have hPush :
          Scan.next quotes ⟨none, true, x.toList, tokens⟩ ' ' =
            ⟨none, false, [], tokens ++ [x]⟩ := by
        simp [Scan.next, Scan.push, hSpace, isSpace]
      rw [hPush]
      simpa using ih hxs (tokens ++ [x])

theorem split_eq
    (quotes : List Char)
    (unterminated s : String) :
    split quotes unterminated s =
      if openQuote quotes s ≠ none then .error unterminated
      else .ok (tokens quotes s) := by
  have hTokens := scan_tokens quotes s.toList
    (t := ⟨none, false, [], []⟩) (p := []) List.not_mem_nil rfl rfl
  rw [split, scan_quote, hTokens]
  rfl

theorem split_joined
    (hQuotes : '"' ∈ quotes)
    (hSpace : ' ' ∉ quotes)
    {xs : List String}
    (hxs : ∀ x ∈ xs, '"' ∉ x.toList)
    (unterminated : String) :
    split quotes unterminated (String.ofList (joined xs)) = .ok xs := by
  have hScan := scan_joined hQuotes hSpace hxs []
  simp_all [split]

end Token

open Token

/-
  The tokens of a command or an environment are those of the
  groups of its marks; only an open quote, or a command without
  a token, is refused.  The tokens have all literal characters,
  and quoted texts are split back.
-/
theorem tokens_lose_nothing :
    (∀ s, splitCommand s =
      if openQuote ['"'] s ≠ none then
        .error "unterminated quote in ExecStart"
      else if tokens ['"'] s = [] then .error "ExecStart is empty"
      else .ok (tokens ['"'] s)) ∧
    (∀ s, splitEnvTokens s =
      if openQuote ['"', '\''] s ≠ none then
        .error "unterminated quote in Environment"
      else .ok (tokens ['"', '\''] s)) ∧
    (∀ quotes s, (tokens quotes s).flatMap String.toList =
      text (marks quotes none s.toList)) ∧
    ∀ xs, xs ≠ [] → (∀ x ∈ xs, '"' ∉ x.toList) →
      splitCommand (String.ofList (joined xs)) = .ok xs ∧
        splitEnvTokens (String.ofList (joined xs)) = .ok xs := by
  refine ⟨?_, split_eq _ _, ?_, ?_⟩
  · intro s
    rw [splitCommand, split_eq]
    by_cases hOpen : openQuote ['"'] s ≠ none
    · rw [if_pos hOpen, if_pos hOpen]
    · rw [if_neg hOpen, if_neg hOpen]
  · intro quotes s
    rw [← text_groups]
    simp [tokens, List.flatMap_map]
  · intro xs hNe hxs
    refine ⟨?_, split_joined (by decide) (by decide) hxs _⟩
    rw [splitCommand, split_joined (by decide) (by decide) hxs]
    exact if_neg hNe

end Winunitd
