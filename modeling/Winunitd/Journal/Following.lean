import Mathlib.Data.List.Flatten
import Winunitd.Journal.Paging

/-
  Following a log whose stamps are out of order.

  Two streams of a unit are captured at once, so the order in
  which records are written is not the order of their times.
  A follower asks with the cursor of an earlier answer for the
  records after it.  Here the records carry the number they
  were written with, which no query sees: it says which record
  a cursor stands for.

  Key definitions include:
    * `Follower`, `Follower.step`
    * `lastReturned`
    * `Follower.Finds`

  Key theorems include:
    * `scanFiles_read`
    * `Follower.following_exact`
    * `Follower.out_of_order_lost`
-/

------------------------------------------------------------
-- Numbered Records
------------------------------------------------------------

namespace Winunitd

namespace Journal

/- A record and its place among all records written. -/
abbrev Numbered := Nat × Entry

section Trace

variable [Name.LetterCase]
variable [TimeText]
variable [EntrySize]

/- Scan one record and note the last one returned. -/
def traceLine
    (r : Request)
    (archive : Bool)
    (t : Scan × Option Numbered)
    (x : Numbered) :
    Except Page (Scan × Option Numbered) :=
  (scanLine r archive t.1 (some x.2)).map
    (fun st => (st, if st.out = t.1.out then t.2 else some x))

/- The records that a query reads, each with the kind of file. -/
def readLines
    (r : Request)
    (archives : List (List Numbered))
    (current : List Numbered) :
    List (Bool × Numbered) :=
  (archives.reverse.filter
      (fun f => ¬ r.Skips (f.map (fun x => some x.2)))).flatten.map
      (fun x => (true, x)) ++
    current.map (fun x => (false, x))

def traceAll
    (r : Request)
    (t : Scan × Option Numbered)
    (es : List (Bool × Numbered)) :
    Except Page (Scan × Option Numbered) :=
  es.foldlM (fun t p => traceLine r p.1 t p.2) t

/- The last record that a query returns. -/
def lastReturned
    (r : Request)
    (archives : List (List Numbered))
    (current : List Numbered) :
    Option Numbered :=
  match traceAll r (r.begin, none) (readLines r archives current) with
  | .ok t => t.2
  | .error _ => none

end Trace

------------------------------------------------------------
-- Followers
------------------------------------------------------------

/-
  A log and a reader that follows it without a budget.  The
  record that the cursor stands for is kept with the cursor.
-/
structure Follower where
  archives : List (List Numbered)
  current : List Numbered
  written : Nat
  cursor : List Char
  mark : Option Numbered

/- What can happen next. -/
inductive FollowLabel where
| append (e : Entry)
| rotate
| query
deriving DecidableEq, Repr

namespace Follower

/- An empty log and no cursor. -/
def start : Follower where
  archives := []
  current := []
  written := 0
  cursor := []
  mark := none

/- The retained records, in the order they were written. -/
def retained (s : Follower) : List Numbered :=
  s.archives.reverse.flatten ++ s.current

def files (s : Follower) : LogFiles where
  archives := s.archives.map (fun f => f.map (fun x => some x.2))
  current := s.current.map (fun x => some x.2)

def request (q : LogQuery) (s : Follower) : Request where
  unit := q.unit
  since := q.since
  cursor := s.cursor
  maxBytes := 0

variable [Name.LetterCase]
variable [TimeText]
variable [EntrySize]

/- One step of the writer or of the reader. -/
def step (q : LogQuery) (s : Follower) :
    FollowLabel → Option Follower
| .append e =>
    some
      { s with
        current := s.current ++ [(s.written, e)]
        written := s.written + 1 }
| .rotate =>
    some
      { s with
        archives := (s.current :: s.archives).take q.kept
        current := [] }
| .query =>
    some
      { s with
        cursor := (scan (s.request q) s.files).next
        mark :=
          (lastReturned (s.request q) s.archives s.current).or s.mark }

/- The matching retained records written after a number. -/
def after (q : LogQuery) (s : Follower) (m : Nat) : List Entry :=
  matching q.unit q.since
    ((s.retained.filter (fun x => m < x.1)).map Prod.snd)

/- The records with the cursor's identifier that are read up to
   the cursor's record. -/
def twins (q : LogQuery) (s : Follower) (m : Nat) :
    List (Bool × Numbered) :=
  (readLines (s.request q) s.archives s.current).filter
    (fun p =>
      p.2.1 ≤ m ∧ p.2.2.Matches q.unit q.since ∧
        entryID p.2.2 = (s.request q).wantID)

/-
  The stamps of an archive do not lead the query astray: it is
  not passed over if it holds the cursor's record `m` or a later
  one, and none of its records before `m` has a later time.
-/
def Leads
    (q : LogQuery)
    (s : Follower)
    (m : Nat)
    (f : List Numbered) : Prop :=
  ((s.request q).Skips (f.map (fun x => some x.2)) →
    ∀ x ∈ f, x.2.Matches q.unit q.since → x.1 < m) ∧
  (¬ (s.request q).Skips (f.map (fun x => some x.2)) →
    ∀ x ∈ f, x.2.Matches q.unit q.since → x.1 < m →
      ¬ (x.2.timestamp ≠ 0 ∧
        (s.request q).cursorTS < x.2.timestamp))

instance
    (q : LogQuery)
    (s : Follower)
    (m : Nat)
    (f : List Numbered) :
    Decidable (s.Leads q m f) :=
  inferInstanceAs (Decidable (_ ∧ _))

/-
  The query recognises the cursor's record: no archive leads it
  astray, and the cursor counts the records like its own that
  the query reads.
-/
def Finds (q : LogQuery) (s : Follower) (m : Nat) : Prop :=
  (∀ f ∈ s.archives, s.Leads q m f) ∧
    (s.request q).wantN = (s.twins q m).length

instance (q : LogQuery) (s : Follower) (m : Nat) :
    Decidable (s.Finds q m) :=
  inferInstanceAs (Decidable (_ ∧ _))

end Follower

/- All runs of a log and its follower. -/
def following
    [Name.LetterCase]
    [TimeText]
    [EntrySize]
    (q : LogQuery) :
    Lib.System Follower FollowLabel where
  init s := s = .start
  step := Follower.step q

------------------------------------------------------------
-- What A Query Reads
------------------------------------------------------------

section Reading

variable [Name.LetterCase]
variable [TimeText]
variable [EntrySize]
variable {r : Request}

/- The entries of numbered records. -/
def unnumbered (es : List (Bool × Numbered)) : List (Bool × Entry) :=
  es.map (fun p => (p.1, p.2.2))

theorem scanFile_read
    (archive : Bool)
    (xs : List Numbered)
    (st : Scan) :
    scanFile r archive st (xs.map (fun x => some x.2)) =
      scanAll r st (unnumbered (xs.map (fun x => (archive, x)))) := by
  have hEq := scanFile_eq (r := r) archive st (xs.map Prod.snd)
  rw [List.map_map, List.map_map] at hEq
  rw [unnumbered, List.map_map]
  exact hEq

/- Archives that are passed over might as well not be there. -/
theorem scanArchives_read
    (fs : List (List Numbered))
    (st : Scan) :
    (fs.map (fun f => f.map (fun x => some x.2))).foldlM
        (scanArchive r) st =
      scanAll r st
        (unnumbered
          ((fs.filter
              (fun f =>
                ¬ r.Skips (f.map (fun x => some x.2)))).flatten.map
            (fun x => (true, x)))) := by
  induction fs generalizing st with
  | nil => rfl
  | cons f fs ih =>
      rw [List.map_cons, List.foldlM_cons]
      unfold scanArchive
      by_cases hSkips : r.Skips (f.map (fun x => some x.2))
      · rw [if_pos hSkips, List.filter_cons_of_neg (by simpa using hSkips)]
        exact ih st
      · rw [if_neg hSkips, List.filter_cons_of_pos (by simpa using hSkips),
          scanFile_read, List.flatten_cons, List.map_append]
        unfold unnumbered
        rw [List.map_append, scanAll_append]
        show Except.bind _ _ = _
        congr 1
        funext st'
        exact ih st'

theorem scanFiles_read
    (archives : List (List Numbered))
    (current : List Numbered) :
    scanFiles r
        { archives := archives.map (fun f => f.map (fun x => some x.2))
          current := current.map (fun x => some x.2) } =
      scanAll r r.begin (unnumbered (readLines r archives current)) := by
  unfold scanFiles readLines
  rw [← List.map_reverse, scanArchives_read]
  unfold unnumbered
  rw [List.map_append, scanAll_append]
  congr 1
  funext st
  exact scanFile_read false current st

/- The note does not change the scan. -/
theorem traceAll_fst
    (es : List (Bool × Numbered))
    (t : Scan × Option Numbered) :
    (traceAll r t es).map Prod.fst =
      scanAll r t.1 (unnumbered es) := by
  induction es generalizing t with
  | nil => rfl
  | cons p es ih =>
      unfold unnumbered
      rw [List.map_cons, scanAll_cons]
      unfold traceAll
      rw [List.foldlM_cons]
      unfold traceLine
      cases scanLine r p.1 t.1 (some p.2.2) with
      | error page => rfl
      | ok st => exact ih _

------------------------------------------------------------
-- The Cursor Of An Answer
------------------------------------------------------------

/- What is returned is noted, and the cursor is its own. -/
def Noted
    (r : Request)
    (t : Scan × Option Numbered) : Prop :=
  match t.2 with
  | none => t.1.next = r.cursor
  | some x =>
      x.2.Matches r.unit r.since ∧
        ∃ n, 1 ≤ n ∧ t.1.next = formatCursor (entryID x.2) n

variable {e : Entry}

variable {archive : Bool}

omit [Name.LetterCase] in
/- A line is passed by, or is the next one to return. -/
theorem scanMatch_cases
    (r : Request)
    (archive : Bool)
    (st : Scan)
    (e : Entry) :
    ∃ st₁ : Scan,
      (scanMatch r archive st e = .ok st₁ ∨
        (scanMatch r archive st e = deliver r st₁ (entryID e) e ∧
          1 ≤ st₁.seen (entryID e))) ∧
      st₁.out = st.out ∧ st₁.next = st.next := by
  have hSeen : 1 ≤ (st.count (entryID e)).seen (entryID e) := by
    simp [Scan.count]
  unfold scanMatch
  split
  · exact ⟨st, Or.inl rfl, rfl, rfl⟩
  · dsimp only
    split
    · exact ⟨_, Or.inr ⟨rfl, hSeen⟩, rfl, rfl⟩
    · split
      · split
        · exact ⟨_, Or.inl rfl, rfl, rfl⟩
        · exact ⟨_, Or.inr ⟨rfl, hSeen⟩, rfl, rfl⟩
      · split
        · exact ⟨_, Or.inr ⟨rfl, hSeen⟩, rfl, rfl⟩
        · exact ⟨_, Or.inl rfl, rfl, rfl⟩

omit [Name.LetterCase] in
/- A line is returned with its cursor, or changes neither. -/
theorem scanMatch_noted
    {st st' : Scan}
    (h : scanMatch r archive st e = .ok st') :
    (st'.out = st.out ∧ st'.next = st.next) ∨
      (st'.out = st.out ++ [e] ∧
        ∃ n, 1 ≤ n ∧ st'.next = formatCursor (entryID e) n) := by
  rcases scanMatch_cases r archive st e with
    ⟨st₁, hOk | ⟨hDue, hSeen⟩, hOut, hNext⟩
  · rw [hOk] at h
    cases h
    exact Or.inl ⟨hOut, hNext⟩
  · rw [hDue] at h
    unfold deliver at h
    split at h
    · cases h
    · cases h
      exact Or.inr ⟨congrArg (· ++ [e]) hOut, _, hSeen, rfl⟩

variable {t t' : Scan × Option Numbered}

theorem traceLine_noted
    {x : Numbered}
    (hNoted : Noted r t)
    (h : traceLine r archive t x = .ok t') :
    Noted r t' := by
  unfold traceLine at h
  cases hLine : scanLine r archive t.1 (some x.2) with
  | error page =>
      rw [hLine] at h
      cases h
  | ok st =>
      rw [hLine] at h
      cases h
      have hSame :
          st.out = t.1.out → st.next = t.1.next →
            Noted r (st, if st.out = t.1.out then t.2 else some x) := by
        intro hOut hNext
        unfold Noted at hNoted ⊢
        rw [if_pos hOut]
        dsimp only
        rw [hNext]
        exact hNoted
      simp only [scanLine] at hLine
      split at hLine
      · rename_i hMatch
        rcases scanMatch_noted hLine with ⟨hOut, hNext⟩ | ⟨hOut, hNext⟩
        · exact hSame hOut hNext
        · have hMore : st.out ≠ t.1.out := by
            rw [hOut]
            simp
          show Noted r (st, if st.out = t.1.out then t.2 else some x)
          rw [if_neg hMore]
          exact ⟨hMatch, hNext⟩
      · cases hLine
        exact hSame rfl rfl

variable {es : List (Bool × Numbered)}

theorem traceAll_noted
    (hNoted : Noted r t)
    (h : traceAll r t es = .ok t') :
    Noted r t' := by
  induction es generalizing t with
  | nil =>
      cases h
      exact hNoted
  | cons p es ih =>
      unfold traceAll at h
      rw [List.foldlM_cons] at h
      cases hLine : traceLine r p.1 t p.2 with
      | error page =>
          rw [hLine] at h
          cases h
      | ok mid =>
          rw [hLine] at h
          exact ih (traceLine_noted hNoted hLine) h

section

variable (hUnlimited : r.maxBytes = 0)

include hUnlimited

omit [Name.LetterCase] [TimeText] in
/- Without a budget no page ends early. -/
theorem deliver_unlimited
    (st : Scan)
    (id : List Char)
    (e : Entry) :
    deliver r st id e = .ok (st.add r id e) := by
  unfold deliver
  rw [if_neg]
  rintro ⟨hPos, _⟩
  omega

theorem scanLine_unlimited
    (archive : Bool)
    (st : Scan)
    (e : Entry) :
    ∃ st', scanLine r archive st (some e) = .ok st' := by
  simp only [scanLine]
  split
  · rcases scanMatch_cases r archive st e with
      ⟨st₁, hOk | ⟨hDue, _⟩, _⟩
    · exact ⟨st₁, hOk⟩
    · exact ⟨_, hDue.trans (deliver_unlimited hUnlimited _ _ _)⟩
  · exact ⟨_, rfl⟩

theorem traceAll_unlimited
    (es : List (Bool × Numbered))
    (t : Scan × Option Numbered) :
    ∃ t', traceAll r t es = .ok t' := by
  induction es generalizing t with
  | nil => exact ⟨t, rfl⟩
  | cons p es ih =>
      rcases scanLine_unlimited hUnlimited p.1 t.1 p.2.2 with ⟨st, hLine⟩
      unfold traceAll
      rw [List.foldlM_cons]
      unfold traceLine
      rw [hLine]
      exact ih _

/- The answer of a query without a budget, and its last record. -/
theorem query_noted
    (archives : List (List Numbered))
    (current : List Numbered) :
    ∃ st,
      scanFiles r
        { archives := archives.map (fun f => f.map (fun x => some x.2))
          current := current.map (fun x => some x.2) } = .ok st ∧
      Noted r (st, lastReturned r archives current) := by
  rcases traceAll_unlimited hUnlimited (readLines r archives current)
    (r.begin, none) with ⟨t, ht⟩
  have hFst :=
    traceAll_fst (r := r) (readLines r archives current) (r.begin, none)
  rw [ht] at hFst
  refine ⟨t.1, ?_, ?_⟩
  · rw [scanFiles_read]
    exact hFst.symm
  · unfold lastReturned
    rw [ht]
    have hBegin : Noted r (r.begin, none) := rfl
    exact traceAll_noted hBegin ht

end

------------------------------------------------------------
-- Up To The Cursor And After It
------------------------------------------------------------

variable {st : Scan}

/- A record before the cursor's is passed by; if it is like the
   cursor's it is counted. -/
theorem scanLine_before
    (hPast : st.past = false)
    (hEarly :
      e.Matches r.unit r.since →
        ¬ (archive = true ∧ e.timestamp ≠ 0 ∧
          r.cursorTS < e.timestamp))
    (hFew :
      e.Matches r.unit r.since → entryID e = r.wantID →
        st.seen r.wantID + 1 < r.wantN) :
    ∃ st', scanLine r archive st (some e) = .ok st' ∧
      st'.past = false ∧ st'.out = st.out ∧
      st'.seen r.wantID =
        if e.Matches r.unit r.since ∧ entryID e = r.wantID then
          st.seen r.wantID + 1
        else
          st.seen r.wantID := by
  by_cases hMatch : e.Matches r.unit r.since
  · by_cases hOld : e.timestamp ≠ 0 ∧ e.timestamp < r.cursorTS
    · refine ⟨st, scanLine_older hPast hOld.1 hOld.2, hPast, rfl, ?_⟩
      rw [if_neg (fun hBoth => not_older_of_wantID hBoth.2 hOld)]
    · have hSeen :
          entryID e = r.wantID →
            (st.count (entryID e)).seen (entryID e) =
              st.seen r.wantID + 1 := by
        intro hID
        rw [hID]
        simp [Scan.count]
      refine ⟨_, scanLine_ahead hMatch hPast hOld (hEarly hMatch) ?_,
        hPast, rfl, ?_⟩
      · intro hID
        rw [hSeen hID]
        exact hFew hMatch hID
      · by_cases hID : entryID e = r.wantID
        · rw [if_pos ⟨hMatch, hID⟩, ← hSeen hID, hID]
        · rw [if_neg (fun hBoth => hID hBoth.2)]
          exact Function.update_of_ne (Ne.symm hID) _ _
  · refine ⟨st, scanLine_other hMatch, hPast, rfl, ?_⟩
    rw [if_neg (fun hBoth => hMatch hBoth.1)]

/- The records like the cursor's among some. -/
def likeCursor (r : Request) (es : List (Bool × Numbered)) :
    List (Bool × Numbered) :=
  es.filter
    (fun p =>
      p.2.2.Matches r.unit r.since ∧ entryID p.2.2 = r.wantID)

theorem scanAll_before
    (hPast : st.past = false)
    (hEarly :
      ∀ p ∈ es, p.2.2.Matches r.unit r.since →
        ¬ (p.1 = true ∧ p.2.2.timestamp ≠ 0 ∧
          r.cursorTS < p.2.2.timestamp))
    (hFew :
      st.seen r.wantID + (likeCursor r es).length < r.wantN) :
    ∃ st', scanAll r st (unnumbered es) = .ok st' ∧
      st'.past = false ∧ st'.out = st.out ∧
      st'.seen r.wantID =
        st.seen r.wantID + (likeCursor r es).length := by
  induction es generalizing st with
  | nil => exact ⟨st, rfl, hPast, rfl, rfl⟩
  | cons p es ih =>
      have hCons :
          (likeCursor r (p :: es)).length =
            (if p.2.2.Matches r.unit r.since ∧
                entryID p.2.2 = r.wantID then 1 else 0) +
              (likeCursor r es).length := by
        unfold likeCursor
        rw [List.filter_cons]
        split
        · rename_i hLike
          rw [if_pos (by simpa using hLike), List.length_cons, Nat.add_comm]
        · rename_i hLike
          rw [if_neg (by simpa using hLike), Nat.zero_add]
      rw [hCons] at hFew ⊢
      have hOne :
          p.2.2.Matches r.unit r.since → entryID p.2.2 = r.wantID →
            st.seen r.wantID + 1 < r.wantN := by
        intro hMatch hID
        rw [if_pos ⟨hMatch, hID⟩] at hFew
        omega
      rcases scanLine_before hPast (hEarly p List.mem_cons_self) hOne with
        ⟨mid, hLine, hMidPast, hMidOut, hMidSeen⟩
      have hStep :
          mid.seen r.wantID =
            st.seen r.wantID +
              (if p.2.2.Matches r.unit r.since ∧
                entryID p.2.2 = r.wantID then 1 else 0) := by
        rw [hMidSeen]
        split <;> rfl
      rcases ih hMidPast
          (fun x hx => hEarly x (List.mem_cons_of_mem _ hx))
          (by rw [hStep]; omega) with
        ⟨st', hRest, hPast', hOut', hSeen'⟩
      refine ⟨st', ?_, hPast', hOut'.trans hMidOut, ?_⟩
      · unfold unnumbered
        rw [List.map_cons, scanAll_cons, hLine]
        exact hRest
      · rw [hSeen', hStep]
        omega

/- After the cursor every matching record is returned. -/
theorem scanAll_after
    (hUnlimited : r.maxBytes = 0)
    (es : List (Bool × Entry))
    (hPast : st.past = true) :
    ∃ st', scanAll r st es = .ok st' ∧
      st'.out = st.out ++ matchingOf r es := by
  induction es generalizing st with
  | nil => exact ⟨st, rfl, by simp [matchingOf, matching]⟩
  | cons p es ih =>
      rw [scanAll_cons, matchingOf_cons]
      by_cases hMatch : p.2.Matches r.unit r.since
      · rw [scanLine_past hMatch hPast, deliver_unlimited hUnlimited,
          if_pos hMatch]
        rcases ih (show ((st.count (entryID p.2)).add r (entryID p.2)
            p.2).past = true from hPast) with ⟨st', hRest, hOut⟩
        refine ⟨st', hRest, ?_⟩
        rw [hOut]
        simp [Scan.add, Scan.count]
      · rw [scanLine_other hMatch, if_neg hMatch]
        exact ih hPast

end Reading

------------------------------------------------------------
-- Places
------------------------------------------------------------

namespace Follower

section Places

variable [Name.LetterCase]
variable [TimeText]
variable [EntrySize]
variable {q : LogQuery}
variable {s : Follower}

/- Numbers grow, and the cursor is that of its record. -/
structure Placed (q : LogQuery) (s : Follower) : Prop where
  increasing : (s.retained.map Prod.fst).Pairwise (· < ·)
  below : ∀ x ∈ s.retained, x.1 < s.written
  unmarked : s.mark = none → s.cursor = []
  marked :
    ∀ x, s.mark = some x →
      x.2.Matches q.unit q.since ∧
        ∃ n, 1 ≤ n ∧ s.cursor = formatCursor (entryID x.2) n

omit [EntrySize] in
theorem Placed.start : Placed q .start where
  increasing := List.Pairwise.nil
  below := fun x hx => by simp [retained, Follower.start] at hx
  unmarked := fun _ => rfl
  marked := fun x hx => nomatch hx

omit [EntrySize] in
theorem Placed.append
    (hPlaced : Placed q s)
    (e : Entry) :
    Placed q
      { s with
        current := s.current ++ [(s.written, e)]
        written := s.written + 1 } := by
  have hRetained :
      retained
          { s with
            current := s.current ++ [(s.written, e)]
            written := s.written + 1 } =
        s.retained ++ [(s.written, e)] :=
    (List.append_assoc _ _ _).symm
  refine ⟨?_, ?_, hPlaced.unmarked, hPlaced.marked⟩
  · rw [hRetained, List.map_append, List.pairwise_append]
    refine ⟨hPlaced.increasing, List.pairwise_singleton _ _, ?_⟩
    intro a ha b hb
    rcases List.mem_map.mp ha with ⟨x, hx, rfl⟩
    rw [List.mem_singleton.mp hb]
    exact hPlaced.below x hx
  · intro x hx
    rw [hRetained] at hx
    rcases List.mem_append.mp hx with hOld | hNew
    · exact Nat.lt_succ_of_lt (hPlaced.below x hOld)
    · rw [List.mem_singleton.mp hNew]
      exact Nat.lt_succ_self _

omit [Name.LetterCase] [TimeText] [EntrySize] in
/- A rotation keeps the newest records. -/
theorem rotate_suffix
    {α : Type}
    (archives : List (List α))
    (current : List α)
    (keep : Nat) :
    ((current :: archives).take keep).reverse.flatten ++ [] <:+
      archives.reverse.flatten ++ current := by
  have hSplit := List.take_append_drop keep (current :: archives)
  refine ⟨((current :: archives).drop keep).reverse.flatten, ?_⟩
  rw [List.append_nil, ← List.flatten_append, ← List.reverse_append,
    hSplit]
  simp

omit [EntrySize] in
theorem Placed.rotate (hPlaced : Placed q s) :
    Placed q
      { s with
        archives := (s.current :: s.archives).take q.kept
        current := [] } := by
  have hSuffix :=
    rotate_suffix s.archives s.current q.kept
  refine ⟨?_, ?_, hPlaced.unmarked, hPlaced.marked⟩
  · exact hPlaced.increasing.sublist (hSuffix.sublist.map Prod.fst)
  · exact fun x hx => hPlaced.below x (hSuffix.subset hx)

theorem Placed.query (hPlaced : Placed q s) :
    Placed q
      { s with
        cursor := (scan (s.request q) s.files).next
        mark :=
          (lastReturned (s.request q) s.archives s.current).or
            s.mark } := by
  rcases query_noted (r := s.request q) rfl s.archives s.current with
    ⟨st, hScan, hNoted⟩
  have hNext : (scan (s.request q) s.files).next = st.next := by
    unfold scan
    have hFiles : scanFiles (s.request q) s.files = .ok st := hScan
    rw [hFiles]
  refine ⟨hPlaced.increasing, hPlaced.below, ?_, ?_⟩
  · intro hNone
    rw [Option.or_eq_none_iff] at hNone
    rw [hNone.1] at hNoted
    have hSame : st.next = s.cursor := hNoted
    rw [hNext, hSame]
    exact hPlaced.unmarked hNone.2
  · intro x hx
    rw [hNext]
    cases hLast : lastReturned (s.request q) s.archives s.current with
    | none =>
        rw [hLast] at hx hNoted
        have hSame : st.next = s.cursor := hNoted
        rw [hSame]
        exact hPlaced.marked x hx
    | some y =>
        rw [hLast] at hx hNoted
        cases hx
        exact hNoted

theorem placed_of_reachable
    (h : (following q).Reachable s) :
    Placed q s := by
  apply Lib.System.reachable_invariant _ _ h
  · rintro s rfl
    exact Placed.start
  · intro s l t _ hPlaced hStep
    cases l with
    | append e =>
        cases hStep
        exact hPlaced.append e
    | rotate =>
        cases hStep
        exact hPlaced.rotate
    | query =>
        cases hStep
        exact hPlaced.query

------------------------------------------------------------
-- Exact Answers
------------------------------------------------------------

omit [Name.LetterCase] [EntrySize] in
theorem readLines_snd
    (r : Request)
    (archives : List (List Numbered))
    (current : List Numbered) :
    (readLines r archives current).map Prod.snd =
      (archives.reverse.filter
        (fun f => ¬ r.Skips (f.map (fun x => some x.2)))).flatten ++
        current := by
  simp [readLines, Function.comp_def]

omit [Name.LetterCase] [EntrySize] in
/- What a query reads is part of what is retained. -/
theorem readLines_sublist
    (r : Request)
    (archives : List (List Numbered))
    (current : List Numbered) :
    ((readLines r archives current).map Prod.snd).Sublist
      (archives.reverse.flatten ++ current) := by
  rw [readLines_snd]
  exact List.filter_sublist.flatten.append_right current

omit [Name.LetterCase] [TimeText] [EntrySize] in
/- Files without such records do not matter. -/
theorem filter_flatten_filter
    {α : Type}
    {p : List α → Bool}
    {g : α → Bool}
    {fs : List (List α)}
    (h : ∀ f ∈ fs, p f = false → f.filter g = []) :
    (fs.filter p).flatten.filter g = fs.flatten.filter g := by
  induction fs with
  | nil => rfl
  | cons f fs ih =>
      have hRest := ih (fun x hx => h x (List.mem_cons_of_mem _ hx))
      rw [List.flatten_cons, List.filter_append]
      cases hp : p f with
      | true =>
          rw [List.filter_cons_of_pos hp, List.flatten_cons,
            List.filter_append, hRest]
      | false =>
          rw [List.filter_cons_of_neg (by simp [hp]),
            h f List.mem_cons_self hp, List.nil_append, hRest]

omit [Name.LetterCase] [EntrySize] in
theorem mem_readLines_archive
    {r : Request}
    {archives : List (List Numbered)}
    {current : List Numbered}
    {p : Bool × Numbered}
    (hp : p ∈ readLines r archives current)
    (hArchive : p.1 = true) :
    ∃ f ∈ archives, ¬ r.Skips (f.map (fun x => some x.2)) ∧
      p.2 ∈ f := by
  unfold readLines at hp
  rcases List.mem_append.mp hp with hOld | hCurrent
  · rcases List.mem_map.mp hOld with ⟨x, hx, rfl⟩
    rcases List.mem_flatten.mp hx with ⟨f, hf, hxf⟩
    rw [List.mem_filter, List.mem_reverse] at hf
    exact ⟨f, hf.1, by simpa using hf.2, hxf⟩
  · rcases List.mem_map.mp hCurrent with ⟨x, _, rfl⟩
    cases hArchive

variable {x : Numbered}

omit [EntrySize] in
/- The cursor's record is read. -/
theorem mark_read
    (hMatch : x.2.Matches q.unit q.since)
    (hRetained : x ∈ s.retained)
    (hFinds : s.Finds q x.1) :
    ∃ archive,
      (archive, x) ∈ readLines (s.request q) s.archives s.current := by
  unfold readLines
  rcases List.mem_append.mp hRetained with hOld | hCurrent
  · rcases List.mem_flatten.mp hOld with ⟨f, hf, hxf⟩
    have hArchive := List.mem_reverse.mp hf
    have hReads :
        ¬ (s.request q).Skips (f.map (fun x => some x.2)) := by
      intro hSkips
      exact Nat.lt_irrefl _
        ((hFinds.1 f hArchive).1 hSkips x hxf hMatch)
    refine ⟨true, List.mem_append_left _ (List.mem_map.mpr ⟨x, ?_, rfl⟩)⟩
    refine List.mem_flatten.mpr ⟨f, ?_, hxf⟩
    rw [List.mem_filter]
    exact ⟨hf, by simpa using hReads⟩
  · exact ⟨false, List.mem_append_right _
      (List.mem_map.mpr ⟨x, hCurrent, rfl⟩)⟩

omit [EntrySize] in
/- No record after the cursor's is passed over. -/
theorem after_eq_read
    {m : Nat}
    (hFinds : s.Finds q m) :
    s.after q m =
      matching q.unit q.since
        ((((readLines (s.request q) s.archives s.current).map
          Prod.snd).filter (fun x => m < x.1)).map Prod.snd) := by
  have hBoth :
      ∀ xs : List Numbered,
        matching q.unit q.since
            ((xs.filter (fun x => m < x.1)).map Prod.snd) =
          (xs.filter
            (fun x =>
              decide (m < x.1) &&
                decide (x.2.Matches q.unit q.since))).map Prod.snd := by
    intro xs
    unfold matching
    rw [List.filter_map, List.filter_filter]
    simp only [Function.comp_def, Bool.and_comm]
  have hPassed :
      ∀ f ∈ s.archives.reverse,
        decide (¬ (s.request q).Skips (f.map (fun x => some x.2))) =
            false →
          f.filter
            (fun x =>
              decide (m < x.1) &&
                decide (x.2.Matches q.unit q.since)) = [] := by
    intro f hf hSkips
    rw [List.filter_eq_nil_iff]
    intro x hx hLater
    simp only [Bool.and_eq_true, decide_eq_true_eq] at hLater
    have hBefore :=
      (hFinds.1 f (List.mem_reverse.mp hf)).1 (by simpa using hSkips) x
        hx hLater.2
    omega
  unfold after
  rw [hBoth, hBoth, readLines_snd, retained, List.filter_append,
    List.filter_append, filter_flatten_filter hPassed]

/- The records read, cut at the cursor's. -/
structure CutAt
    (es before rest : List (Bool × Numbered))
    (archive : Bool)
    (x : Numbered) : Prop where
  split : es = before ++ (archive, x) :: rest
  less : ∀ p ∈ before, p.2.1 < x.1
  more : ∀ p ∈ rest, x.1 < p.2.1

variable {archive : Bool}

omit [EntrySize] in
theorem cut_of_mem
    (hPlaced : Placed q s)
    (hRead :
      (archive, x) ∈ readLines (s.request q) s.archives s.current) :
    ∃ before rest,
      CutAt (readLines (s.request q) s.archives s.current) before rest
        archive x := by
  rcases List.append_of_mem hRead with ⟨before, rest, hSplit⟩
  have hNumbers :
      ((before ++ (archive, x) :: rest).map
        (fun p => p.2.1)).Pairwise (· < ·) := by
    rw [← hSplit]
    have hSub :=
      (readLines_sublist (s.request q) s.archives s.current).map Prod.fst
    rw [List.map_map] at hSub
    exact hPlaced.increasing.sublist hSub
  rw [List.map_append, List.map_cons, List.pairwise_append,
    List.pairwise_cons] at hNumbers
  refine ⟨before, rest, hSplit, ?_, ?_⟩
  · intro p hp
    exact hNumbers.2.2 p.2.1 (List.mem_map.mpr ⟨p, hp, rfl⟩) x.1
      List.mem_cons_self
  · intro p hp
    exact hNumbers.2.1.1 p.2.1 (List.mem_map.mpr ⟨p, hp, rfl⟩)

omit [Name.LetterCase] [TimeText] [EntrySize] in
/- The records after the cut are those with larger numbers. -/
theorem CutAt.later
    {es before rest : List (Bool × Numbered)}
    (hCut : CutAt es before rest archive x) :
    (es.map Prod.snd).filter (fun y => x.1 < y.1) =
      rest.map Prod.snd := by
  have hBefore :
      (before.map Prod.snd).filter (fun y => decide (x.1 < y.1)) = [] := by
    rw [List.filter_eq_nil_iff]
    intro y hy
    rcases List.mem_map.mp hy with ⟨p, hp, rfl⟩
    have hLess := hCut.less p hp
    simp only [decide_eq_true_eq]
    omega
  have hRest :
      (rest.map Prod.snd).filter (fun y => decide (x.1 < y.1)) =
        rest.map Prod.snd := by
    rw [List.filter_eq_self]
    intro y hy
    rcases List.mem_map.mp hy with ⟨p, hp, rfl⟩
    exact decide_eq_true (hCut.more p hp)
  rw [hCut.split, List.map_append, List.map_cons, List.filter_append,
    hBefore, List.filter_cons_of_neg (by simp), hRest, List.nil_append]

variable {before rest : List (Bool × Numbered)}

omit [EntrySize] in
/- The records like the cursor's up to the cut. -/
theorem CutAt.twins_length
    (hCut :
      CutAt (readLines (s.request q) s.archives s.current) before rest
        archive x)
    (hMatch : x.2.Matches q.unit q.since)
    (hID : entryID x.2 = (s.request q).wantID) :
    (s.twins q x.1).length =
      (likeCursor (s.request q) before).length + 1 := by
  have hBefore :
      before.filter
          (fun p =>
            decide (p.2.1 ≤ x.1 ∧ p.2.2.Matches q.unit q.since ∧
              entryID p.2.2 = (s.request q).wantID)) =
        likeCursor (s.request q) before := by
    apply List.filter_congr
    intro p hp
    have hLe : p.2.1 ≤ x.1 := Nat.le_of_lt (hCut.less p hp)
    simp only [hLe, true_and]
    rfl
  have hRest :
      rest.filter
          (fun p =>
            decide (p.2.1 ≤ x.1 ∧ p.2.2.Matches q.unit q.since ∧
              entryID p.2.2 = (s.request q).wantID)) = [] := by
    rw [List.filter_eq_nil_iff]
    intro p hp
    have hMore := hCut.more p hp
    simp only [decide_eq_true_eq]
    omega
  unfold twins
  rw [hCut.split, List.filter_append, hBefore,
    List.filter_cons_of_pos
      (by simpa using ⟨hMatch, hID⟩), hRest, List.length_append]
  rfl

omit [EntrySize] in
/- None of the records read before the cursor's ends the search. -/
theorem CutAt.early
    (hCut :
      CutAt (readLines (s.request q) s.archives s.current) before rest
        archive x)
    (hFinds : s.Finds q x.1) :
    ∀ p ∈ before,
      p.2.2.Matches (s.request q).unit (s.request q).since →
      ¬ (p.1 = true ∧ p.2.2.timestamp ≠ 0 ∧
        (s.request q).cursorTS < p.2.2.timestamp) := by
  rintro p hp hpMatch ⟨hArchive, hTime⟩
  have hpRead :
      p ∈ readLines (s.request q) s.archives s.current := by
    rw [hCut.split]
    exact List.mem_append_left _ hp
  rcases mem_readLines_archive hpRead hArchive with
    ⟨f, hf, hReads, hpf⟩
  exact (hFinds.1 f hf).2 hReads p.2 hpf hpMatch (hCut.less p hp) hTime

/-
  In every run with stamps in any order, a query with the cursor
  of a record that is retained and that the stamps lead to
  returns the matching records written after it, once each and
  in the order written.
-/
theorem following_exact
    (h : (following q).Reachable s)
    {x : Numbered}
    (hMark : s.mark = some x)
    (hRetained : x ∈ s.retained)
    (hFinds : s.Finds q x.1) :
    (scan (s.request q) s.files).entries = s.after q x.1 ∧
      (scan (s.request q) s.files).err = none := by
  have hPlaced := placed_of_reachable h
  rcases hPlaced.marked x hMark with ⟨hMatch, n, hn, hCursor⟩
  have hParse : parseCursor s.cursor = (entryID x.2, n) := by
    have hCases := parse_formatCursor_cases (entryID x.2) hn
    rw [← hCursor] at hCases
    split at hCases
    · exact hCases
    · -- a number that is not read would be that of no record
      have hNone : s.twins q x.1 = [] := by
        rw [twins, List.filter_eq_nil_iff]
        intro p _ hTwin
        have hOwn := (of_decide_eq_true hTwin).2.2
        rw [show (s.request q).wantID = s.cursor from
          congrArg Prod.fst hCases, hCursor] at hOwn
        exact entryID_ne_formatCursor _ _ _ hOwn
      have hOne := hFinds.2
      rw [hNone, show (s.request q).wantN = 1 from
        congrArg Prod.snd hCases] at hOne
      cases hOne
  have hID : entryID x.2 = (s.request q).wantID :=
    (congrArg Prod.fst hParse).symm
  have hPast : (s.request q).begin.past = false := by
    have hSome : s.cursor ≠ [] := by
      rw [hCursor]
      exact formatCursor_ne_nil _ _
    simpa [Request.begin, request] using hSome
  rcases mark_read hMatch hRetained hFinds with ⟨archive, hRead⟩
  rcases cut_of_mem hPlaced hRead with ⟨before, rest, hCut⟩
  have hCount :
      0 + (likeCursor (s.request q) before).length + 1 =
        (s.request q).wantN := by
    rw [hFinds.2, hCut.twins_length hMatch hID]
    omega
  rcases scanAll_before hPast (hCut.early hFinds)
      (show 0 + (likeCursor (s.request q) before).length <
        (s.request q).wantN by omega) with
    ⟨st₁, hScan₁, hPast₁, hOut₁, hSeen₁⟩
  have hOwn :
      (st₁.count (entryID x.2)).seen (entryID x.2) =
        (s.request q).wantN := by
    rw [hID, ← hCount]
    refine (Function.update_self _ _ _).trans ?_
    rw [hSeen₁]
    rfl
  have hLine : scanLine (s.request q) archive st₁ (some x.2) = _ :=
    scanLine_found hMatch hPast₁ hID hOwn
  rcases scanAll_after (r := s.request q) rfl (unnumbered rest)
      (show Scan.past { st₁.count (entryID x.2) with past := true } = true
        from rfl) with
    ⟨st₃, hScan₃, hOut₃⟩
  have hAll : scanFiles (s.request q) s.files = .ok st₃ := by
    have hFiles := scanFiles_read (r := s.request q) s.archives s.current
    rw [hCut.split] at hFiles
    refine hFiles.trans ?_
    unfold unnumbered at hScan₁ hScan₃ ⊢
    rw [List.map_append, List.map_cons, scanAll_append, hScan₁]
    show scanAll _ st₁ _ = _
    rw [scanAll_cons, hLine]
    exact hScan₃
  have hPage :
      scan (s.request q) s.files =
        { entries := st₃.out, next := st₃.next, more := false,
          err := none } := by
    unfold scan
    rw [hAll]
  rw [hPage]
  refine ⟨?_, rfl⟩
  show st₃.out = s.after q x.1
  have hNothing : (st₁.count (entryID x.2)).out = [] := hOut₁
  rw [after_eq_read hFinds, hCut.later, hOut₃, hNothing,
    List.nil_append, List.map_map]
  unfold matchingOf unnumbered
  rw [List.map_map]
  rfl

end Places

------------------------------------------------------------
-- Stamps Across A Rotation
------------------------------------------------------------

section Runs

local instance : Name.LetterCase := Name.asciiCase

local instance : TimeText := decimalTimes

local instance : EntrySize := ⟨fun e => e.message.length⟩

/- Stamps go back after the cursor and in the next file. -/
def scattered : List FollowLabel :=
  [.append (Reader.piece 1 "a" false), .query,
    .append (Reader.piece 3 "b" false),
    .append (Reader.piece 2 "c" false), .rotate,
    .append (Reader.piece 1 "d" false)]

theorem following_exact_scattered :
    ∃ s, (following Reader.everything).Reachable s ∧
      (scan (s.request Reader.everything) s.files).entries =
        [Reader.piece 3 "b" false, Reader.piece 2 "c" false,
          Reader.piece 1 "d" false] := by
  have hRun :
      ((following Reader.everything).run .start scattered).map
          (fun s =>
            (s.mark, s.retained.head?,
              decide (s.Finds Reader.everything 0),
              s.after Reader.everything 0)) =
        some
          (some (0, Reader.piece 1 "a" false),
            some (0, Reader.piece 1 "a" false), true,
            [Reader.piece 3 "b" false, Reader.piece 2 "c" false,
              Reader.piece 1 "d" false]) := by
    decide +kernel
  rcases Option.map_eq_some_iff.mp hRun with ⟨s, hs, hEq⟩
  rw [Prod.mk.injEq, Prod.mk.injEq, Prod.mk.injEq, decide_eq_true_iff]
    at hEq
  rcases hEq with ⟨hMark, hFirst, hFinds, hAfter⟩
  have hReach : (following Reader.everything).Reachable s :=
    Lib.System.reachable_of_run scattered rfl hs
  refine ⟨s, hReach, ?_⟩
  rw [← hAfter]
  exact
    (following_exact hReach hMark (List.mem_of_mem_head? hFirst)
      hFinds).1

/- A stamp goes back before the rotation. -/
def lostRun : List FollowLabel :=
  [.append (Reader.piece 2 "a" false), .query,
    .append (Reader.piece 1 "b" false), .rotate,
    .append (Reader.piece 3 "c" false)]

/- The stamp of the cursor's record is behind an earlier one. -/
def repeatedRun : List FollowLabel :=
  [.append (Reader.piece 2 "a" false),
    .append (Reader.piece 1 "b" false), .query, .rotate]

/-
  With the cursor's record in an archive, a query may pass the
  archive over and return nothing although two records follow,
  and it may return the cursor's record and the one before it
  again.
-/
theorem out_of_order_lost :
    (∃ s, (following Reader.everything).Reachable s ∧
      s.mark = some (0, Reader.piece 2 "a" false) ∧
      s.retained =
        [(0, Reader.piece 2 "a" false), (1, Reader.piece 1 "b" false),
          (2, Reader.piece 3 "c" false)] ∧
      (scan (s.request Reader.everything) s.files).entries = []) ∧
    (∃ s, (following Reader.everything).Reachable s ∧
      s.mark = some (1, Reader.piece 1 "b" false) ∧
      s.retained =
        [(0, Reader.piece 2 "a" false),
          (1, Reader.piece 1 "b" false)] ∧
      (scan (s.request Reader.everything) s.files).entries =
        [Reader.piece 2 "a" false, Reader.piece 1 "b" false]) := by
  have hLost :
      ((following Reader.everything).run .start lostRun).map
          (fun s =>
            (s.mark, s.retained,
              (scan (s.request Reader.everything) s.files).entries)) =
        some
          (some (0, Reader.piece 2 "a" false),
            [(0, Reader.piece 2 "a" false),
              (1, Reader.piece 1 "b" false),
              (2, Reader.piece 3 "c" false)], []) := by
    decide +kernel
  have hRepeated :
      ((following Reader.everything).run .start repeatedRun).map
          (fun s =>
            (s.mark, s.retained,
              (scan (s.request Reader.everything) s.files).entries)) =
        some
          (some (1, Reader.piece 1 "b" false),
            [(0, Reader.piece 2 "a" false),
              (1, Reader.piece 1 "b" false)],
            [Reader.piece 2 "a" false, Reader.piece 1 "b" false]) := by
    decide +kernel
  rcases Option.map_eq_some_iff.mp hLost with ⟨s, hs, hEq⟩
  rcases Option.map_eq_some_iff.mp hRepeated with ⟨t, ht, hEq'⟩
  rw [Prod.mk.injEq, Prod.mk.injEq] at hEq hEq'
  exact
    ⟨⟨s, Lib.System.reachable_of_run lostRun rfl hs, hEq⟩,
      ⟨t, Lib.System.reachable_of_run repeatedRun rfl ht, hEq'⟩⟩

end Runs

end Follower

end Journal

end Winunitd
