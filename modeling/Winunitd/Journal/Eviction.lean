import Winunitd.Journal.Following

/-
  Cursors whose record is gone.

  A record leaves the log when its file is rotated off the last
  archive, or when disk retention prunes all files of the unit.
  A reader may still hold its cursor.  A query with it resumes
  at the first record of an archive with a later time; records
  of the current file are compared by identifier only.

  Key definitions include:
    * `UnitLog`
    * `UnitLog.History`, `UnitLog.Outdates`

  Key theorems include:
    * `scanAll_stands`
    * `scanAll_newer`, `scanAll_stuck`
    * `UnitLog.cursor_resumes`
    * `UnitLog.pruned_cursor_stalls`
-/

------------------------------------------------------------
-- Logs That Lose Records
------------------------------------------------------------

namespace Winunitd

namespace Journal

/- The records that a unit's files hold. -/
structure UnitLog where
  archives : List (List Entry)
  current : List Entry

namespace UnitLog

/- The records in the order they were written. -/
def retained (s : UnitLog) : List Entry :=
  s.archives.reverse.flatten ++ s.current

def files (s : UnitLog) : LogFiles where
  archives := s.archives.map (fun f => f.map some)
  current := s.current.map some

/- The records, each with the kind of its file. -/
def lines (s : UnitLog) : List (Bool × Entry) :=
  s.archives.reverse.flatten.map (fun e => (true, e)) ++
    s.current.map (fun e => (false, e))

theorem map_snd_lines (s : UnitLog) :
    s.lines.map Prod.snd = s.retained := by
  unfold lines retained
  rw [List.map_append, List.map_map, List.map_map]
  simp [Function.comp_def]

/-
  The records `gone` and then those of the log were written, at
  increasing times of which none is the zero time.  At an
  earlier time the log held some of them, without a gap.
-/
structure History
    (earlier : UnitLog)
    (gone : List Entry)
    (s : UnitLog) : Prop where
  increasing :
    (gone ++ s.retained).Pairwise
      (fun a b => a.timestamp < b.timestamp)
  nonzero : ∀ e ∈ gone ++ s.retained, e.timestamp ≠ 0
  earlier : earlier.retained <:+: gone ++ s.retained

end UnitLog

------------------------------------------------------------
-- The Cursor Of A Page
------------------------------------------------------------

section Pages

variable [Name.LetterCase]
variable [TimeText]
variable [EntrySize]
variable {r : Request}
variable {es : List (Bool × Entry)}

/- The cursor stands for the last entry, one of the records `S`. -/
def Stands (S : Entry → Prop) (out : List Entry) (next : List Char) :
    Prop :=
  ∀ e ∈ out.getLast?, S e ∧
    ∃ n, 1 ≤ n ∧ next = formatCursor (entryID e) n

omit [Name.LetterCase] in
/- A page that ends early holds what was found so far. -/
theorem scanMatch_error
    {archive : Bool}
    {st : Scan}
    {e : Entry}
    {page : Page}
    (h : scanMatch r archive st e = .error page) :
    page.entries = st.out ∧ page.next = st.next := by
  rcases scanMatch_cases r archive st e with
    ⟨st₁, hOk | ⟨hDue, _⟩, hOut, hNext⟩
  · rw [hOk] at h
    cases h
  · rw [hDue] at h
    unfold deliver at h
    split at h
    · cases h
      exact ⟨hOut, hNext⟩
    · cases h

variable {S : Entry → Prop}

theorem scanAll_stands
    {st : Scan}
    (hStands : Stands S st.out st.next)
    (hS : ∀ p ∈ es, S p.2) :
    Stands S (pageOf (scanAll r st es)).entries
      (pageOf (scanAll r st es)).next := by
  induction es generalizing st with
  | nil => exact hStands
  | cons p es ih =>
      rw [scanAll_cons]
      have hMore : ∀ p ∈ es, S p.2 :=
        fun x hx => hS x (List.mem_cons_of_mem _ hx)
      simp only [scanLine]
      split
      · cases hLine : scanMatch r p.1 st p.2 with
        | error page =>
            rcases scanMatch_error hLine with ⟨hOut, hNext⟩
            show Stands S page.entries page.next
            rw [hOut, hNext]
            exact hStands
        | ok st' =>
            refine ih ?_ hMore
            rcases scanMatch_noted hLine with
              ⟨hOut, hNext⟩ | ⟨hOut, hNext⟩
            · rw [hOut, hNext]
              exact hStands
            · intro e he
              rw [hOut, List.getLast?_concat, Option.mem_some_iff] at he
              subst he
              exact ⟨hS p List.mem_cons_self, hNext⟩
      · exact ih hStands hMore

/-
  If all records are newer than the cursor, a record of an
  archive ends the search for the cursor's record.
-/
theorem scanAll_newer
    (st : Scan)
    (hNewer : ∀ p ∈ es, r.cursorTS < p.2.timestamp)
    (hCursor : ∀ p ∈ es, entryID p.2 ≠ r.wantID)
    (hFirst :
      ∀ p ∈ (es.filter
        (fun p => p.2.Matches r.unit r.since)).head?, p.1 = true) :
    pageOf (scanAll r st es) =
      pageOf (scanAll r { st with past := true } es) := by
  induction es with
  | nil => rfl
  | cons p es ih =>
      rw [scanAll_cons, scanAll_cons]
      by_cases hMatch : p.2.Matches r.unit r.since
      · have hArchive : p.1 = true := by
          apply hFirst
          rw [List.filter_cons_of_pos (by simpa using hMatch)]
          rfl
        have hTime := hNewer p List.mem_cons_self
        have hID := hCursor p List.mem_cons_self
        have hSame :
            scanLine r p.1 st (some p.2) =
              scanLine r p.1 { st with past := true } (some p.2) := by
          have hNotOld : ¬ p.2.timestamp < r.cursorTS := by
            omega
          have hSome : p.2.timestamp ≠ 0 := by
            omega
          simp only [scanLine, if_pos hMatch, scanMatch, hNotOld,
            and_false, if_false, Scan.count, if_true, if_neg hID,
            hArchive, hSome, hTime, ne_eq, not_false_eq_true, and_self]
          cases st.past with
          | false => rfl
          | true => rfl
        rw [hSame]
      · rw [scanLine_other hMatch, scanLine_other hMatch]
        refine ih (fun x hx => hNewer x (List.mem_cons_of_mem _ hx))
          (fun x hx => hCursor x (List.mem_cons_of_mem _ hx)) ?_
        rw [List.filter_cons_of_neg (by simpa using hMatch)] at hFirst
        exact hFirst

/- In the current file nothing but its record ends the search. -/
theorem scanAll_stuck
    {st : Scan}
    (hPast : st.past = false)
    (hCurrent : ∀ p ∈ es, p.2.Matches r.unit r.since → p.1 = false)
    (hCursor : ∀ p ∈ es, entryID p.2 ≠ r.wantID) :
    (pageOf (scanAll r st es)).entries = st.out := by
  induction es generalizing st with
  | nil => rfl
  | cons p es ih =>
      have hLine :
          ∃ st', scanLine r p.1 st (some p.2) = .ok st' ∧
            st'.past = false ∧ st'.out = st.out := by
        simp only [scanLine]
        split
        · rename_i hMatch
          have hFile := hCurrent p List.mem_cons_self hMatch
          have hID := hCursor p List.mem_cons_self
          unfold scanMatch
          split
          · exact ⟨st, rfl, hPast, rfl⟩
          · refine ⟨st.count (entryID p.2), ?_, hPast, rfl⟩
            simp only [Scan.count, hPast, hFile, if_neg hID,
              Bool.false_eq_true, false_and, if_false]
        · exact ⟨st, rfl, hPast, rfl⟩
      rcases hLine with ⟨st', hLine, hPast', hOut⟩
      rw [scanAll_cons, hLine, ← hOut]
      exact ih hPast' (fun x hx => hCurrent x (List.mem_cons_of_mem _ hx))
        (fun x hx => hCursor x (List.mem_cons_of_mem _ hx))

end Pages

------------------------------------------------------------
-- Resuming
------------------------------------------------------------

namespace UnitLog

section Resuming

variable [Name.LetterCase]
variable [TimeText]
variable [EntrySize]
variable {earlier s : UnitLog}
variable {gone : List Entry}

omit [Name.LetterCase] [TimeText] [EntrySize] in
theorem History.ordered
    (h : History earlier gone s)
    {es : List Entry}
    (hSub : es.Sublist (gone ++ s.retained)) :
    Ordered es where
  times := (h.increasing.sublist hSub).imp Nat.le_of_lt
  nonzero := fun e he => h.nonzero e (hSub.subset he)

/- The page of a request. -/
theorem scan_files
    (hOrdered : Ordered s.retained)
    (r : Request) :
    scan r s.files = pageOf (scanAll r r.begin s.lines) := by
  rw [scan_eq_pageOf, lines, ← scanFiles_eq hOrdered]
  rfl

omit [TimeText] [EntrySize] in
/- The first record that a query asks for is in an archive. -/
theorem first_archived
    {unit : String}
    {since : Nat}
    (s : UnitLog)
    (hArchive :
      (∃ x ∈ s.archives.flatten, x.Matches unit since) ∨
        ∀ x ∈ s.current, ¬ x.Matches unit since) :
    ∀ p ∈ (s.lines.filter (fun p => p.2.Matches unit since)).head?,
      p.1 = true := by
  intro p hp
  unfold lines at hp
  rw [List.filter_append, List.head?_append] at hp
  rcases Option.or_eq_some_iff.mp hp with hOld | ⟨hNone, hNew⟩
  · have hMem := List.mem_of_mem_filter (List.mem_of_mem_head? hOld)
    rcases List.mem_map.mp hMem with ⟨x, _, rfl⟩
    rfl
  · have hMem := List.mem_of_mem_head? hNew
    rw [List.mem_filter, List.mem_map, decide_eq_true_eq] at hMem
    rcases hMem with ⟨⟨y, hy, rfl⟩, hMatch⟩
    rcases hArchive with ⟨x, hx, hFound⟩ | hEmpty
    · rw [List.head?_eq_none_iff, List.filter_eq_nil_iff] at hNone
      refine absurd (decide_eq_true hFound) (hNone (true, x) ?_)
      rw [List.mem_flatten] at hx
      simpa using hx
    · exact absurd hMatch (hEmpty y hy)

/- The cursor of a request is that of an older record. -/
structure Outdates (r : Request) (e : Entry) : Prop where
  time : r.cursorTS = e.timestamp
  past : r.begin.past = false
  other : ∀ x, e.timestamp < x.timestamp → entryID x ≠ r.wantID

omit [Name.LetterCase] [EntrySize] in
theorem outdates_formatCursor
    {r : Request}
    {e : Entry}
    {n : Nat}
    (hTime : e.timestamp ≠ 0)
    (hn : 1 ≤ n)
    (hCursor : r.cursor = formatCursor (entryID e) n) :
    Outdates r e := by
  have hID : r.wantID = entryID e ∨ r.wantID = r.cursor := by
    rw [Request.wantID, hCursor, parse_formatCursor_cases _ hn]
    split
    · exact Or.inl rfl
    · exact Or.inr rfl
  refine ⟨?_, ?_, ?_⟩
  · rw [Request.cursorTS]
    rcases hID with hID | hID
    · rw [hID, cursorTime_entryID hTime]
    · rw [hID, hCursor, cursorTime_formatCursor hTime]
  · simp [Request.begin, hCursor, formatCursor_ne_nil]
  · intro x hLate hSame
    rcases hID with hID | hID
    · have hEq :=
        timestamp_eq_of_entryID (by omega) hTime (hSame.trans hID)
      omega
    · rw [hID, hCursor] at hSame
      exact entryID_ne_formatCursor _ _ _ hSame

/- The cursor of a page is that of its last record. -/
theorem outdates_of_query
    {asked r : Request}
    {e : Entry}
    (h : History earlier gone s)
    (hLast : (scan asked earlier.files).entries.getLast? = some e)
    (hCursor : r.cursor = (scan asked earlier.files).next) :
    Outdates r e := by
  have hWas := h.ordered h.earlier.sublist
  rw [scan_files hWas] at hLast hCursor
  have hLines : ∀ p ∈ earlier.lines, p.2 ∈ gone ++ s.retained := by
    intro p hp
    apply h.earlier.subset
    rw [← map_snd_lines]
    exact List.mem_map_of_mem hp
  have hStands : Stands (· ∈ gone ++ s.retained) [] asked.cursor :=
    fun e he => nomatch he
  rcases scanAll_stands hStands hLines e hLast with
    ⟨hWritten, n, hn, hNext⟩
  exact outdates_formatCursor (h.nonzero e hWritten) hn
    (hCursor.trans hNext)

namespace Outdates

variable {r : Request}
variable {e : Entry}
variable (hAt : Outdates r e)
variable (hOrdered : Ordered s.retained)
variable (hNewer : ∀ x ∈ s.retained, e.timestamp < x.timestamp)

include hAt hOrdered hNewer

/- The page from an archive on. -/
theorem resumes
    (hArchive :
      (∃ x ∈ s.archives.flatten, x.Matches r.unit r.since) ∨
        ∀ x ∈ s.current, ¬ x.Matches r.unit r.since)
    (hRoom :
      ∀ x ∈ (matching r.unit r.since s.retained).head?,
        ¬ r.Exceeds 0 x) :
    (scan r s.files).entries =
      fit r 0 (matching r.unit r.since s.retained) := by
  have hAll :
      matchingOf r s.lines = matching r.unit r.since s.retained := by
    rw [matchingOf, map_snd_lines]
  have hLine : ∀ p ∈ s.lines, e.timestamp < p.2.timestamp := by
    intro p hp
    apply hNewer
    rw [← map_snd_lines]
    exact List.mem_map_of_mem hp
  have hSeen :
      ∀ x ∈ matchingOf r s.lines,
        { r.begin with past := true }.seen (entryID x) =
          (([] : List Entry).map entryID).count (entryID x) :=
    fun _ _ => rfl
  rw [scan_files hOrdered,
    scanAll_newer _ (by rw [hAt.time]; exact hLine)
      (fun p hp => hAt.other p.2 (hLine p hp))
      (s.first_archived hArchive),
    page_of_past (by rfl) hSeen
      (Or.inr (by rw [hAll]; exact hRoom)), hAll]
  rfl

/- Only the current file holds records that are asked for. -/
theorem stalls
    (hArchives :
      ∀ x ∈ s.archives.flatten, ¬ x.Matches r.unit r.since) :
    (scan r s.files).entries = [] := by
  rw [scan_files hOrdered]
  refine scanAll_stuck hAt.past ?_ ?_
  · intro p hp hMatch
    rcases List.mem_append.mp hp with hOld | hNew
    · rcases List.mem_map.mp hOld with ⟨y, hy, rfl⟩
      refine absurd hMatch (hArchives y ?_)
      simpa using hy
    · rcases List.mem_map.mp hNew with ⟨y, _, rfl⟩
      rfl
  · intro p hp
    apply hAt.other
    apply hNewer
    rw [← map_snd_lines]
    exact List.mem_map_of_mem hp

end Outdates

/-
  A cursor that a query returned for a record that is gone: the
  next query returns every retained record newer than it, as
  far as the budget allows, exactly if an archive holds a record
  that the query asks for, or the current file holds none.
-/
theorem cursor_resumes
    {asked r : Request}
    {e : Entry}
    (h : History earlier gone s)
    (hLast : (scan asked earlier.files).entries.getLast? = some e)
    (hCursor : r.cursor = (scan asked earlier.files).next)
    (hGone : e ∈ gone) :
    ∃ newer,
      newer =
        matching r.unit r.since
          (s.retained.filter (fun x => e.timestamp < x.timestamp)) ∧
      ((∀ x ∈ newer.head?, ¬ r.Exceeds 0 x) →
        ((∃ x ∈ s.archives.flatten, x.Matches r.unit r.since) ∨
            (∀ x ∈ s.current, ¬ x.Matches r.unit r.since) ↔
          (r.maxBytes = 0 → (scan r s.files).entries = newer) ∧
            (scan r s.files).entries <+: newer ∧
            ((scan r s.files).entries = [] ↔ newer = []))) := by
  have hAt := outdates_of_query h hLast hCursor
  have hOrdered := h.ordered (List.sublist_append_right gone _)
  -- what is retained is newer
  have hNewer : ∀ x ∈ s.retained, e.timestamp < x.timestamp :=
    (List.pairwise_append.mp h.increasing).2.2 e hGone
  refine ⟨_, rfl, ?_⟩
  rw [List.filter_eq_self.mpr (by simpa using hNewer)]
  intro hRoom
  constructor
  · intro hArchive
    rw [hAt.resumes hOrdered hNewer hArchive hRoom]
    exact ⟨fun hZero => fit_unlimited 0 _ hZero, fit_prefix _ _ _,
      fit_eq_nil_iff hRoom⟩
  · rintro ⟨-, -, hEmpty⟩
    by_contra hNone
    rw [not_or, not_exists, not_forall] at hNone
    rcases hNone with ⟨hArchives, x, hx⟩
    rw [Classical.not_imp, not_not] at hx
    have hPage :=
      hAt.stalls hOrdered hNewer
        (fun y hy hMatch => hArchives y ⟨hy, hMatch⟩)
    have hSome : x ∈ matching r.unit r.since s.retained :=
      List.mem_filter.mpr
        ⟨List.mem_append_right _ hx.1, decide_eq_true hx.2⟩
    rw [hEmpty.mp hPage] at hSome
    cases hSome

end Resuming

section Runs

local instance evictedCase : Name.LetterCase := Name.asciiCase

local instance evictedTimes : TimeText := decimalTimes

local instance evictedSize : EntrySize := ⟨fun e => e.message.length⟩

/- A query of everything that follows a cursor. -/
def anything (cursor : List Char) : Request where
  unit := "a.service"
  since := 0
  cursor := cursor
  maxBytes := 0

/- A log whose current file holds one record. -/
def single (timestamp : UInt8) (message : String) : UnitLog where
  archives := []
  current := [Reader.piece timestamp message false]

def singleCursor : List Char :=
  (scan (anything []) (single 1 "a").files).next

theorem cursor_resumes_pruned :
    (scan (anything singleCursor)
        (UnitLog.mk [[Reader.piece 2 "b" false]]
          [Reader.piece 3 "c" false]).files).entries =
      [Reader.piece 2 "b" false, Reader.piece 3 "c" false] := by
  have hHistory :
      History (single 1 "a") [Reader.piece 1 "a" false]
        ⟨[[Reader.piece 2 "b" false]], [Reader.piece 3 "c" false]⟩ :=
    ⟨by decide +kernel, by decide +kernel, ⟨[], _, rfl⟩⟩
  have hLast :
      (scan (anything []) (single 1 "a").files).entries.getLast? =
        some (Reader.piece 1 "a" false) := by
    decide +kernel
  rcases cursor_resumes (r := anything singleCursor) hHistory hLast
      rfl List.mem_cons_self with ⟨_, rfl, hResumes⟩
  have hEntries :=
    ((hResumes (by decide +kernel)).mp (Or.inl (by decide +kernel))).1
  exact (hEntries rfl).trans (by decide +kernel)

/-
  All files were pruned, and the new record is in the current
  one, where only the record of the cursor ends the search.
-/
theorem pruned_cursor_stalls :
    History (single 1 "a") [Reader.piece 1 "a" false] (single 2 "b") ∧
      (scan (anything []) (single 1 "a").files).entries =
        [Reader.piece 1 "a" false] ∧
      scan (anything singleCursor) (single 2 "b").files =
        ⟨[], singleCursor, false, none⟩ :=
  ⟨⟨by decide +kernel, by decide +kernel, ⟨[], _, rfl⟩⟩,
    by decide +kernel, by decide +kernel⟩

end Runs

end UnitLog

end Journal

end Winunitd
