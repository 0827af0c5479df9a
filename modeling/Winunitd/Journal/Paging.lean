import Winunitd.Journal.Scan

/-
  Exactness of log pages.

  A cursor is read as the split of the matching records at
  its record.  `page_at` shows that a page holds the records
  right after that split, as far as the budget goes, when the
  cursor's count fits the files: no record with the cursor's
  identifier has been rotated off.  A reader that follows the
  cursors then gets every record once.

  Key definitions include:
    * `cursorOf`, `follow`, `fit`
    * `Ordered`
    * `Reader.Keeps`
    * `Reader.Paged`

  Key theorems include:
    * `scanFiles_eq`
    * `page_at`
    * `Reader.Paged.step`
    * `Reader.paging_exact`
-/

------------------------------------------------------------
-- Positions
------------------------------------------------------------

namespace Winunitd

namespace Journal

/- Times never go back, and none is the zero time. -/
structure Ordered (es : List Entry) : Prop where
  times : es.Pairwise (fun a b => a.timestamp ≤ b.timestamp)
  nonzero : ∀ e ∈ es, e.timestamp ≠ 0

theorem Ordered.sublist
    {es fs : List Entry}
    (h : Ordered es)
    (hSub : fs.Sublist es) :
    Ordered fs :=
  ⟨h.times.sublist hSub, fun e he => h.nonzero e (hSub.subset he)⟩

section Positions

variable [TimeText]

/- The cursor of a record that follows the records `before`. -/
def cursorOf (before : List Entry) (e : Entry) : List Char :=
  formatCursor (entryID e)
    ((before.map entryID).count (entryID e) + 1)

/- The cursor after some more records. -/
def follow : List Char → List Entry → List Entry → List Char
| next, _, [] => next
| _, before, e :: es =>
    follow (cursorOf before e) (before ++ [e]) es

variable {r : Request}
variable {st : Scan}
variable {e : Entry}
variable {es before : List Entry}
variable {time : Nat}
variable {cursor : List Char}

/- Records with the same identifier have the same time. -/
theorem timestamp_eq_of_entryID
    {a b : Entry}
    (ha : a.timestamp ≠ 0)
    (hb : b.timestamp ≠ 0)
    (h : entryID a = entryID b) :
    a.timestamp = b.timestamp := by
  rw [← cursorTime_entryID ha, ← cursorTime_entryID hb, h]

/- A skipped archive holds older records only. -/
theorem older_of_skips
    (hOrdered : Ordered es)
    (h : r.Skips (es.map some)) :
    ∀ e ∈ es, e.timestamp < r.cursorTS := by
  rcases h with ⟨_, hLast, hOld⟩
  unfold peekLastTimestamp at hLast hOld
  rw [List.getLast?_map] at hLast hOld
  cases hGet : es.getLast? with
  | none =>
      rw [hGet] at hLast
      exact absurd rfl hLast
  | some last =>
      rw [hGet] at hOld
      simp only [Option.map_some] at hOld
      have hSplit := List.dropLast_append_getLast? last hGet
      have hTimes := hOrdered.times
      rw [← hSplit, List.pairwise_append] at hTimes
      intro e he
      rw [← hSplit] at he
      rcases List.mem_append.mp he with hInit | hEnd
      · exact lt_of_le_of_lt
          (hTimes.2.2 e hInit last List.mem_cons_self) hOld
      · rw [List.mem_singleton.mp hEnd]
        exact hOld

/- Records like the cursor's are not older than it. -/
theorem not_older_of_wantID
    (hID : entryID e = r.wantID) :
    ¬ (e.timestamp ≠ 0 ∧ e.timestamp < r.cursorTS) := by
  rintro ⟨hTime, hOld⟩
  have hTS : r.cursorTS = e.timestamp := by
    unfold Request.cursorTS
    rw [← hID, cursorTime_entryID hTime]
  omega

/- Counting a record counts it among those before. -/
theorem seen_count
    {x : Entry}
    (h : st.seen (entryID x) = (before.map entryID).count (entryID x))
    (e : Entry) :
    (st.count (entryID e)).seen (entryID x) =
      ((before ++ [e]).map entryID).count (entryID x) := by
  unfold Scan.count
  simp only [Function.update_apply, List.map_append, List.map_cons,
    List.map_nil, List.count_append, List.count_singleton]
  by_cases hEq : entryID x = entryID e
  · rw [if_pos hEq, ← hEq, h]
    simp
  · rw [if_neg hEq, h]
    simp [Ne.symm hEq]

/- The records `before` that are not older than `time` are counted. -/
def CountedFrom (time : Nat) (before : List Entry) (st : Scan) : Prop :=
  ∀ x, time ≤ x.timestamp → x.timestamp ≠ 0 →
    st.seen (entryID x) = (before.map entryID).count (entryID x)

theorem CountedFrom.count
    (h : CountedFrom time before st)
    (e : Entry) :
    CountedFrom time (before ++ [e]) (st.count (entryID e)) :=
  fun x hx hTime => seen_count (h x hx hTime) e

theorem CountedFrom.older
    (h : CountedFrom time before st)
    (hTime : e.timestamp ≠ 0)
    (hOlder : e.timestamp < time) :
    CountedFrom time (before ++ [e]) st := by
  intro x hx hxTime
  have hNe : entryID e ≠ entryID x := by
    intro hEq
    have hSame := timestamp_eq_of_entryID hTime hxTime hEq
    omega
  rw [h x hx hxTime, List.map_append, List.count_append]
  simp [hNe]

/- The cursor is positioned after the records `before`. -/
def CursorAt (cursor : List Char) (before : List Entry) : Prop :=
  cursor = [] ∧ before = [] ∨
    ∃ first e, before = first ++ [e] ∧ cursor = cursorOf first e

/- The empty cursor is the first position only. -/
theorem cursorAt_nil
    (h : CursorAt cursor before)
    (hNil : cursor = []) :
    before = [] := by
  rcases h with ⟨_, hBefore⟩ | ⟨first, e, _, hCursor⟩
  · exact hBefore
  · rw [hNil] at hCursor
    exact absurd hCursor.symm (formatCursor_ne_nil _ _)

/- Following records moves the position past them. -/
theorem cursorAt_follow
    (h : CursorAt cursor before)
    (es : List Entry) :
    CursorAt (follow cursor before es) (before ++ es) := by
  induction es generalizing cursor before with
  | nil =>
      rw [List.append_nil]
      exact h
  | cons e es ih =>
      rw [List.append_cons]
      exact ih (Or.inr ⟨before, e, rfl, rfl⟩)

/- Positions further on have other cursors. -/
theorem cursorAt_ne
    {cursor cursor' : List Char}
    (h : CursorAt cursor before)
    (h' : CursorAt cursor' (before ++ es))
    (hSome : es ≠ []) :
    cursor' ≠ cursor := by
  rcases h' with ⟨_, hNil⟩ | ⟨first', e', hBefore', rfl⟩
  · exact absurd (List.append_eq_nil_iff.mp hNil).2 hSome
  rcases h with ⟨rfl, _⟩ | ⟨first, e, rfl, rfl⟩
  · exact formatCursor_ne_nil _ _
  · intro hEq
    rcases formatCursor_injective (Nat.succ_pos _) (Nat.succ_pos _)
        hEq with ⟨hID, hCount⟩
    -- the later record counts the earlier one
    have hInit : first ++ [e] <+: first' := by
      rcases List.eq_nil_or_concat es with hNil | ⟨init, last, rfl⟩
      · exact absurd hNil hSome
      · rw [List.concat_eq_append, ← List.append_assoc] at hBefore'
        rw [← List.append_inj_left' hBefore' rfl]
        exact List.prefix_append _ _
    have hMore :=
      (hInit.sublist.map entryID).count_le (entryID e)
    rw [List.map_append, List.count_append] at hMore
    simp only [List.map_cons, List.map_nil,
      List.count_singleton_self] at hMore
    rw [hID] at hCount
    omega

theorem parse_cursorOf
    {first : List Entry}
    {e : Entry}
    (hFew : (first ++ [e]).length ≤ maxInt) :
    parseCursor (cursorOf first e) =
      (entryID e, (first.map entryID).count (entryID e) + 1) := by
  have hCount : (first.map entryID).count (entryID e) ≤ first.length := by
    simpa using List.count_le_length (a := entryID e)
      (l := first.map entryID)
  rw [List.length_append, List.length_singleton] at hFew
  exact parse_formatCursor _ (Nat.succ_pos _) (by omega)

/-
  Records removed from before the cursor leave its count as it
  was, if none of them has its identifier.
-/
theorem cursorAt_drop
    {before rest off kept : List Entry}
    (hAt : CursorAt cursor before)
    (hSome : cursor ≠ [])
    (hSplit : before ++ rest = off ++ kept)
    (hFew : before.length ≤ maxInt)
    (hOther : ∀ x ∈ off, entryID x ≠ (parseCursor cursor).1) :
    ∃ before', CursorAt cursor before' ∧ kept = before' ++ rest := by
  rcases hAt with ⟨hNil, _⟩ | ⟨first, e, rfl, rfl⟩
  · exact absurd hNil hSome
  have hParse := parse_cursorOf hFew
  have hOff : ∀ x ∈ off, entryID x ≠ entryID e := by
    intro x hx
    have hNe := hOther x hx
    rw [hParse] at hNe
    exact hNe
  rcases List.append_eq_append_iff.mp hSplit with
    ⟨more, hMore, _⟩ | ⟨before', hBefore, hKept⟩
  · -- the record of the cursor would be among those removed
    refine absurd rfl (hOff e ?_)
    rw [hMore]
    simp
  · refine ⟨before', Or.inr ?_, hKept⟩
    rcases List.eq_nil_or_concat before' with rfl | ⟨init, last, rfl⟩
    · refine absurd rfl (hOff e ?_)
      rw [List.append_nil] at hBefore
      rw [← hBefore]
      simp
    · rw [List.concat_eq_append, ← List.append_assoc] at hBefore
      rcases List.append_inj' hBefore rfl with ⟨rfl, hLast⟩
      rw [List.singleton_inj] at hLast
      subst hLast
      refine ⟨init, e, List.concat_eq_append, ?_⟩
      have hNone : (off.map entryID).count (entryID e) = 0 := by
        rw [List.count_eq_zero, List.mem_map]
        rintro ⟨x, hx, hID⟩
        exact hOff x hx hID
      unfold cursorOf
      rw [List.map_append, List.count_append, hNone, Nat.zero_add]

end Positions

/- The records that fit into a page, from the first one on. -/
def fit [EntrySize] (r : Request) : Nat → List Entry → List Entry
| _, [] => []
| used, e :: es =>
    if r.Exceeds used e then []
    else
      e ::
        fit r
          (if 0 < r.maxBytes then
            used + EntrySize.encodedSize e + 1
          else
            used)
          es

section

variable [EntrySize]
variable {r : Request}
variable {es : List Entry}

theorem fit_prefix
    (r : Request)
    (used : Nat)
    (es : List Entry) :
    fit r used es <+: es := by
  induction es generalizing used with
  | nil => exact List.prefix_refl _
  | cons e es ih =>
      unfold fit
      split
      · exact List.nil_prefix
      · exact List.prefix_cons_inj e |>.mpr (ih _)

/- A page without a bound holds every record. -/
theorem fit_unlimited
    (used : Nat)
    (es : List Entry)
    (h : r.maxBytes = 0) :
    fit r used es = es := by
  induction es generalizing used with
  | nil => rfl
  | cons e es ih =>
      unfold fit
      rw [if_neg (fun hExceeds => hExceeds.1.ne' h), ih]

/- A page is empty only if no record is left. -/
theorem fit_eq_nil_iff
    {used : Nat}
    (hRoom : ∀ e, es.head? = some e → ¬ r.Exceeds used e) :
    fit r used es = [] ↔ es = [] := by
  cases es with
  | nil => simp [fit]
  | cons e es =>
      unfold fit
      rw [if_neg (hRoom e rfl)]
      simp

end

/- The result of a scan as a page. -/
def pageOf : Except Page Scan → Page
| .error page => page
| .ok st =>
    { entries := st.out, next := st.next, more := false, err := none }

------------------------------------------------------------
-- Skipped Archives
------------------------------------------------------------

section Pages

variable [Name.LetterCase]
variable [TimeText]
variable [EntrySize]
variable {r : Request}

/- Scan entries, each with the kind of its file. -/
def scanAll
    (r : Request)
    (st : Scan)
    (es : List (Bool × Entry)) :
    Except Page Scan :=
  es.foldlM (fun st p => scanLine r p.1 st (some p.2)) st

theorem scanAll_cons
    (st : Scan)
    (p : Bool × Entry)
    (es : List (Bool × Entry)) :
    scanAll r st (p :: es) =
      (scanLine r p.1 st (some p.2)).bind
        (fun st => scanAll r st es) := by
  unfold scanAll
  rw [List.foldlM_cons]
  rfl

theorem scanAll_append
    (st : Scan)
    (es fs : List (Bool × Entry)) :
    scanAll r st (es ++ fs) =
      (scanAll r st es).bind (fun st => scanAll r st fs) := by
  unfold scanAll
  rw [List.foldlM_append]
  rfl

theorem scanFile_eq
    (archive : Bool)
    (st : Scan)
    (es : List Entry) :
    scanFile r archive st (es.map some) =
      scanAll r st (es.map (fun e => (archive, e))) := by
  unfold scanFile scanAll
  rw [List.foldlM_map, List.foldlM_map]

variable {st : Scan}
variable {archive : Bool}
variable {e : Entry}

/- Before the cursor was found, older records are passed by. -/
theorem scanLine_older
    (hPast : st.past = false)
    (hTime : e.timestamp ≠ 0)
    (hOld : e.timestamp < r.cursorTS) :
    scanLine r archive st (some e) = .ok st := by
  simp only [scanLine]
  split
  · unfold scanMatch
    rw [if_pos ⟨hPast, by omega, hTime, hOld⟩]
  · rfl

variable {es : List Entry}

theorem scanAll_older
    (hPast : st.past = false)
    (hTimes : ∀ e ∈ es, e.timestamp ≠ 0)
    (hOld : ∀ e ∈ es, e.timestamp < r.cursorTS) :
    scanAll r st (es.map (fun e => (archive, e))) = .ok st := by
  induction es with
  | nil => rfl
  | cons e es ih =>
      rw [List.map_cons, scanAll_cons,
        scanLine_older hPast (hTimes e List.mem_cons_self)
          (hOld e List.mem_cons_self)]
      exact ih (fun x hx => hTimes x (List.mem_cons_of_mem _ hx))
        (fun x hx => hOld x (List.mem_cons_of_mem _ hx))

/- The cursor is found at a record that is not older. -/
theorem past_scanLine
    {st st' : Scan}
    (hTime : e.timestamp ≠ 0)
    (h : scanLine r archive st (some e) = .ok st')
    (hPast : st'.past = true) :
    st.past = true ∨ r.cursorTS ≤ e.timestamp := by
  simp only [scanLine] at h
  split at h
  case isFalse =>
    cases h
    exact Or.inl hPast
  unfold scanMatch at h
  split at h
  · cases h
    exact Or.inl hPast
  rename_i hNotOld
  by_cases hBefore : st.past = true
  · exact Or.inl hBefore
  · right
    by_contra hOld
    exact hNotOld ⟨by simpa using hBefore, by omega, hTime, by omega⟩

theorem past_scanAll
    {st st' : Scan}
    {es : List (Bool × Entry)}
    (hTimes : ∀ p ∈ es, p.2.timestamp ≠ 0)
    (h : scanAll r st es = .ok st')
    (hPast : st'.past = true) :
    st.past = true ∨ ∃ p ∈ es, r.cursorTS ≤ p.2.timestamp := by
  induction es generalizing st with
  | nil =>
      cases h
      exact Or.inl hPast
  | cons p es ih =>
      rw [scanAll_cons] at h
      cases hStep : scanLine r p.1 st (some p.2) with
      | error page =>
          rw [hStep] at h
          cases h
      | ok mid =>
          rw [hStep] at h
          rcases ih (fun x hx => hTimes x (List.mem_cons_of_mem _ hx))
              h with hMid | ⟨x, hx, hTime⟩
          · rcases past_scanLine (hTimes p List.mem_cons_self) hStep
                hMid with hOld | hTime
            · exact Or.inl hOld
            · exact Or.inr ⟨p, List.mem_cons_self, hTime⟩
          · exact Or.inr ⟨x, List.mem_cons_of_mem _ hx, hTime⟩

/- Skipping an archive is the same as scanning it. -/
theorem scanArchives_eq
    {earlier : List Entry}
    {fs : List (List Entry)}
    (hOrdered : Ordered (earlier ++ fs.flatten))
    (hPast :
      st.past = true →
        r.cursorTS = 0 ∨ ∃ x ∈ earlier, r.cursorTS ≤ x.timestamp) :
    (fs.map (fun f => f.map some)).foldlM (scanArchive r) st =
      scanAll r st (fs.flatten.map (fun e => (true, e))) := by
  induction fs generalizing earlier st with
  | nil => rfl
  | cons f fs ih =>
      have hFile : Ordered f := by
        apply hOrdered.sublist
        rw [List.flatten_cons]
        exact (List.sublist_append_left f _).trans
          (List.sublist_append_right _ _)
      have hNext : Ordered ((earlier ++ f) ++ fs.flatten) := by
        rw [List.append_assoc]
        exact hOrdered
      rw [List.map_cons, List.foldlM_cons, List.flatten_cons,
        List.map_append, scanAll_append]
      have hSame :
          scanArchive r st (f.map some) =
            scanAll r st (f.map (fun e => (true, e))) := by
        unfold scanArchive
        split
        · rename_i hSkips
          have hOlder := older_of_skips hFile hSkips
          rw [scanAll_older _ hFile.nonzero hOlder]
          by_contra hNot
          -- an earlier record is not older than the cursor
          rcases hPast (by simpa using hNot) with hZero | hEarlier
          · exact hSkips.1 hZero
          · rcases hEarlier with ⟨x, hx, hTime⟩
            have hSome : f ≠ [] := by
              intro hNil
              rw [hNil] at hSkips
              exact hSkips.2.1 rfl
            rcases List.exists_mem_of_ne_nil f hSome with ⟨y, hy⟩
            have hTimes := hOrdered.times
            rw [List.pairwise_append] at hTimes
            have hLe := hTimes.2.2 x hx y
              (by rw [List.flatten_cons]
                  exact List.mem_append_left _ hy)
            have hLt := hOlder y hy
            omega
        · exact scanFile_eq true st f
      rw [hSame]
      cases hScan : scanAll r st (f.map (fun e => (true, e))) with
      | error page => rfl
      | ok st' =>
          apply ih hNext
          intro hPast'
          have hTimes :
              ∀ p ∈ f.map (fun e => (true, e)),
                p.2.timestamp ≠ 0 := by
            intro p hp
            rcases List.mem_map.mp hp with ⟨e, he, rfl⟩
            exact hFile.nonzero e he
          rcases past_scanAll hTimes hScan hPast' with hOld | hFound
          · rcases hPast hOld with hZero | ⟨x, hx, hTime⟩
            · exact Or.inl hZero
            · exact Or.inr ⟨x, List.mem_append_left _ hx, hTime⟩
          · rcases hFound with ⟨p, hp, hTime⟩
            rcases List.mem_map.mp hp with ⟨e, he, rfl⟩
            exact Or.inr ⟨e, List.mem_append_right _ he, hTime⟩

theorem scan_eq_pageOf (files : LogFiles) :
    scan r files = pageOf (scanFiles r files) := by
  unfold scan pageOf
  cases scanFiles r files with
  | error page => rfl
  | ok st => rfl

variable {archives : List (List Entry)}

/- A scan goes through the retained records in order. -/
theorem scanFiles_eq
    {current : List Entry}
    (hOrdered : Ordered (archives.reverse.flatten ++ current)) :
    scanFiles r
        { archives := archives.map (fun f => f.map some)
          current := current.map some } =
      scanAll r r.begin
        (archives.reverse.flatten.map (fun e => (true, e)) ++
          current.map (fun e => (false, e))) := by
  have hArchives :
      Ordered ([] ++ archives.reverse.flatten) :=
    hOrdered.sublist (List.sublist_append_left _ _)
  unfold scanFiles
  rw [scanAll_append, ← List.map_reverse,
    scanArchives_eq hArchives ?_]
  · congr 1
    funext st
    exact scanFile_eq false st current
  · intro hPast
    left
    have hNil : r.cursor = [] := by
      simpa [Request.begin] using hPast
    unfold Request.cursorTS Request.wantID
    rw [hNil]
    rfl

------------------------------------------------------------
-- After The Cursor
------------------------------------------------------------

/- The matching ones of scanned entries. -/
def matchingOf (r : Request) (es : List (Bool × Entry)) :
    List Entry :=
  matching r.unit r.since (es.map Prod.snd)

omit [TimeText] [EntrySize] in
theorem matchingOf_cons
    (p : Bool × Entry)
    (es : List (Bool × Entry)) :
    matchingOf r (p :: es) =
      if p.2.Matches r.unit r.since then p.2 :: matchingOf r es
      else matchingOf r es := by
  unfold matchingOf matching
  rw [List.map_cons, List.filter_cons]
  by_cases h : p.2.Matches r.unit r.since
  · rw [if_pos (by simpa using h), if_pos h]
  · rw [if_neg (by simpa using h), if_neg h]

variable {before : List Entry}

variable {archive : Bool}

/- A record that does not match is passed over. -/
theorem scanLine_other
    (h : ¬ e.Matches r.unit r.since) :
    scanLine r archive st (some e) = .ok st := by
  simp only [scanLine, if_neg h]

/- Once the cursor was found, a matching record is due. -/
theorem scanLine_past
    (hMatch : e.Matches r.unit r.since)
    (hPast : st.past = true) :
    scanLine r archive st (some e) =
      deliver r (st.count (entryID e)) (entryID e) e := by
  have hStill : (st.count (entryID e)).past = true := hPast
  simp only [scanLine, if_pos hMatch, scanMatch, hPast, hStill,
    Bool.true_eq_false, false_and, if_false, if_true]

/-
  Once the cursor was found, the page takes the matching
  records as long as they fit.
-/
theorem page_of_past
    {es : List (Bool × Entry)}
    (hPast : st.past = true)
    (hSeen :
      ∀ x ∈ matchingOf r es,
        st.seen (entryID x) =
          (before.map entryID).count (entryID x))
    (hRoom :
      st.out ≠ [] ∨
        ∀ e, (matchingOf r es).head? = some e →
          ¬ r.Exceeds st.used e) :
    pageOf (scanAll r st es) =
      { entries := st.out ++ fit r st.used (matchingOf r es)
        next :=
          follow st.next before (fit r st.used (matchingOf r es))
        more :=
          decide (fit r st.used (matchingOf r es) ≠ matchingOf r es)
        err := none } := by
  induction es generalizing st before with
  | nil =>
      show pageOf (.ok st) = _
      simp [pageOf, matchingOf, matching, fit, follow]
  | cons p es ih =>
      rw [scanAll_cons]
      rw [matchingOf_cons] at hSeen hRoom ⊢
      by_cases hMatch : p.2.Matches r.unit r.since
      · rw [if_pos hMatch] at hSeen hRoom ⊢
        have hCursor :
            formatCursor (entryID p.2)
                ((st.count (entryID p.2)).seen (entryID p.2)) =
              cursorOf before p.2 := by
          rw [seen_count (hSeen p.2 List.mem_cons_self) p.2]
          unfold cursorOf
          rw [List.map_append, List.count_append]
          simp
        rw [scanLine_past hMatch hPast]
        unfold deliver
        by_cases hFull : r.Exceeds st.used p.2
        · -- the page ends here, and it is not empty
          have hOut : st.out ≠ [] := by
            rcases hRoom with hSome | hFits
            · exact hSome
            · exact absurd hFull (hFits p.2 rfl)
          have hStill : r.Exceeds (st.count (entryID p.2)).used p.2 :=
            hFull
          have hIsEmpty : st.out.isEmpty = false := by
            simpa using hOut
          rw [if_pos hStill]
          simp [pageOf, fit, hFull, follow, Scan.count, Except.bind,
            hIsEmpty]
        · have hStill :
              ¬ r.Exceeds (st.count (entryID p.2)).used p.2 := hFull
          have hNext :=
            ih
              (show ((st.count (entryID p.2)).add r (entryID p.2)
                p.2).past = true from hPast)
              (fun x hx =>
                seen_count (hSeen x (List.mem_cons_of_mem _ hx)) p.2)
              (Or.inl (by simp [Scan.add]))
          rw [if_neg hStill]
          refine hNext.trans ?_
          simp only [Scan.add, hCursor, fit, if_neg hFull, follow,
            List.append_assoc, List.singleton_append, ne_eq,
            List.cons.injEq, true_and]
          rfl
      · rw [if_neg hMatch] at hSeen hRoom ⊢
        rw [scanLine_other hMatch]
        exact ih hPast hSeen hRoom

------------------------------------------------------------
-- Up To The Cursor
------------------------------------------------------------

/-
  A record before the cursor's that is not older is counted: it
  has another identifier, or the cursor's one for an earlier
  time.
-/
theorem scanLine_ahead
    (hMatch : e.Matches r.unit r.since)
    (hPast : st.past = false)
    (hOld : ¬ (e.timestamp ≠ 0 ∧ e.timestamp < r.cursorTS))
    (hNotAfter :
      ¬ (archive = true ∧ e.timestamp ≠ 0 ∧ r.cursorTS < e.timestamp))
    (hLess :
      entryID e = r.wantID →
        (st.count (entryID e)).seen (entryID e) < r.wantN) :
    scanLine r archive st (some e) = .ok (st.count (entryID e)) := by
  have hBefore : (st.count (entryID e)).past = false := hPast
  simp only [scanLine, if_pos hMatch, scanMatch, hOld, and_false,
    hBefore, Bool.false_eq_true, if_false]
  by_cases hSame : entryID e = r.wantID
  · have hLt := hLess hSame
    rw [if_pos hSame, if_pos (Nat.le_of_lt hLt),
      decide_eq_false (Nat.ne_of_lt hLt), ← hBefore]
  · rw [if_neg hSame, if_neg hNotAfter]

/- The cursor's record itself. -/
theorem scanLine_found
    (hMatch : e.Matches r.unit r.since)
    (hPast : st.past = false)
    (hID : entryID e = r.wantID)
    (hN : (st.count (entryID e)).seen (entryID e) = r.wantN) :
    scanLine r archive st (some e) =
      .ok { st.count (entryID e) with past := true } := by
  have hBefore : (st.count (entryID e)).past = false := hPast
  simp only [scanLine, if_pos hMatch, scanMatch,
    not_older_of_wantID hID, and_false, hBefore, Bool.false_eq_true,
    if_false, if_pos hID, hN, Nat.le_refl, if_true, decide_true]

/-
  Up to the cursor's record nothing is returned, and every
  record that is not older is counted.
-/
theorem scanAll_to_cursor
    {es : List (Bool × Entry)}
    {before ahead rest : List Entry}
    (hSplit : matchingOf r es = ahead ++ e :: rest)
    (hOrdered : Ordered (matchingOf r es))
    (hPast : st.past = false)
    (hID : r.wantID = entryID e)
    (hN :
      r.wantN =
        ((before ++ ahead).map entryID).count (entryID e) + 1)
    (hSeen : CountedFrom e.timestamp before st) :
    ∃ st' es', scanAll r st es = scanAll r st' es' ∧
      matchingOf r es' = rest ∧ st'.past = true ∧
      st'.out = st.out ∧ st'.used = st.used ∧ st'.next = st.next ∧
      CountedFrom e.timestamp (before ++ ahead ++ [e]) st' := by
  have hTime : e.timestamp ≠ 0 := by
    apply hOrdered.nonzero
    rw [hSplit]
    exact List.mem_append_right _ List.mem_cons_self
  have hTS : r.cursorTS = e.timestamp := by
    unfold Request.cursorTS
    rw [hID, cursorTime_entryID hTime]
  induction es generalizing st before ahead with
  | nil => simp [matchingOf, matching] at hSplit
  | cons p es ih =>
      rw [scanAll_cons]
      rw [matchingOf_cons] at hSplit hOrdered
      by_cases hMatch : p.2.Matches r.unit r.since
      · rw [if_pos hMatch] at hSplit hOrdered
        cases ahead with
        | nil =>
            -- the cursor's record
            rw [List.nil_append, List.cons.injEq] at hSplit
            rcases hSplit with ⟨rfl, hRest⟩
            have hCount :
                (st.count (entryID p.2)).seen (entryID p.2) =
                  r.wantN := by
              rw [hSeen.count p.2 p.2 (Nat.le_refl _) hTime, hN,
                List.append_nil, List.map_append, List.count_append]
              simp
            have hLine : scanLine r p.1 st (some p.2) = _ :=
              scanLine_found hMatch hPast hID.symm hCount
            refine ⟨{ st.count (entryID p.2) with past := true }, es,
              by rw [hLine]; rfl, hRest, rfl, rfl, rfl, rfl, ?_⟩
            rw [List.append_nil]
            exact hSeen.count p.2
        | cons a ahead =>
            rw [List.cons_append, List.cons.injEq] at hSplit
            rcases hSplit with ⟨hHead, hTail⟩
            subst hHead
            have hTail' : Ordered (matchingOf r es) :=
              hOrdered.sublist (List.sublist_cons_self _ _)
            have hLe : p.2.timestamp ≤ e.timestamp := by
              have hTimes := hOrdered.times
              rw [List.pairwise_cons] at hTimes
              apply hTimes.1
              rw [hTail]
              exact List.mem_append_right _ List.mem_cons_self
            have hpTime : p.2.timestamp ≠ 0 :=
              hOrdered.nonzero _ List.mem_cons_self
            have hN' :
                r.wantN =
                  (((before ++ [p.2]) ++ ahead).map entryID).count
                    (entryID e) + 1 := by
              rw [hN, List.append_assoc, List.singleton_append]
            rw [List.append_cons before]
            rcases Nat.lt_or_ge p.2.timestamp e.timestamp with
              hOlder | hEqual
            · -- an older record is not counted
              rw [scanLine_older hPast hpTime (by omega)]
              exact ih hTail hTail' hPast hN'
                (hSeen.older hpTime hOlder)
            · rw [scanLine_ahead hMatch hPast (by omega) (by omega) ?_]
              · exact ih hTail hTail' hPast hN' (hSeen.count p.2)
              · -- an earlier record with the same identifier
                intro hSame
                rw [hSeen.count p.2 p.2 hEqual hpTime, hN', ← hID,
                  ← hSame]
                apply Nat.lt_succ_of_le
                exact ((List.sublist_append_left _ _).map
                  entryID).count_le _
      · rw [if_neg hMatch] at hSplit hOrdered
        rw [scanLine_other hMatch]
        exact ih hSplit hOrdered hPast hN hSeen

/-
  A page at a position holds the next records that fit, and
  its cursor is at the position after them.
-/
theorem page_at
    {current before rest : List Entry}
    (hOrdered : Ordered (archives.reverse.flatten ++ current))
    (hAt : CursorAt r.cursor before)
    (hMatching :
      matching r.unit r.since (archives.reverse.flatten ++ current) =
        before ++ rest)
    (hFew : before.length ≤ maxInt)
    (hRoom : ∀ e, rest.head? = some e → ¬ r.Exceeds 0 e) :
    scan r
        { archives := archives.map (fun f => f.map some)
          current := current.map some } =
      { entries := fit r 0 rest
        next := follow r.cursor before (fit r 0 rest)
        more := decide (fit r 0 rest ≠ rest)
        err := none } := by
  have hAll :
      matchingOf r
          (archives.reverse.flatten.map (fun e => (true, e)) ++
            current.map (fun e => (false, e))) =
        before ++ rest := by
    rw [← hMatching]
    unfold matchingOf
    congr 1
    rw [List.map_append, List.map_map, List.map_map]
    simp [Function.comp_def]
  rw [scan_eq_pageOf, scanFiles_eq hOrdered]
  generalize
    archives.reverse.flatten.map (fun e => (true, e)) ++
      current.map (fun e => (false, e)) = es at hAll
  have hSorted : Ordered (matchingOf r es) := by
    rw [hAll, ← hMatching]
    exact hOrdered.sublist List.filter_sublist
  rcases hAt with ⟨hNil, rfl⟩ | ⟨first, e, rfl, hCursor⟩
  · rw [List.nil_append] at hAll
    have hPast : r.begin.past = true := by
      simp [Request.begin, hNil]
    have hSeen :
        ∀ x ∈ matchingOf r es,
          r.begin.seen (entryID x) =
            (([] : List Entry).map entryID).count (entryID x) :=
      fun _ _ => rfl
    rw [page_of_past hPast hSeen
      (Or.inr (by rw [hAll]; exact hRoom)), hAll]
    rfl
  · rw [List.append_assoc, List.singleton_append] at hAll
    have hSome : r.cursor ≠ [] := by
      rw [hCursor]
      exact formatCursor_ne_nil _ _
    have hPast : r.begin.past = false := by
      simpa [Request.begin] using hSome
    have hParse := parse_cursorOf hFew
    have hID : r.wantID = entryID e := by
      unfold Request.wantID
      rw [hCursor, hParse]
    have hN :
        r.wantN =
          (([] ++ first).map entryID).count (entryID e) + 1 := by
      unfold Request.wantN
      rw [hCursor, hParse, List.nil_append]
    rcases scanAll_to_cursor hAll hSorted hPast hID hN
        (fun x _ _ => rfl) with
      ⟨st, es', hEq, hRest, hFound, hOut, hUsed, hNext, hSeen⟩
    have hAfter :
        ∀ x ∈ matchingOf r es',
          st.seen (entryID x) =
            ((first ++ [e]).map entryID).count (entryID x) := by
      intro x hx
      rw [hRest] at hx
      have hTimes := hSorted.times
      rw [hAll, List.pairwise_append, List.pairwise_cons] at hTimes
      have hMem : x ∈ matchingOf r es := by
        rw [hAll]
        exact List.mem_append_right _ (List.mem_cons_of_mem _ hx)
      have hCount :=
        hSeen x (hTimes.2.1.1 x hx) (hSorted.nonzero x hMem)
      rw [List.nil_append] at hCount
      exact hCount
    rw [hEq, page_of_past hFound hAfter
      (Or.inr (by rw [hRest, hUsed]; exact hRoom)), hRest, hOut, hUsed,
      hNext]
    rfl

end Pages

------------------------------------------------------------
-- Readers
------------------------------------------------------------

namespace Reader

section Readers

variable [Name.LetterCase]
variable [TimeText]
variable [EntrySize]
variable {q : LogQuery}
variable {s s' : Reader}

omit [TimeText] [EntrySize] in
theorem matching_append
    (unit : String)
    (since : Nat)
    (es fs : List Entry) :
    matching unit since (es ++ fs) =
      matching unit since es ++ matching unit since fs := by
  unfold matching
  rw [List.filter_append]

/- The matching records that are still to be delivered. -/
def unread (q : LogQuery) (s : Reader) : List Entry :=
  (matching q.unit q.since s.written).drop
    (s.missed.length + s.delivered.length)

/-
  Times do not go back, a page has room for the next record,
  and a rotation removes no record with the identifier of the
  cursor.
-/
def Keeps (q : LogQuery) (s : Reader) : ReadLabel → Prop
| .append e =>
    e.timestamp ≠ 0 ∧ ∀ x ∈ s.written, x.timestamp ≤ e.timestamp
| .rotate =>
    s.cursor ≠ [] →
      ∀ x ∈ matching q.unit q.since (s.rotatedOff q),
        entryID x ≠ (parseCursor s.cursor).1
| .page maxBytes =>
    ∀ e, (s.unread q).head? = some e →
      ¬ (s.request q maxBytes).Exceeds 0 e

instance (q : LogQuery) (s : Reader) (l : ReadLabel) :
    Decidable (s.Keeps q l) :=
  match l with
  | .append _ => inferInstanceAs (Decidable (_ ∧ _))
  | .rotate => inferInstanceAs (Decidable (_ → _))
  | .page maxBytes =>
      inferInstanceAs
        (Decidable
          (∀ e ∈ (s.unread q).head?,
            ¬ (s.request q maxBytes).Exceeds 0 e))

/-
  The records written are those missed before there was a
  cursor, those delivered and those unread; the cursor is
  positioned before the unread ones.
-/
structure Paged (q : LogQuery) (s : Reader) : Prop where
  written : ∃ gone, s.written = gone ++ s.retained
  few : s.retained.length ≤ maxInt
  ordered : Ordered s.written
  all :
    matching q.unit q.since s.written =
      s.missed ++ (s.delivered ++ s.unread q)
  position :
    ∃ before, CursorAt s.cursor before ∧
      matching q.unit q.since s.retained = before ++ s.unread q
  first : s.cursor = [] → s.delivered = []

namespace Paged

omit [EntrySize] in
theorem start : Paged q .start := by
  refine ⟨⟨[], rfl⟩, by decide,
    ⟨List.Pairwise.nil, by simp [Reader.start]⟩, rfl,
    ⟨[], Or.inl ⟨rfl, rfl⟩, rfl⟩, fun _ => rfl⟩

omit [EntrySize] in
/- The unread records are those that a split leaves. -/
theorem of_split
    {gone before : List Entry}
    (rest : List Entry)
    (hWritten : s.written = gone ++ s.retained)
    (hFew : s.retained.length ≤ maxInt)
    (hOrdered : Ordered s.written)
    (hAll :
      matching q.unit q.since s.written =
        s.missed ++ (s.delivered ++ rest))
    (hAt : CursorAt s.cursor before)
    (hSplit : matching q.unit q.since s.retained = before ++ rest)
    (hFirst : s.cursor = [] → s.delivered = []) :
    Paged q s := by
  have hUnread : s.unread q = rest := by
    unfold unread
    rw [hAll, ← List.append_assoc, ← List.length_append,
      List.drop_left]
  refine ⟨⟨gone, hWritten⟩, hFew, hOrdered, ?_, ⟨before, hAt, ?_⟩,
    hFirst⟩
  · rw [hUnread]
    exact hAll
  · rw [hUnread]
    exact hSplit

omit [EntrySize] in
theorem retained_ordered
    (h : Paged q s) :
    Ordered s.retained := by
  rcases h.written with ⟨gone, hGone⟩
  apply h.ordered.sublist
  rw [hGone]
  exact List.sublist_append_right _ _

omit [EntrySize] in
theorem few_before
    (h : Paged q s)
    {before rest : List Entry}
    (hSplit : matching q.unit q.since s.retained = before ++ rest) :
    before.length ≤ maxInt := by
  have hLess :=
    (List.filter_sublist
      (l := s.retained)
      (p := fun e => e.Matches q.unit q.since)).length_le
  have hFew := h.few
  rw [show s.retained.filter _ = before ++ rest from hSplit,
    List.length_append] at hLess
  omega

variable {maxBytes : Nat}

/- The page of a request in a state. -/
theorem page_eq
    (h : Paged q s)
    (hRoom :
      ∀ e, (s.unread q).head? = some e →
        ¬ (s.request q maxBytes).Exceeds 0 e) :
    ∃ before, CursorAt s.cursor before ∧
      matching q.unit q.since s.retained = before ++ s.unread q ∧
      scan (s.request q maxBytes) s.files =
        { entries := fit (s.request q maxBytes) 0 (s.unread q)
          next :=
            follow s.cursor before
              (fit (s.request q maxBytes) 0 (s.unread q))
          more :=
            decide
              (fit (s.request q maxBytes) 0 (s.unread q) ≠
                s.unread q)
          err := none } := by
  rcases h.position with ⟨before, hAt, hSplit⟩
  refine ⟨before, hAt, hSplit, ?_⟩
  exact page_at h.retained_ordered hAt hSplit (h.few_before hSplit)
    hRoom

omit [EntrySize] in
theorem append
    (h : Paged q s)
    {e : Entry}
    (hFew : s.retained.length < maxInt)
    (hTime : e.timestamp ≠ 0)
    (hLast : ∀ x ∈ s.written, x.timestamp ≤ e.timestamp) :
    Paged q
      { s with
        current := s.current ++ [e]
        written := s.written ++ [e] } := by
  rcases h.written with ⟨gone, hGone⟩
  rcases h.position with ⟨before, hAt, hSplit⟩
  have hRetained :
      retained
          { s with
            current := s.current ++ [e]
            written := s.written ++ [e] } =
        s.retained ++ [e] := by
    simp [retained]
  have hOrdered : Ordered (s.written ++ [e]) := by
    refine ⟨?_, ?_⟩
    · rw [List.pairwise_append]
      refine ⟨h.ordered.times, List.pairwise_singleton _ _, ?_⟩
      intro x hx y hy
      rw [List.mem_singleton.mp hy]
      exact hLast x hx
    · intro x hx
      rcases List.mem_append.mp hx with hOld | hNew
      · exact h.ordered.nonzero x hOld
      · rw [List.mem_singleton.mp hNew]
        exact hTime
  have hWritten :
      s.written ++ [e] =
        gone ++
          retained
            { s with
              current := s.current ++ [e]
              written := s.written ++ [e] } := by
    rw [hRetained, hGone, List.append_assoc]
  refine of_split (s.unread q ++ matching q.unit q.since [e])
    hWritten ?_ hOrdered ?_ hAt ?_ h.first
  · rw [hRetained, List.length_append]
    exact hFew
  · rw [matching_append, h.all, List.append_assoc, List.append_assoc]
  · rw [hRetained, matching_append, hSplit, List.append_assoc]

omit [Name.LetterCase] [TimeText] [EntrySize] in
/- What a rotation removes was written first. -/
theorem retained_rotate
    (missed : List Entry) :
    s.retained =
      s.rotatedOff q ++
        retained
          { s with
            archives := (s.current :: s.archives).take q.kept
            current := []
            missed := missed } := by
  unfold retained rotatedOff
  rw [List.append_nil, ← List.flatten_append, ← List.reverse_append,
    List.take_append_drop, List.reverse_cons, List.flatten_append]
  simp

omit [EntrySize] in
theorem rotate_few
    (h : Paged q s)
    {off kept : List Entry}
    (hSplit : s.retained = off ++ kept) :
    kept.length ≤ maxInt := by
  have hFew := h.few
  rw [hSplit, List.length_append] at hFew
  omega

omit [EntrySize] in
theorem rotate
    (h : Paged q s)
    (hOther :
      s.cursor ≠ [] →
        ∀ x ∈ matching q.unit q.since (s.rotatedOff q),
          entryID x ≠ (parseCursor s.cursor).1) :
    Paged q
      { s with
        archives := (s.current :: s.archives).take q.kept
        current := []
        missed :=
          if s.cursor = [] then
            s.missed ++ matching q.unit q.since (s.rotatedOff q)
          else
            s.missed } := by
  rcases h.written with ⟨gone, hGone⟩
  rcases h.position with ⟨before, hAt, hSplit⟩
  have hBefore := h.few_before hSplit
  by_cases hNil : s.cursor = []
  · rw [if_pos hNil]
    have hRetained :=
      retained_rotate (q := q) (s := s)
        (s.missed ++ matching q.unit q.since (s.rotatedOff q))
    rw [hRetained, ← List.append_assoc] at hGone
    rw [hRetained, matching_append, cursorAt_nil hAt hNil,
      List.nil_append] at hSplit
    refine of_split _ hGone (rotate_few h hRetained) h.ordered ?_
      (Or.inl ⟨hNil, rfl⟩) rfl h.first
    rw [h.all, ← hSplit, List.append_assoc]
    simp only [h.first hNil, List.nil_append]
    rfl
  · rw [if_neg hNil]
    have hRetained := retained_rotate (q := q) (s := s) s.missed
    rw [hRetained, ← List.append_assoc] at hGone
    rw [hRetained, matching_append] at hSplit
    rcases cursorAt_drop hAt hNil hSplit.symm hBefore (hOther hNil) with
      ⟨before', hAt', hKept⟩
    exact of_split _ hGone (rotate_few h hRetained) h.ordered h.all hAt'
      hKept h.first

/- A page. -/
theorem page
    (h : Paged q s)
    (hRoom :
      ∀ e, (s.unread q).head? = some e →
        ¬ (s.request q maxBytes).Exceeds 0 e) :
    Paged q
      { s with
        cursor := (scan (s.request q maxBytes) s.files).next
        delivered :=
          s.delivered ++
            (scan (s.request q maxBytes) s.files).entries } := by
  rcases h.written with ⟨gone, hGone⟩
  rcases h.page_eq hRoom with ⟨before, hAt, hSplit, hPage⟩
  rcases fit_prefix (s.request q maxBytes) 0 (s.unread q) with
    ⟨rest, hRest⟩
  rw [hPage]
  generalize fit (s.request q maxBytes) 0 (s.unread q) = es at hRest
  have hNext := cursorAt_follow hAt es
  refine of_split rest hGone h.few h.ordered ?_ hNext ?_ ?_
  · rw [h.all, ← hRest, List.append_assoc]
  · rw [List.append_assoc, hRest]
    exact hSplit
  · intro hNil
    have hNone : es = [] :=
      (List.append_eq_nil_iff.mp (cursorAt_nil hNext hNil)).2
    subst hNone
    rw [List.append_nil]
    exact h.first hNil

/- Every step that meets the condition keeps the position. -/
theorem step
    {l : ReadLabel}
    (h : Paged q s)
    (hKeeps : s.Keeps q l)
    (hStep : s.step q l = some s') :
    Paged q s' := by
  cases l with
  | append e =>
      rcases Option.ite_none_right_eq_some.mp hStep with ⟨hFew, hNext⟩
      cases hNext
      exact h.append hFew hKeeps.1 hKeeps.2
  | rotate =>
      cases hStep
      exact h.rotate hKeeps
  | page maxBytes =>
      cases hStep
      exact h.page hKeeps

theorem of_reachable
    (h : (reading q).ReachableWhere (Keeps q) s) :
    Paged q s := by
  refine Lib.System.reachableWhere_invariant ?_ ?_ h
  · intro s hInit
    rw [show s = .start from hInit]
    exact start
  · intro s l s' _ hPaged hKeeps hStep
    exact hPaged.step hKeeps hStep

end Paged

/-
  In every run whose steps meet `Keeps`, the pages so far hold
  each record that was not rotated off before the first of them
  once, in the order written; the records still unread are
  retained; and a page with room for the next of them holds the
  first ones, all of them if it has no bound, and moves the
  cursor unless it is empty.
-/
theorem paging_exact
    (h : (reading q).ReachableWhere (Keeps q) s) :
    matching q.unit q.since s.written =
        s.missed ++ (s.delivered ++ s.unread q) ∧
      s.unread q <:+ matching q.unit q.since s.retained ∧
      (s.cursor = [] →
        matching q.unit q.since s.retained = s.unread q) ∧
      ∀ maxBytes,
        (∀ e, (s.unread q).head? = some e →
          ¬ (s.request q maxBytes).Exceeds 0 e) →
        ∃ page, scan (s.request q maxBytes) s.files = page ∧
          page.err = none ∧
          page.entries <+: s.unread q ∧
          (page.entries = [] ↔ s.unread q = []) ∧
          (maxBytes = 0 → page.entries = s.unread q) ∧
          (page.more = true ↔ page.entries ≠ s.unread q) ∧
          (page.next = s.cursor ↔ page.entries = []) := by
  have hPaged := Paged.of_reachable h
  rcases hPaged.position with ⟨before, hAt, hSplit⟩
  refine ⟨hPaged.all, ⟨before, hSplit.symm⟩, ?_, ?_⟩
  · intro hNil
    rw [hSplit, cursorAt_nil hAt hNil, List.nil_append]
  · intro maxBytes hRoom
    rcases hPaged.page_eq hRoom with ⟨before, hAt, _, hPage⟩
    refine ⟨_, hPage, rfl, fit_prefix _ _ _, fit_eq_nil_iff hRoom,
      fun hAll => fit_unlimited 0 _ hAll, decide_eq_true_iff, ?_⟩
    generalize fit (s.request q maxBytes) 0 (s.unread q) = es
    constructor
    · intro hSame
      by_contra hSome
      exact cursorAt_ne hAt (cursorAt_follow hAt es) hSome hSame
    · intro hNone
      dsimp only at hNone ⊢
      rw [hNone]
      rfl

end Readers

section Runs

local instance : Name.LetterCase := Name.asciiCase

local instance : TimeText := decimalTimes

local instance : EntrySize := ⟨fun e => e.message.length⟩

/- All records of one unit, with the default archives. -/
def everything : LogQuery where
  unit := "a.service"
  since := 0
  keep := 0

/- A line, or a piece that continues one. -/
def piece
    (timestamp : UInt8)
    (message : String)
    (continuation : Bool) :
    Entry :=
  { Entry.plain "a.service" message with
    timestamp := timestamp.toNat
    encodes := timestamp.toNat_lt.le.trans (by decide)
    continuation := continuation }

/- Two pages with a rotation between them. -/
def followed : List ReadLabel :=
  [.append (piece 1 "one" false), .append (piece 2 "two" false),
    .page 5, .rotate, .append (piece 2 "two" false), .page 5]

theorem paging_exact_followed :
    ∃ s, (reading everything).ReachableWhere (Keeps everything) s ∧
      s.delivered = [piece 1 "one" false, piece 2 "two" false] ∧
      s.unread everything = [piece 2 "two" false] ∧
      matching "a.service" 0 s.written =
        s.missed ++ (s.delivered ++ s.unread everything) := by
  have hRun :
      ((reading everything).run .start followed).map
          (fun s => (s.delivered, s.unread everything)) =
        some
          ([piece 1 "one" false, piece 2 "two" false],
            [piece 2 "two" false]) := by
    decide +kernel
  rcases Option.map_eq_some_iff.mp hRun with ⟨s, hs, hEq⟩
  rw [Prod.mk.injEq] at hEq
  have hReach :
      (reading everything).ReachableWhere (Keeps everything) s :=
    Lib.System.reachableWhere_of_run followed rfl hs
      (by decide +kernel)
  exact ⟨s, hReach, hEq.1, hEq.2, (paging_exact hReach).1⟩

/- A record whose twin is rotated off after the page. -/
def twinRotated : List ReadLabel :=
  [.append (piece 1 "x" false), .rotate, .append (piece 1 "x" true),
    .page 0, .rotate, .append (piece 1 "y" false), .rotate,
    .append (piece 2 "z" false), .rotate,
    .append (piece 2 "w" false)]

/-
  The cursor counts two records with its identifier, of which
  the first is gone: the record after the cursor is skipped,
  although both are retained.
-/
theorem retained_record_skipped :
    ∃ s, (reading everything).Reachable s ∧
      s.delivered = [piece 1 "x" false, piece 1 "x" true] ∧
      s.retained =
        [piece 1 "x" true, piece 1 "y" false, piece 2 "z" false,
          piece 2 "w" false] ∧
      (scan (s.request everything 0) s.files).entries =
        [piece 2 "z" false, piece 2 "w" false] := by
  have hRun :
      ((reading everything).run .start twinRotated).map
          (fun s =>
            (s.delivered, s.retained,
              (scan (s.request everything 0) s.files).entries)) =
        some
          ([piece 1 "x" false, piece 1 "x" true],
            [piece 1 "x" true, piece 1 "y" false,
              piece 2 "z" false, piece 2 "w" false],
            [piece 2 "z" false, piece 2 "w" false]) := by
    decide +kernel
  rcases Option.map_eq_some_iff.mp hRun with ⟨s, hs, hEq⟩
  rw [Prod.mk.injEq, Prod.mk.injEq] at hEq
  exact ⟨s, Lib.System.reachable_of_run twinRotated rfl hs, hEq⟩

end Runs

end Reader

end Journal

end Winunitd
